import Mathlib.Tactic

/-!
# Programs that call their environment

A program is a tree: it returns, or it makes a call and continues with whatever
the environment answers. Nothing is assumed about the answers, so a statement
about all runs of a program is a statement about every environment. Loops are
kept apart from trees: `Iterates` and `LoopRuns` describe `while True: body`
without fuel, and `loop` is the fuelled tree that executes it.
-/
namespace AegisCode.Program

/-- Programs over the calls `C`, where the call `c` is answered in `R c`. -/
inductive Prog (C : Type) (R : C → Type) (α : Type) where
  | ret (a : α)
  | call (c : C) (k : R c → Prog C R α)

/-- One call together with the answer it got. -/
structure Event (C : Type) (R : C → Type) where
  call : C
  answer : R call

variable {C : Type} {R : C → Type} {α β σ ε : Type}

namespace Prog

def bind : Prog C R α → (α → Prog C R β) → Prog C R β
  | .ret a, f => f a
  | .call c k, f => .call c fun r => (k r).bind f

instance : Monad (Prog C R) where
  pure := .ret
  bind := bind

@[simp] theorem bind_ret (p : Prog C R α) : p.bind .ret = p := by
  induction p with
  | ret a => rfl
  | call c k ih => simp only [bind, ih]

theorem bind_assoc (p : Prog C R α) (f : α → Prog C R β) {γ : Type} (g : β → Prog C R γ) :
    (p.bind f).bind g = p.bind fun a => (f a).bind g := by
  induction p with
  | ret a => rfl
  | call c k ih => simp only [bind, ih]

instance : LawfulMonad (Prog C R) := LawfulMonad.mk' _
  (fun p => bind_ret p) (fun _ _ => rfl) (fun p f g => bind_assoc p f g)

/-- The program that makes one call and returns its answer. -/
def perform (c : C) : Prog C R (R c) := .call c .ret

end Prog

open Prog

/-- `Runs p tr a`: answering the calls of `p` as in `tr` makes it return `a`. -/
inductive Runs : Prog C R α → List (Event C R) → α → Prop where
  | ret (a : α) : Runs (.ret a) [] a
  | call {c : C} {k : R c → Prog C R α} {r : R c} {tr : List (Event C R)} {a : α} :
      Runs (k r) tr a → Runs (.call c k) (⟨c, r⟩ :: tr) a

@[simp] theorem runs_ret {a b : α} {tr : List (Event C R)} :
    Runs (.ret a : Prog C R α) tr b ↔ tr = [] ∧ b = a := by
  constructor
  · rintro ⟨⟩
    exact ⟨rfl, rfl⟩
  · rintro ⟨rfl, rfl⟩
    exact .ret b

@[simp] theorem runs_pure {a b : α} {tr : List (Event C R)} :
    Runs (pure a : Prog C R α) tr b ↔ tr = [] ∧ b = a := runs_ret

theorem runs_call {c : C} {k : R c → Prog C R α} {tr : List (Event C R)} {a : α} :
    Runs (.call c k) tr a ↔ ∃ r tr', tr = ⟨c, r⟩ :: tr' ∧ Runs (k r) tr' a := by
  constructor
  · rintro (_ | h)
    exact ⟨_, _, rfl, h⟩
  · rintro ⟨r, tr', rfl, h⟩
    exact .call h

@[simp] theorem runs_perform {c : C} {tr : List (Event C R)} {r : R c} :
    Runs (perform c) tr r ↔ tr = [⟨c, r⟩] := by
  rw [perform, runs_call]
  constructor
  · rintro ⟨r', tr', rfl, h⟩
    obtain ⟨rfl, rfl⟩ := runs_ret.mp h
    rfl
  · rintro rfl
    exact ⟨r, [], rfl, .ret r⟩

/-- A run of a sequence is a run of the first program, then one of the second. -/
theorem runs_bind {p : Prog C R α} {f : α → Prog C R β} {tr : List (Event C R)} {b : β} :
    Runs (p >>= f) tr b ↔ ∃ t₁ a t₂, tr = t₁ ++ t₂ ∧ Runs p t₁ a ∧ Runs (f a) t₂ b := by
  change Runs (p.bind f) tr b ↔ _
  induction p generalizing tr with
  | ret a => simp [Prog.bind]
  | call c k ih =>
    simp only [Prog.bind, runs_call]
    constructor
    · rintro ⟨r, tr', rfl, h⟩
      obtain ⟨t₁, a, t₂, rfl, h₁, h₂⟩ := (ih r).mp h
      exact ⟨⟨c, r⟩ :: t₁, a, t₂, rfl, ⟨r, t₁, rfl, h₁⟩, h₂⟩
    · rintro ⟨t₁, a, t₂, rfl, ⟨r, t₁', rfl, h₁⟩, h₂⟩
      exact ⟨r, t₁' ++ t₂, rfl, (ih r).mpr ⟨t₁', a, t₂, rfl, h₁, h₂⟩⟩

@[simp] theorem runs_perform_bind {c : C} {f : R c → Prog C R β} {tr : List (Event C R)} {b : β} :
    Runs (perform c >>= f) tr b ↔ ∃ r t, tr = ⟨c, r⟩ :: t ∧ Runs (f r) t b := by
  rw [runs_bind]
  constructor
  · rintro ⟨t₁, r, t₂, rfl, h₁, h₂⟩
    obtain rfl := runs_perform.mp h₁
    exact ⟨r, t₂, rfl, h₂⟩
  · rintro ⟨r, t, rfl, h⟩
    exact ⟨[⟨c, r⟩], r, t, rfl, runs_perform.mpr rfl, h⟩

/-- In a program that may raise, an exception of the first part skips the rest. -/
theorem runs_except_bind {x : ExceptT ε (Prog C R) α} {f : α → ExceptT ε (Prog C R) β}
    {tr : List (Event C R)} {out : Except ε β} :
    Runs (x >>= f).run tr out ↔
      (∃ e, Runs x.run tr (.error e) ∧ out = .error e) ∨
      ∃ t₁ a t₂, tr = t₁ ++ t₂ ∧ Runs x.run t₁ (.ok a) ∧ Runs (f a).run t₂ out := by
  rw [ExceptT.run_bind, runs_bind]
  constructor
  · rintro ⟨t₁, r, t₂, rfl, h₁, h₂⟩
    cases r with
    | error e =>
      obtain ⟨rfl, rfl⟩ := runs_pure.mp h₂
      exact .inl ⟨e, by simpa using h₁, rfl⟩
    | ok a => exact .inr ⟨t₁, a, t₂, rfl, h₁, h₂⟩
  · rintro (⟨e, h, rfl⟩ | ⟨t₁, a, t₂, rfl, h₁, h₂⟩)
    · exact ⟨tr, .error e, [], by simp, h, by simp⟩
    · exact ⟨t₁, .ok a, t₂, rfl, h₁, h₂⟩

theorem runs_return {a : α} {tr : List (Event C R)} {out : Except ε α} :
    Runs (return a : ExceptT ε (Prog C R) α).run tr out ↔ tr = [] ∧ out = .ok a := by
  rw [ExceptT.run_pure, runs_pure]

theorem runs_throw {e : ε} {tr : List (Event C R)} {out : Except ε α} :
    Runs (throw e : ExceptT ε (Prog C R) α).run tr out ↔ tr = [] ∧ out = .error e := by
  rw [ExceptT.run_throw, runs_pure]

theorem runs_lift {p : Prog C R α} {tr : List (Event C R)} {out : Except ε α} :
    Runs (ExceptT.lift p).run tr out ↔ ∃ a, out = .ok a ∧ Runs p tr a := by
  rw [ExceptT.run_lift, map_eq_pure_bind, runs_bind]
  constructor
  · rintro ⟨t₁, a, t₂, rfl, hp, hout⟩
    obtain ⟨rfl, rfl⟩ := runs_pure.mp hout
    exact ⟨a, rfl, by simpa using hp⟩
  · rintro ⟨a, rfl, hp⟩
    exact ⟨tr, a, [], by simp, hp, by simp⟩

/-- A part that cannot raise is followed by the rest. -/
theorem runs_lift_bind {p : Prog C R α} {f : α → ExceptT ε (Prog C R) β} {tr : List (Event C R)}
    {out : Except ε β} :
    Runs (ExceptT.lift p >>= f).run tr out ↔
      ∃ t₁ a t₂, tr = t₁ ++ t₂ ∧ Runs p t₁ a ∧ Runs (f a).run t₂ out := by
  rw [ExceptT.run_bind_lift, runs_bind]

/-- One call comes first. -/
theorem runs_lift_perform_bind {c : C} {f : R c → ExceptT ε (Prog C R) β} {tr : List (Event C R)}
    {out : Except ε β} :
    Runs (ExceptT.lift (perform c) >>= f).run tr out ↔
      ∃ r t, tr = ⟨c, r⟩ :: t ∧ Runs (f r).run t out := by
  rw [ExceptT.run_bind_lift, runs_perform_bind]

/-- A part whose value is only wrapped up: the run and its exceptions are those of the part. -/
theorem runs_map {x : ExceptT ε (Prog C R) α} {g : α → β} {tr : List (Event C R)}
    {out : Except ε β} :
    Runs (do return g (← x) : ExceptT ε (Prog C R) β).run tr out ↔
      ∃ r, Runs x.run tr r ∧ out = r.map g := by
  rw [runs_except_bind]
  constructor
  · rintro (⟨e, he, rfl⟩ | ⟨t₁, a, t₂, rfl, ha, hret⟩)
    · exact ⟨.error e, he, rfl⟩
    · obtain ⟨rfl, rfl⟩ := runs_pure.mp hret
      exact ⟨.ok a, by simpa using ha, rfl⟩
  · rintro ⟨r, hr, rfl⟩
    cases r with
    | error e => exact .inl ⟨e, hr, rfl⟩
    | ok a => exact .inr ⟨tr, a, [], by simp, hr, runs_pure.mpr ⟨rfl, rfl⟩⟩

/-- Whatever a program calls, some answers make it return. -/
theorem exists_runs [∀ c, Nonempty (R c)] (p : Prog C R α) : ∃ tr a, Runs p tr a := by
  induction p with
  | ret a => exact ⟨[], a, .ret a⟩
  | call c k ih =>
    obtain ⟨r⟩ := (inferInstance : Nonempty (R c))
    obtain ⟨tr, a, h⟩ := ih r
    exact ⟨⟨c, r⟩ :: tr, a, .call h⟩

/-! ## Runs under way -/

/-- `Reaches p tr q`: the calls answered so far are `tr`, and `q` is left to do. -/
inductive Reaches : Prog C R α → List (Event C R) → Prog C R α → Prop where
  | refl (p : Prog C R α) : Reaches p [] p
  | call {c : C} {k : R c → Prog C R α} {r : R c} {tr : List (Event C R)} {q : Prog C R α} :
      Reaches (k r) tr q → Reaches (.call c k) (⟨c, r⟩ :: tr) q

theorem Reaches.snoc {p : Prog C R α} {tr : List (Event C R)} {c : C} {k : R c → Prog C R α}
    (h : Reaches p tr (.call c k)) (r : R c) : Reaches p (tr ++ [⟨c, r⟩]) (k r) := by
  generalize hq : Prog.call c k = q at h
  induction h with
  | refl p =>
    subst hq
    exact .call (.refl _)
  | call _ ih => exact .call (ih hq)

theorem Reaches.runs {p q : Prog C R α} {tr tr' : List (Event C R)} {a : α}
    (h : Reaches p tr q) (hq : Runs q tr' a) : Runs p (tr ++ tr') a := by
  induction h with
  | refl p => exact hq
  | call _ ih => exact .call (ih hq)

/-- A run under way can be finished. -/
theorem Reaches.exists_runs [∀ c, Nonempty (R c)] {p q : Prog C R α} {tr : List (Event C R)}
    (h : Reaches p tr q) : ∃ tr' a, Runs p (tr ++ tr') a := by
  obtain ⟨tr', a, hq⟩ := Program.exists_runs q
  exact ⟨tr', a, h.runs hq⟩

/-! ## Loops -/

section Loops
variable {body : σ → Prog C R (σ ⊕ β)} {s s' : σ} {ts : List (List (Event C R))}

/-- Completed iterations of `while True: body`, each with its own trace. -/
inductive Iterates (body : σ → Prog C R (σ ⊕ β)) : σ → List (List (Event C R)) → σ → Prop where
  | refl (s : σ) : Iterates body s [] s
  | step {s s₁ s₂ : σ} {t : List (Event C R)} {ts : List (List (Event C R))} :
      Runs (body s) t (.inl s₁) → Iterates body s₁ ts s₂ → Iterates body s (t :: ts) s₂

/-- A whole run of the loop: completed iterations, then the one that leaves it. -/
def LoopRuns (body : σ → Prog C R (σ ⊕ β)) (s : σ) (ts : List (List (Event C R))) (b : β) : Prop :=
  ∃ s' ts' t, Iterates body s ts' s' ∧ Runs (body s') t (.inr b) ∧ ts = ts' ++ [t]

/-- What one iteration keeps, with the traces so far in view, all of them keep. -/
theorem Iterates.history {I : List (List (Event C R)) → σ → Prop} (h₀ : I [] s)
    (hstep : ∀ ts s t s', I ts s → Runs (body s) t (.inl s') → I (ts ++ [t]) s')
    (h : Iterates body s ts s') : I ts s' := by
  suffices hgen : ∀ pre, I pre s → I (pre ++ ts) s' by simpa using hgen [] h₀
  clear h₀
  induction h with
  | refl s => intro pre hpre; simpa using hpre
  | step hrun _ ih =>
    intro pre hpre
    simpa using ih _ (hstep pre _ _ _ hpre hrun)

/-- If a potential pays for the weight of every iteration, it pays for all of them. -/
theorem Iterates.sum_le {I : σ → Prop} {μ : σ → ℕ} {w : List (Event C R) → ℕ} (h₀ : I s)
    (hstep : ∀ s t s', I s → Runs (body s) t (.inl s') → I s' ∧ w t + μ s' ≤ μ s)
    (h : Iterates body s ts s') : (ts.map w).sum + μ s' ≤ μ s := by
  induction h with
  | refl s => simp
  | step hrun _ ih =>
    obtain ⟨hI, hw⟩ := hstep _ _ _ h₀ hrun
    have := ih hI
    simp only [List.map_cons, List.sum_cons]
    omega

/-- The last iteration is paid from what the completed ones left over. -/
theorem LoopRuns.sum_le {μ : σ → ℕ} {w : List (Event C R) → ℕ} {b : β}
    (hstep : ∀ s t s', Runs (body s) t (.inl s') → w t + μ s' ≤ μ s)
    (hlast : ∀ s t b, Runs (body s) t (.inr b) → w t ≤ μ s) (h : LoopRuns body s ts b) :
    (ts.map w).sum ≤ μ s := by
  obtain ⟨s', ts', t, hit, hrun, rfl⟩ := h
  have hpaid : (ts'.map w).sum + μ s' ≤ μ s :=
    hit.sum_le (I := fun _ => True) trivial fun s t s' _ hrun => ⟨trivial, hstep s t s' hrun⟩
  have hlast : w t ≤ μ s' := hlast s' t b hrun
  simp only [List.map_append, List.map_cons, List.map_nil, List.sum_append, List.sum_cons,
    List.sum_nil]
  omega

/-- Every iteration of the run started in some state reached before it. -/
theorem Iterates.mem {t : List (Event C R)} (h : Iterates body s ts s') (ht : t ∈ ts) :
    ∃ ts₁ s₁ s₂, Iterates body s ts₁ s₁ ∧ Runs (body s₁) t (.inl s₂) := by
  induction h with
  | refl s => simp at ht
  | @step s s₁ s₂ t' ts hrun hrest ih =>
    rcases List.mem_cons.mp ht with rfl | ht
    · exact ⟨[], s, s₁, .refl s, hrun⟩
    · obtain ⟨ts₁, u, v, hu, hv⟩ := ih ht
      exact ⟨t' :: ts₁, u, v, .step hrun hu, hv⟩

/-- An iteration in the middle, with the state it starts from and the one it leaves. -/
theorem Iterates.split {a b : List (List (Event C R))} {t : List (Event C R)}
    (h : Iterates body s (a ++ t :: b) s') :
    ∃ s₁ s₂, Iterates body s a s₁ ∧ Runs (body s₁) t (.inl s₂) ∧ Iterates body s₂ b s' := by
  induction a generalizing s with
  | nil =>
    cases h with
    | step hrun hrest => exact ⟨s, _, .refl s, hrun, hrest⟩
  | cons u a ih =>
    cases h with
    | step hrun hrest =>
      obtain ⟨s₁, s₂, ha, ht, hb⟩ := ih hrest
      exact ⟨s₁, s₂, .step hrun ha, ht, hb⟩

/-- The loop with an iteration budget; `none` means the budget ran out. -/
def loop (body : σ → Prog C R (σ ⊕ β)) : ℕ → σ → Prog C R (Option β)
  | 0, _ => pure none
  | n + 1, s => do
    match ← body s with
    | .inl s' => loop body n s'
    | .inr b => pure (some b)

/-- A budgeted run either is a whole run of the loop or used up its budget. -/
theorem runs_loop {n : ℕ} {tr : List (Event C R)} {out : Option β} (h : Runs (loop body n s) tr out) :
    (∃ ts b, out = some b ∧ tr = ts.flatten ∧ LoopRuns body s ts b) ∨
      (out = none ∧ ∃ ts s', ts.length = n ∧ tr = ts.flatten ∧ Iterates body s ts s') := by
  induction n generalizing s tr with
  | zero =>
    obtain ⟨rfl, rfl⟩ := runs_pure.mp h
    exact .inr ⟨rfl, [], s, rfl, rfl, .refl s⟩
  | succ n ih =>
    obtain ⟨t₁, r, t₂, rfl, h₁, h₂⟩ := runs_bind.mp h
    cases r with
    | inr b =>
      obtain ⟨rfl, rfl⟩ := runs_pure.mp h₂
      exact .inl ⟨[t₁], b, rfl, by simp, s, [], t₁, .refl s, h₁, rfl⟩
    | inl s₁ =>
      obtain ⟨ts, b, rfl, rfl, s', ts', t, hit, hlast, rfl⟩ | ⟨rfl, ts, s', hlen, rfl, hit⟩ := ih h₂
      · exact .inl ⟨_, b, rfl, rfl, s', t₁ :: ts', t, .step h₁ hit, hlast, rfl⟩
      · exact .inr ⟨rfl, t₁ :: ts, s', by simp [hlen], rfl, .step h₁ hit⟩

end Loops

/-- An element of two joined lists stands in one of them. -/
theorem append_eq_append_cons {γ : Type} {t t' u v : List γ} {e : γ}
    (h : t ++ t' = u ++ e :: v) :
    (∃ u', u = t ++ u' ∧ t' = u' ++ e :: v) ∨ ∃ v', t = u ++ e :: v' := by
  obtain ⟨m, rfl, hm⟩ | ⟨m, rfl, hm⟩ := List.append_eq_append_iff.mp h
  · exact .inl ⟨m, rfl, hm⟩
  · cases m with
    | nil => exact .inl ⟨[], by simp, hm.symm⟩
    | cons x m =>
      cases hm
      exact .inr ⟨m, rfl⟩

/-- An element of the joined parts stands in one of them. -/
theorem flatten_eq_append_cons {γ : Type} {ts : List (List γ)} {u v : List γ} {e : γ}
    (h : ts.flatten = u ++ e :: v) : ∃ t ∈ ts, ∃ before u' v',
      t = u' ++ e :: v' ∧ u = before ++ u' := by
  induction ts generalizing u with
  | nil => simp at h
  | cons t ts ih =>
    rw [List.flatten_cons] at h
    obtain ⟨m, rfl, hm⟩ | ⟨v', rfl⟩ := append_eq_append_cons h
    · obtain ⟨t', ht', before, u', v', hsplit, rfl⟩ := ih hm
      exact ⟨t', List.mem_cons_of_mem _ ht', t ++ before, u', v', hsplit, by simp⟩
    · exact ⟨_, List.mem_cons_self .., [], u, v', rfl, rfl⟩

/-! ## Linking

A call may itself be implemented by a program over lower-level calls. A frame
keeps such a call together with the trace of its implementation. -/

section Linking
variable {C' : Type} {R' : C' → Type}

structure Frame (C : Type) (R : C → Type) (C' : Type) (R' : C' → Type) where
  event : Event C R
  inner : List (Event C' R')

/-- The answer of the frame's call is what a run of its implementation returned. -/
def Linked (impl : (c : C) → Option (Prog C' R' (R c))) (f : Frame C R C' R') : Prop :=
  match impl f.event.call with
  | some p => Runs p f.inner f.event.answer
  | none => f.inner = []

/-- Frames whose events fall into parts fall into parts themselves. -/
theorem exists_flatten_of_map_event {fs : List (Frame C R C' R')} {ts : List (List (Event C R))}
    (h : fs.map Frame.event = ts.flatten) :
    ∃ parts : List (List (Frame C R C' R')),
      fs = parts.flatten ∧ parts.map (List.map Frame.event) = ts := by
  induction ts generalizing fs with
  | nil =>
    obtain rfl := List.map_eq_nil_iff.mp h
    exact ⟨[], rfl, rfl⟩
  | cons t ts ih =>
    obtain ⟨part, rest, rfl, rfl, hrest⟩ := List.map_eq_append_iff.mp h
    obtain ⟨parts, rfl, rfl⟩ := ih hrest
    exact ⟨part :: parts, rfl, rfl⟩

end Linking

/-! ## Interleaved steps

A system of several parties is a partial step function on labels; a run is the
list of labels of the steps in the order they happened. -/

section Interleaving
variable {ℓ : Type} {step : σ → ℓ → Option σ}

/-- The state after the labelled steps; `none` when one of them is not enabled. -/
def execute (step : σ → ℓ → Option σ) : σ → List ℓ → Option σ
  | s, [] => some s
  | s, l :: ls => (step s l).bind fun s' => execute step s' ls

theorem execute_append {s : σ} {ls ls' : List ℓ} :
    execute step s (ls ++ ls') = (execute step s ls).bind fun s' => execute step s' ls' := by
  induction ls generalizing s with
  | nil => rfl
  | cons l ls ih => simp only [List.cons_append, execute, Option.bind_assoc, ih]

/-- What every enabled step keeps, with the labels so far in view, every run keeps. -/
theorem execute_invariant {I : List ℓ → σ → Prop} {s₀ s : σ} {ls : List ℓ} (h₀ : I [] s₀)
    (hstep : ∀ ls s l s', I ls s → step s l = some s' → I (ls ++ [l]) s')
    (h : execute step s₀ ls = some s) : I ls s := by
  induction ls using List.reverseRecOn generalizing s with
  | nil =>
    obtain rfl : s₀ = s := by simpa [execute] using h
    exact h₀
  | append_singleton ls l ih =>
    rw [execute_append] at h
    obtain ⟨s₁, h₁, h₂⟩ := Option.bind_eq_some_iff.mp h
    simp only [execute, Option.bind_fun_some] at h₂
    exact hstep ls s₁ l s (ih h₁) h₂

/-- Runs of a step relation, with the labels of their steps. -/
inductive Trace (step : σ → ℓ → σ → Prop) (s₀ : σ) : List ℓ → σ → Prop where
  | nil : Trace step s₀ [] s₀
  | snoc {ls : List ℓ} {s s' : σ} {l : ℓ} :
      Trace step s₀ ls s → step s l s' → Trace step s₀ (ls ++ [l]) s'

theorem Trace.append {step : σ → ℓ → σ → Prop} {s₀ s s' : σ} {ls ls' : List ℓ}
    (h : Trace step s₀ ls s) (h' : Trace step s ls' s') : Trace step s₀ (ls ++ ls') s' := by
  induction h' with
  | nil => rwa [List.append_nil]
  | snoc _ hstep ih =>
    rw [← List.append_assoc]
    exact .snoc ih hstep

theorem Trace.cons {step : σ → ℓ → σ → Prop} {s₀ s s' : σ} {l : ℓ} {ls : List ℓ}
    (hstep : step s₀ l s) (h : Trace step s ls s') : Trace step s₀ (l :: ls) s' :=
  Trace.append (.snoc .nil hstep) h

/-- The step at some place of a run, and what happened before it. -/
theorem Trace.at {step : σ → ℓ → σ → Prop} {s₀ s : σ} {pre post : List ℓ} {l : ℓ}
    (h : Trace step s₀ (pre ++ l :: post) s) :
    ∃ s₁ s₂, Trace step s₀ pre s₁ ∧ step s₁ l s₂ := by
  induction post using List.reverseRecOn generalizing s with
  | nil =>
    generalize hls : pre ++ [l] = ls at h
    cases h with
    | nil => simp at hls
    | snoc h hstep =>
      obtain ⟨rfl, rfl⟩ := List.append_inj' hls rfl |>.imp_right List.singleton_inj.mp
      exact ⟨_, _, h, hstep⟩
  | append_singleton post x ih =>
    generalize hls : pre ++ l :: (post ++ [x]) = ls at h
    cases h with
    | nil => simp at hls
    | snoc h hstep =>
      rw [← List.cons_append, ← List.append_assoc] at hls
      obtain ⟨rfl, _⟩ := List.append_inj' hls rfl
      exact ih h

/-- A system of independent components: a step of one leaves the others alone. -/
def onComponent {ι τ : Type} [DecidableEq ι] (step : τ → ℓ → Option τ) (s : ι → τ) (l : ι × ℓ) :
    Option (ι → τ) :=
  (step (s l.1) l.2).map (Function.update s l.1)

/-- The steps of one component. -/
def stepsOf {ι : Type} [DecidableEq ι] (i : ι) (ls : List (ι × ℓ)) : List ℓ :=
  (ls.filter fun l => l.1 = i).map Prod.snd

/-- In a run of independent components each of them has its own run. -/
theorem execute_onComponent {ι τ : Type} [DecidableEq ι] {step : τ → ℓ → Option τ}
    {s s' : ι → τ} {ls : List (ι × ℓ)} (h : execute (onComponent step) s ls = some s') (i : ι) :
    execute step (s i) (stepsOf i ls) = some (s' i) := by
  induction ls generalizing s with
  | nil =>
    obtain rfl : s = s' := by simpa [execute] using h
    rfl
  | cons l ls ih =>
    obtain ⟨s₁, h₁, h₂⟩ := Option.bind_eq_some_iff.mp h
    obtain ⟨t, ht, rfl⟩ := Option.map_eq_some_iff.mp h₁
    have hrest := ih h₂
    unfold stepsOf at hrest ⊢
    by_cases hi : l.1 = i
    · subst hi
      rw [Function.update_self] at hrest
      rw [List.filter_cons_of_pos (by simp), List.map_cons, execute, ht]
      exact hrest
    · rw [Function.update_of_ne (Ne.symm hi)] at hrest
      rw [List.filter_cons_of_neg (by simpa using hi)]
      exact hrest

end Interleaving

end AegisCode.Program
