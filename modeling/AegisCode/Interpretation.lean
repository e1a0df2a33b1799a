import AegisCode.Program

/-!
# Interpretation

The calls that a program can come to, and programs whose calls are replaced by programs
over the calls of a lower level. A run of such a program is a run of the one above, with
a run below for each of its calls.
-/
namespace AegisCode.Program

open Prog

/-! ## The calls of a program -/

section Calls
variable {C C' S β γ : Type} {R : C → Type} {R' : C' → Type} {P : C → Prop}

/-- Every call the program can come to satisfies `P`. -/
def AllCalls (P : C → Prop) : Prog C R β → Prop
  | .ret _ => True
  | .call c k => P c ∧ ∀ r, AllCalls P (k r)

theorem allCalls_perform {c : C} (h : P c) : AllCalls P (perform c : Prog C R (R c)) :=
  ⟨h, fun _ => trivial⟩

theorem AllCalls.bind {p : Prog C R β} {f : β → Prog C R γ} (hp : AllCalls P p)
    (hf : ∀ a, AllCalls P (f a)) : AllCalls P (p >>= f) := by
  induction p with
  | ret a => exact hf a
  | call c k ih => exact ⟨hp.1, fun r => ih r (hp.2 r)⟩

/-- In a program that may raise, the handler of the exception makes no call. -/
theorem AllCalls.except_bind {ε : Type} {x : ExceptT ε (Prog C R) β}
    {f : β → ExceptT ε (Prog C R) γ} (hx : AllCalls P x.run) (hf : ∀ a, AllCalls P (f a).run) :
    AllCalls P (x >>= f).run := by
  rw [ExceptT.run_bind]
  refine hx.bind fun out => ?_
  cases out with
  | error e => trivial
  | ok a => exact hf a

theorem allCalls_lift {ε : Type} {p : Prog C R β} (hp : AllCalls P p) :
    AllCalls P (ExceptT.lift p : ExceptT ε (Prog C R) β).run :=
  hp.bind fun _ => trivial

theorem AllCalls.of_runs {p : Prog C R β} {tr : List (Event C R)} {a : β} (hp : AllCalls P p)
    (hrun : Runs p tr a) : ∀ e ∈ tr, P e.call := by
  induction hrun with
  | ret => exact List.forall_mem_nil _
  | call _ ih => exact List.forall_mem_cons.mpr ⟨hp.1, ih (hp.2 _)⟩

theorem AllCalls.of_reaches {p q : Prog C R β} {tr : List (Event C R)} (hp : AllCalls P p)
    (h : Reaches p tr q) : AllCalls P q := by
  induction h with
  | refl => exact hp
  | call _ ih => exact ih (hp.2 _)

theorem AllCalls.loop {body : S → Prog C R (S ⊕ β)} (h : ∀ s, AllCalls P (body s)) (n : ℕ)
    (s : S) : AllCalls P (loop body n s) := by
  induction n generalizing s with
  | zero => trivial
  | succ n ih =>
      refine (h s).bind fun out => ?_
      cases out with
      | inl s' => exact ih s'
      | inr b => trivial

/-! ## The results of a program -/

/-- Every result the program can come to satisfies `Q`. -/
def AllReturns (Q : β → Prop) : Prog C R β → Prop
  | .ret a => Q a
  | .call _ k => ∀ r, AllReturns Q (k r)

theorem allReturns_bind {Q : γ → Prop} {p : Prog C R β} {f : β → Prog C R γ}
    (hf : ∀ a, AllReturns Q (f a)) : AllReturns Q (p >>= f) := by
  induction p with
  | ret a => exact hf a
  | call c k ih => exact fun r => ih r

/-- A program that may raise comes to what its end gives, or to an exception. -/
theorem allReturns_except_bind {ε : Type} {Q : Except ε γ → Prop} {x : ExceptT ε (Prog C R) β}
    {f : β → ExceptT ε (Prog C R) γ} (herror : ∀ e, Q (.error e))
    (hf : ∀ a, AllReturns Q (f a).run) : AllReturns Q (x >>= f).run := by
  rw [ExceptT.run_bind]
  refine allReturns_bind fun out => ?_
  cases out with
  | error e => exact herror e
  | ok a => exact hf a

theorem AllReturns.of_runs {Q : β → Prop} {p : Prog C R β} {tr : List (Event C R)} {a : β}
    (hp : AllReturns Q p) (hrun : Runs p tr a) : Q a := by
  induction hrun with
  | ret => exact hp
  | call _ ih => exact ih (hp _)

/-- From wherever it stands a program runs on with answers of our choice. -/
theorem Reaches.exists_answered {p q : Prog C R β} {tr : List (Event C R)} (h : Reaches p tr q)
    (answer : ∀ c, R c) :
    ∃ tr' a, Runs p (tr ++ tr') a ∧ ∀ e ∈ tr', e.answer = answer e.call := by
  induction h with
  | refl p =>
    induction p with
    | ret a => exact ⟨[], a, .ret a, List.forall_mem_nil _⟩
    | call c k ih =>
      obtain ⟨tr', a, hrun, htr'⟩ := ih (answer c)
      exact ⟨⟨c, answer c⟩ :: tr', a, .call hrun, List.forall_mem_cons.mpr ⟨rfl, htr'⟩⟩
  | call _ ih =>
    obtain ⟨tr', a, hrun, htr'⟩ := ih
    exact ⟨tr', a, .call hrun, htr'⟩

/-! ## Replacing the calls -/

/-- The program with each call replaced by a program for it. -/
def interpret (impl : (c : C) → Prog C' R' (R c)) : Prog C R β → Prog C' R' β
  | .ret a => .ret a
  | .call c k => impl c >>= fun r => interpret impl (k r)

variable {impl : (c : C) → Prog C' R' (R c)}

@[simp] theorem interpret_perform (c : C) : interpret impl (perform c) = impl c :=
  bind_pure (impl c)

@[simp] theorem interpret_bind (p : Prog C R β) (f : β → Prog C R γ) :
    interpret impl (p >>= f) = interpret impl p >>= fun a => interpret impl (f a) := by
  induction p with
  | ret a => rfl
  | call c k ih =>
      show (impl c >>= fun r => interpret impl (k r >>= f)) =
        (impl c >>= fun r => interpret impl (k r)) >>= fun a => interpret impl (f a)
      simp only [ih, LawfulMonad.bind_assoc]

theorem AllCalls.interpret {P' : C' → Prop} {p : Prog C R β} (hp : AllCalls P p)
    (himpl : ∀ c, P c → AllCalls P' (impl c)) : AllCalls P' (Program.interpret impl p) := by
  induction p with
  | ret a => trivial
  | call c k ih => exact (himpl c hp.1).bind fun r => ih r (hp.2 r)

/-- A program that may raise, with its calls replaced. -/
def interpretE {ε : Type} (impl : (c : C) → Prog C' R' (R c)) (x : ExceptT ε (Prog C R) β) :
    ExceptT ε (Prog C' R') β :=
  ExceptT.mk (interpret impl x.run)

section Raising
variable {ε : Type}

theorem interpretE_bind (x : ExceptT ε (Prog C R) β) (f : β → ExceptT ε (Prog C R) γ) :
    interpretE impl (x >>= f) = interpretE impl x >>= fun a => interpretE impl (f a) := by
  refine ExceptT.ext ?_
  show interpret impl (x >>= f).run = (interpretE impl x >>= fun a => interpretE impl (f a)).run
  rw [ExceptT.run_bind, ExceptT.run_bind, interpret_bind]
  refine congrArg (interpret impl x.run >>= ·) (funext fun out => ?_)
  cases out <;> rfl

theorem interpretE_lift (p : Prog C R β) :
    interpretE impl (ExceptT.lift p : ExceptT ε (Prog C R) β) = ExceptT.lift (interpret impl p) :=
  interpret_bind p _

theorem interpretE_mk (p : Prog C R (Except ε β)) :
    interpretE impl (ExceptT.mk p) = ExceptT.mk (interpret impl p) := rfl

end Raising

/-! ## Runs -/

/-- The trace below is made of runs for the calls of the trace above. -/
inductive Serves (impl : (c : C) → Prog C' R' (R c)) :
    List (Event C R) → List (Event C' R') → Prop where
  | nil : Serves impl [] []
  | cons {c : C} {r : R c} {es : List (Event C R)} {u tr : List (Event C' R')} :
      Runs (impl c) u r → Serves impl es tr → Serves impl (⟨c, r⟩ :: es) (u ++ tr)

theorem Serves.mem {es : List (Event C R)} {tr : List (Event C' R')} (h : Serves impl es tr)
    {e : Event C R} (he : e ∈ es) : ∃ u, Runs (impl e.call) u e.answer := by
  induction h with
  | nil => cases he
  | cons hcall _ ih =>
    obtain rfl | he := List.mem_cons.mp he
    · exact ⟨_, hcall⟩
    · exact ih he

theorem runs_interpret {p : Prog C R β} {tr : List (Event C' R')} {a : β} :
    Runs (interpret impl p) tr a ↔ ∃ es, Runs p es a ∧ Serves impl es tr := by
  induction p generalizing tr with
  | ret b =>
      constructor
      · intro h
        obtain ⟨rfl, rfl⟩ := runs_ret.mp h
        exact ⟨[], .ret a, .nil⟩
      · rintro ⟨es, h, hserves⟩
        obtain ⟨rfl, rfl⟩ := runs_ret.mp h
        cases hserves
        exact .ret a
  | call c k ih =>
      constructor
      · intro h
        obtain ⟨u, r, v, rfl, hcall, hrest⟩ := runs_bind.mp h
        obtain ⟨es, hrun, hserves⟩ := (ih r).mp hrest
        exact ⟨⟨c, r⟩ :: es, .call hrun, .cons hcall hserves⟩
      · rintro ⟨es, h, hserves⟩
        obtain ⟨r, es, rfl, hrun⟩ := runs_call.mp h
        obtain _ | ⟨hcall, hserves⟩ := hserves
        exact runs_bind.mpr ⟨_, r, _, rfl, hcall, (ih r).mpr ⟨es, hrun, hserves⟩⟩

end Calls

end AegisCode.Program
