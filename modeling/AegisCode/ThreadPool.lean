import AegisCode.Interpretation

/-!
# Threads over one state

Threads run programs whose calls act on one shared state, one call at a time and in any
order. A contract says what every state keeps, what each thread leaves to the others, and
what a job may rely on when it starts. A program is safe if each call keeps the contract
whatever the others did before it.
-/
namespace AegisCode.ThreadPool

open Program Prog

variable {C : Type} {R : C → Type} {J S α : Type}

/-- A job stands for a program. Thread `i` of `n` may call `c` in a state, with an answer
and a state behind it; the call may start one more thread. -/
structure System (C : Type) (R : C → Type) (J S α : Type) where
  code : J → Prog C R α
  answers : ℕ → ℕ → S → (c : C) → R c → S → Prop
  starts : (c : C) → R c → Option J
  enters : J → Prop

/-- The threads by their numbers, each with its job and what is left to do of it. -/
structure Pool (C : Type) (R : C → Type) (J S α : Type) where
  state : S
  threads : List (J × Prog C R α)

/-- Thread `i`, of job `j`, has returned `a`. -/
def Pool.Returned (pool : Pool C R J S α) (i : ℕ) (j : J) (a : α) : Prop :=
  pool.threads[i]? = some (j, .ret a)

namespace System

variable (sys : System C R J S α)

/-- The new threads behind a call. -/
def started (c : C) (r : R c) : List (J × Prog C R α) :=
  (sys.starts c r).toList.map fun j => (j, sys.code j)

/-- One call of one thread, or a job from outside. -/
inductive Step : Pool C R J S α → Pool C R J S α → Prop where
  | call {pool : Pool C R J S α} {i : ℕ} {j : J} {c : C} {k : R c → Prog C R α} {r : R c} {s' : S}
      (hthread : pool.threads[i]? = some (j, .call c k))
      (hanswer : sys.answers i pool.threads.length pool.state c r s') :
      Step pool ⟨s', pool.threads.set i (j, k r) ++ sys.started c r⟩
  | enter {pool : Pool C R J S α} {j : J} (henters : sys.enters j) :
      Step pool ⟨pool.state, pool.threads ++ [(j, sys.code j)]⟩

abbrev Steps : Pool C R J S α → Pool C R J S α → Prop := Relation.ReflTransGen sys.Step

end System

/-! ## Contracts -/

structure Contract (J S : Type) where
  inv : S → Prop
  guar : ℕ → S → S → Prop
  pre : J → ℕ → S → Prop

namespace Contract

variable (ct : Contract J S)

/-- A call of another thread, seen from thread `i`. -/
def Other (i : ℕ) (s s' : S) : Prop := ct.inv s' ∧ ∃ j, j ≠ i ∧ ct.guar j s s'

/-- What may happen between two calls of thread `i`. -/
abbrev Rely (i : ℕ) : S → S → Prop := Relation.ReflTransGen (ct.Other i)

/-- The other threads do not make `A` false. -/
def Stable (i : ℕ) (A : S → Prop) : Prop :=
  ∀ s s' j, j ≠ i → ct.inv s' → ct.guar j s s' → A s → A s'

variable {ct}

theorem Stable.rely {i : ℕ} {A : S → Prop} {s s' : S} (h : ct.Stable i A) (hs : ct.Rely i s s')
    (hA : A s) : A s' := by
  induction hs with
  | refl => exact hA
  | tail _ hstep ih =>
      obtain ⟨hinv, j, hne, hguar⟩ := hstep
      exact h _ _ j hne hinv hguar ih

theorem Stable.and {i : ℕ} {A B : S → Prop} (hA : ct.Stable i A) (hB : ct.Stable i B) :
    ct.Stable i fun s => A s ∧ B s :=
  fun s s' j hne hinv hguar h => ⟨hA s s' j hne hinv hguar h.1, hB s s' j hne hinv hguar h.2⟩

theorem stable_const {i : ℕ} (P : Prop) : ct.Stable i fun _ => P := fun _ _ _ _ _ _ h => h

end Contract

/-! ## Safe programs -/

section Safe
variable (sys : System C R J S α) (ct : Contract J S) {β γ : Type} {i : ℕ} {s s' : S}

/-- What thread `i` owes for a call that led from `s` to `s'`. -/
structure Allowed (i n : ℕ) (s : S) (c : C) (r : R c) (s' : S) : Prop where
  inv : ct.inv s'
  guar : ct.guar i s s'
  starts : ∀ j, sys.starts c r = some j → ct.pre j n s'

/-- In state `s`, and whatever the others do from then on, each call of the program is
allowed, and `post` holds from its return on. -/
def Safe (i : ℕ) (post : β → S → Prop) : Prog C R β → S → Prop
  | .ret a => fun s => ∀ s', ct.Rely i s s' → ct.inv s' → post a s'
  | .call c k => fun s => ∀ s', ct.Rely i s s' → ct.inv s' → ∀ n r s'', i < n →
      sys.answers i n s' c r s'' → Allowed sys ct i n s' c r s'' ∧ Safe i post (k r) s''

/-- The programs of all jobs are safe. -/
structure Contract.Valid : Prop where
  enters : ∀ j n s, sys.enters j → ct.inv s → ct.pre j n s
  safe : ∀ j n s, ct.inv s → ct.pre j n s → Safe sys ct n (fun _ _ => True) (sys.code j) s

variable {sys ct} {post : β → S → Prop}

theorem Safe.rely {p : Prog C R β} (h : Safe sys ct i post p s) (hs : ct.Rely i s s') :
    Safe sys ct i post p s' := by
  cases p with
  | ret a => exact fun s'' hs'' hinv => h s'' (hs.trans hs'') hinv
  | call c k => exact fun s'' hs'' hinv => h s'' (hs.trans hs'') hinv

theorem safe_pure {a : β} (hstable : ct.Stable i (post a)) (h : post a s) :
    Safe sys ct i post (pure a) s :=
  fun _ hs _ => hstable.rely hs h

/-- A call from where `A` holds, which the others do not make false. -/
theorem safe_call {A : S → Prop} {c : C} {k : R c → Prog C R β} (hstable : ct.Stable i A)
    (h : ∀ s n r s', A s → ct.inv s → i < n → sys.answers i n s c r s' →
      Allowed sys ct i n s c r s' ∧ Safe sys ct i post (k r) s') (hA : A s) :
    Safe sys ct i post (.call c k) s :=
  fun s' hs hinv n r s'' hn hanswer => h s' n r s'' (hstable.rely hs hA) hinv hn hanswer

theorem Safe.bind {post' : γ → S → Prop} {p : Prog C R β} {f : β → Prog C R γ}
    (h : Safe sys ct i (fun a s => Safe sys ct i post' (f a) s) p s) (hinv : ct.inv s) :
    Safe sys ct i post' (p >>= f) s := by
  induction p generalizing s with
  | ret a => exact h s .refl hinv
  | call c k ih =>
      intro s' hs hinv' n r s'' hn hanswer
      obtain ⟨hallowed, hrest⟩ := h s' hs hinv' n r s'' hn hanswer
      exact ⟨hallowed, ih r hrest hallowed.inv⟩

theorem Safe.mono {post' : β → S → Prop} {p : Prog C R β}
    (hpost : ∀ a s, ct.inv s → post a s → post' a s) (h : Safe sys ct i post p s) :
    Safe sys ct i post' p s := by
  induction p generalizing s with
  | ret a => exact fun s' hs hinv => hpost a s' hinv (h s' hs hinv)
  | call c k ih =>
      intro s' hs hinv n r s'' hn hanswer
      obtain ⟨hallowed, hrest⟩ := h s' hs hinv n r s'' hn hanswer
      exact ⟨hallowed, ih r hrest⟩

/-- An exception of the first part skips the rest. -/
theorem Safe.except_bind {ε : Type} {post' : Except ε γ → S → Prop} {x : ExceptT ε (Prog C R) β}
    {f : β → ExceptT ε (Prog C R) γ}
    (h : Safe sys ct i (fun out s => (∀ a, out = .ok a → Safe sys ct i post' (f a).run s) ∧
      ∀ e, out = .error e → Safe sys ct i post' (pure (.error e)) s) x.run s)
    (hinv : ct.inv s) : Safe sys ct i post' (x >>= f).run s := by
  rw [ExceptT.run_bind]
  refine Safe.bind (h.mono fun out s _ hout => ?_) hinv
  cases out with
  | error e => exact hout.2 e rfl
  | ok a => exact hout.1 a rfl

/-- A program all of whose calls are allowed under an assertion they keep. -/
theorem safe_of_calls {A : S → Prop} {P : C → Prop} (hstable : ct.Stable i A)
    (hcalls : ∀ c, P c → ∀ s n r s', A s → ct.inv s → i < n → sys.answers i n s c r s' →
      Allowed sys ct i n s c r s' ∧ A s')
    {p : Prog C R β} (hp : AllCalls P p) (hA : A s) : Safe sys ct i (fun _ => A) p s := by
  induction p generalizing s with
  | ret a => exact fun s' hs _ => hstable.rely hs hA
  | call c k ih =>
      refine safe_call hstable (fun s n r s' hA hinv hn hanswer => ?_) hA
      obtain ⟨hallowed, hA'⟩ := hcalls c hp.1 s n r s' hA hinv hn hanswer
      exact ⟨hallowed, ih r (hp.2 r) hA'⟩

end Safe

/-! ## Runs of the pool -/

section Pool
variable {sys : System C R J S α} {ct : Contract J S} {pool pool' : Pool C R J S α}

/-- A thread behind a step: what was safe of it still is, or the step started it. -/
def Followed (sys : System C R J S α) (ct : Contract J S) (pool pool' : Pool C R J S α) (i : ℕ)
    (j : J) (p' : Prog C R α) : Prop :=
  (∃ p, pool.threads[i]? = some (j, p) ∧
    ∀ post, Safe sys ct i post p pool.state → Safe sys ct i post p' pool'.state) ∨
  (pool.threads.length ≤ i ∧ p' = sys.code j ∧ ct.pre j i pool'.state)

/-- The contract between the threads of a pool, and its invariant. -/
structure Pool.Safe (sys : System C R J S α) (ct : Contract J S) (pool : Pool C R J S α) :
    Prop where
  inv : ct.inv pool.state
  threads : ∀ i j p, pool.threads[i]? = some (j, p) →
    ThreadPool.Safe sys ct i (fun _ _ => True) p pool.state

/-- A thread number above the old ones is that of a new thread. -/
theorem getElem?_new {β : Type} {threads : List β} {x y : β} {i : ℕ}
    (hlen : threads.length ≤ i) (h : (threads ++ [x])[i]? = some y) :
    i = threads.length ∧ y = x := by
  rw [List.getElem?_append_right hlen] at h
  obtain ⟨hlt, heq⟩ := List.getElem?_eq_some_iff.mp h
  simp only [List.length_singleton] at hlt
  rw [List.getElem_singleton] at heq
  exact ⟨by omega, heq.symm⟩

/-- A step of a safe pool keeps the invariant and the guarantee of a thread, and leaves
each thread as safe as it was. -/
theorem Pool.Safe.step_spec (hvalid : ct.Valid sys) (h : Pool.Safe sys ct pool)
    (hstep : sys.Step pool pool') :
    ct.inv pool'.state ∧ (pool'.state = pool.state ∨ ∃ i, ct.guar i pool.state pool'.state) ∧
      ∀ i j p, pool'.threads[i]? = some (j, p) → Followed sys ct pool pool' i j p := by
  cases hstep with
  | @call i j c k r s' hthread hanswer =>
      have hlt := (List.getElem?_eq_some_iff.mp hthread).1
      obtain ⟨hallowed, -⟩ := h.threads i j _ hthread _ .refl h.inv _ r s' hlt hanswer
      refine ⟨hallowed.inv, .inr ⟨i, hallowed.guar⟩, fun i' j' p hmem => ?_⟩
      by_cases hold : i' < pool.threads.length
      · rw [List.getElem?_append_left (by rwa [List.length_set])] at hmem
        by_cases hself : i' = i
        · subst hself
          rw [List.getElem?_set_self hlt] at hmem
          cases hmem
          exact .inl ⟨_, hthread, fun post hsafe =>
            (hsafe _ .refl h.inv _ r s' hlt hanswer).2⟩
        · rw [List.getElem?_set_ne (Ne.symm hself)] at hmem
          have hother : ct.Other i' pool.state s' :=
            ⟨hallowed.inv, i, Ne.symm hself, hallowed.guar⟩
          exact .inl ⟨p, hmem, fun post hsafe => hsafe.rely (.single hother)⟩
      · right
        have hlen := not_lt.mp hold
        rw [System.started] at hmem
        cases hstarts : sys.starts c r with
        | none =>
            rw [hstarts] at hmem
            simp [hlen] at hmem
        | some j'' =>
            rw [hstarts] at hmem
            obtain ⟨hi, heq⟩ := getElem?_new (by simpa using hlen) hmem
            cases heq
            rw [List.length_set] at hi
            exact ⟨hlen, rfl, hi ▸ hallowed.starts _ hstarts⟩
  | @enter j henters =>
      refine ⟨h.inv, .inl rfl, fun i j' p hmem => ?_⟩
      by_cases hold : i < pool.threads.length
      · rw [List.getElem?_append_left hold] at hmem
        exact .inl ⟨p, hmem, fun post hsafe => hsafe⟩
      · obtain ⟨rfl, heq⟩ := getElem?_new (not_lt.mp hold) hmem
        cases heq
        exact .inr ⟨le_rfl, rfl, hvalid.enters _ _ _ henters h.inv⟩

theorem Pool.Safe.step (hvalid : ct.Valid sys) (h : Pool.Safe sys ct pool)
    (hstep : sys.Step pool pool') : Pool.Safe sys ct pool' := by
  obtain ⟨hinv, -, hthreads⟩ := h.step_spec hvalid hstep
  refine ⟨hinv, fun i j p hmem => ?_⟩
  obtain ⟨p₀, hold, hkeeps⟩ | ⟨-, rfl, hpre⟩ := hthreads i j p hmem
  · exact hkeeps _ (h.threads i j p₀ hold)
  · exact hvalid.safe j i _ hinv hpre

/-- If every thread keeps `A`, it holds in all later states, and the jobs that start from
then on may rely on it. -/
theorem Pool.Safe.steps (hvalid : ct.Valid sys) (h : Pool.Safe sys ct pool) {A : S → Prop}
    (hA : ∀ i s s', ct.inv s' → ct.guar i s s' → A s → A s') {post : J → α → S → Prop}
    (hjobs : ∀ j i s, ct.inv s → ct.pre j i s → A s → ThreadPool.Safe sys ct i (post j) (sys.code j) s)
    (h₀ : A pool.state) (hsteps : sys.Steps pool pool') :
    Pool.Safe sys ct pool' ∧ A pool'.state ∧ ∀ i j p, pool.threads.length ≤ i →
      pool'.threads[i]? = some (j, p) → ThreadPool.Safe sys ct i (post j) p pool'.state := by
  induction hsteps with
  | refl =>
      refine ⟨h, h₀, fun i j p hlen hmem => ?_⟩
      rw [List.getElem?_eq_none_iff.mpr hlen] at hmem
      cases hmem
  | @tail mid last hsteps hstep ih =>
      obtain ⟨hsafe, hmid, hlate⟩ := ih
      obtain ⟨hinv, hguar, hthreads⟩ := hsafe.step_spec hvalid hstep
      have hlast : A last.state := by
        obtain heq | ⟨i, hguar⟩ := hguar
        · rw [heq]
          exact hmid
        · exact hA i _ _ hinv hguar hmid
      refine ⟨hsafe.step hvalid hstep, hlast, fun i j p hlen hmem => ?_⟩
      obtain ⟨p₀, hold, hkeeps⟩ | ⟨-, rfl, hpre⟩ := hthreads i j p hmem
      · exact hkeeps _ (hlate i j p₀ hlen hold)
      · exact hjobs j i _ hinv hpre hlast

/-- A pool that has no threads yet is safe. -/
theorem Pool.safe_empty {s : S} (h : ct.inv s) : Pool.Safe sys ct ⟨s, []⟩ :=
  ⟨h, fun _ _ _ hmem => by cases hmem⟩

/-- What a thread promises for its return holds once it has returned. -/
theorem Safe.returned {post : α → S → Prop} {i : ℕ} {a : α} {s : S} (hinv : ct.inv s)
    (h : Safe sys ct i post (.ret a) s) : post a s :=
  h s .refl hinv

end Pool

end AegisCode.ThreadPool
