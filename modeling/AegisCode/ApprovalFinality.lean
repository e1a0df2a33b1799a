import AegisCode.ApprovalService

/-!
# When an approval is final

`update_state` overwrites whatever state a row is in. A row keeps its state, and
agrees with what its resolver returned, exactly when nothing is written over a
decided row but the state it has.
-/
namespace AegisCode.ApprovalService

open Program

/-- The step writes nothing new over a decided row. -/
def Slot.Admits (s : Slot) : Op → Prop
  | .decide approved => ∀ row, s.row = some row →
      row.state = .pending ∨ row.state = decision approved
  | .reject => ∀ row, s.row = some row → row.state = .pending ∨ row.state = .rejected
  | _ => True

/-- Every step of the interleaving writes nothing new over a decided row. -/
def Undisturbed (row₀ : Option ApprovalRow) (ops : List Op) : Prop :=
  ∀ pre op post s, ops = pre ++ op :: post → execute Slot.step (idle row₀) pre = some s →
    s.Admits op

/-- Once the row has left PENDING, its state does not change. -/
def RowFinal (row₀ : Option ApprovalRow) (ops : List Op) : Prop :=
  ∀ pre mid post s₁ s₂ row, ops = pre ++ (mid ++ post) →
    execute Slot.step (idle row₀) pre = some s₁ → execute Slot.step s₁ mid = some s₂ →
    s₁.row = some row → row.state ≠ .pending → ∃ row', s₂.row = some row' ∧ row'.state = row.state

/-- The state that the harness logs behind an answer of its resolver. Where it says
SUPERSEDED, `execute_approved` did, given the fingerprint of the judged action. -/
def LoggedAs (approved : Bool) (state : Str) : Prop :=
  ∀ (h : HarnessCore) ls verdict action t out action' verdict',
    h.Approves ls verdict action t out →
    (⟨.resolve action verdict, .ok (approved, action', verdict')⟩ : HarnessCore.Ev) ∈ t →
    ∀ taskId stepIndex payload,
      (⟨.append taskId stepIndex .approvalDecided payload, ()⟩ : HarnessCore.Ev) ∈ t →
      payload.get? "state" = some (.str state) ∨
        (payload.get? "state" = some (.str "SUPERSEDED") ∧ ∃ result left,
          (⟨.executeApproved action' (fingerprint h.sha256 action), .ok (result, left)⟩ :
            HarnessCore.Ev) ∈ t ∧ result.flagged "superseded" = true)

/-- Once the resolver has returned, the row agrees with its answer and with the
event that the harness logs. -/
def Agrees (row₀ : Option ApprovalRow) (ops : List Op) : Prop :=
  ∀ pre post s b, ops = pre ++ post → execute Slot.step (idle row₀) pre = some s →
    s.resolver = some (.returned b) →
    ∃ row, s.row = some row ∧ row.state = decision b ∧ LoggedAs b row.state.value

theorem loggedAs_decision (approved : Bool) : LoggedAs approved (decision approved).value := by
  intro h ls verdict action t out action' verdict' happ hres taskId stepIndex payload hlog
  cases happ with
  | noResolver _ => cases List.mem_singleton.mp hres
  | resolverRaised e => cases List.mem_singleton.mp hlog
  | rejected a v =>
    obtain hres | hres := List.mem_cons.mp hres
    · cases hres
      obtain hlog | hlog := List.mem_cons.mp hlog
      · cases hlog
      · cases List.mem_singleton.mp hlog
        exact .inl rfl
    · cases List.mem_singleton.mp hres
  | executionRaised a v e =>
    obtain hlog | hlog := List.mem_cons.mp hlog
    · cases hlog
    · cases List.mem_singleton.mp hlog
  | superseded a v result a' hsuperseded =>
    have hsaid : action' = a := by
      simp only [List.mem_cons, List.not_mem_nil, or_false] at hres
      obtain hres | hres | hres | hres := hres <;> cases hres
      rfl
    subst hsaid
    simp only [List.mem_cons, List.not_mem_nil, or_false] at hlog
    obtain hlog | hlog | hlog | hlog := hlog
    · cases hlog
    · cases hlog
    · cases hlog
      exact .inr ⟨rfl, result, a', by simp, hsuperseded⟩
    · cases hlog
  | approved a v result a' _ =>
    simp only [List.mem_cons, List.not_mem_nil, or_false] at hlog hres
    obtain hres | hres | hres := hres
    · cases hres
      obtain hlog | hlog | hlog := hlog
      · cases hlog
      · cases hlog
      · cases hlog
        exact .inl rfl
    · cases hres
    · cases hres

/-! ## One step -/

theorem state_of_admits {s s' : Slot} {op : Op} {row : ApprovalRow} (hadm : s.Admits op)
    (h : s.step op = some s') (hrow : s.row = some row) (hstate : row.state ≠ .pending) :
    ∃ row', s'.row = some row' ∧ row'.state = row.state := by
  cases step_cases h with
  | register hnone hres hpend => exact absurd (hnone.symm.trans hrow) (by simp)
  | reject hres =>
    refine ⟨_, by rw [Slot.updateState, hrow]; rfl, ?_⟩
    exact ((hadm row hrow).resolve_left hstate).symm
  | decideFound hfound =>
    refine ⟨_, by rw [Slot.updateState, hrow]; rfl, ?_⟩
    exact ((hadm row hrow).resolve_left hstate).symm
  | decideMissed hmissed =>
    refine ⟨_, by rw [Slot.updateState, hrow]; rfl, ?_⟩
    exact ((hadm row hrow).resolve_left hstate).symm
  | _ => exact ⟨row, hrow, rfl⟩

theorem admits_of_state {s s' : Slot} {op : Op} (h : s.step op = some s')
    (hkeep : ∀ row, s.row = some row → row.state ≠ .pending →
      ∃ row', s'.row = some row' ∧ row'.state = row.state) : s.Admits op := by
  have hwritten : ∀ state by', s'.row = (s.updateState state by').row → ∀ row, s.row = some row →
      row.state = .pending ∨ row.state = state := by
    intro state by' hs' row hrow
    by_cases hpend : row.state = .pending
    · exact .inl hpend
    · obtain ⟨row', hrow', hsame⟩ := hkeep row hrow hpend
      rw [hs', Slot.updateState, hrow] at hrow'
      obtain rfl := Option.some.inj hrow'
      exact .inr hsame.symm
  cases step_cases h with
  | reject hres => exact hwritten _ _ rfl
  | decideFound hfound => exact hwritten _ _ rfl
  | decideMissed hmissed => exact hwritten _ _ rfl
  | _ => trivial

/-! ## Interleavings -/

section Interleavings
variable {row₀ : Option ApprovalRow} {ops : List Op} {s : Slot}

theorem Undisturbed.left {ops' : List Op} (h : Undisturbed row₀ (ops ++ ops')) :
    Undisturbed row₀ ops := by
  rintro pre op post s rfl
  exact h pre op (post ++ ops') s (by simp)

theorem RowFinal.undisturbed (h : RowFinal row₀ ops)
    (hrun : execute Slot.step (idle row₀) ops = some s) : Undisturbed row₀ ops := by
  rintro pre op post s₁ rfl hpre
  rw [execute_append, hpre, Option.bind_some] at hrun
  obtain ⟨s₂, hop, _⟩ := Option.bind_eq_some_iff.mp hrun
  exact admits_of_state hop fun row => h pre [op] post s₁ s₂ row rfl hpre (by simp [execute, hop])

theorem Undisturbed.rowFinal (h : Undisturbed row₀ ops) : RowFinal row₀ ops := by
  rintro pre mid post s₁ s₂ row rfl hpre hmid hrow hstate
  induction mid using List.reverseRecOn generalizing post s₂ with
  | nil =>
    obtain rfl : s₁ = s₂ := by simpa [execute] using hmid
    exact ⟨row, hrow, rfl⟩
  | append_singleton mid op ih =>
    rw [execute_append] at hmid
    obtain ⟨s₃, h₃, hop⟩ := Option.bind_eq_some_iff.mp hmid
    simp only [execute, Option.bind_fun_some] at hop
    obtain ⟨row', hrow', hsame⟩ := ih (op :: post) s₃ (by simpa using h) h₃
    have hadm : s₃.Admits op := h (pre ++ mid) op post s₃ (by simp)
      (by rw [execute_append, hpre]; exact h₃)
    obtain ⟨row'', hrow'', hsame'⟩ := state_of_admits hadm hop hrow' (by rwa [hsame])
    exact ⟨row'', hrow'', hsame'.trans hsame⟩

/-- What the row of a resolver shows that has written or read it. -/
structure Settled (s : Slot) : Prop where
  timedOut : s.resolver = some .timedOut → ∃ row, s.row = some row ∧ row.state = .rejected
  returned : ∀ b, s.resolver = some (.returned b) → ∃ row, s.row = some row ∧ row.state = decision b

theorem settled_step {s' : Slot} {op : Op} (hc : Consistent s) (hs : Settled s)
    (hadm : s.Admits op) (h : s.step op = some s') : Settled s' := by
  have hkeep : ∀ state, state ≠ .pending → (∃ row, s.row = some row ∧ row.state = state) →
      ∃ row, s'.row = some row ∧ row.state = state := by
    rintro state hne ⟨row, hrow, rfl⟩
    exact state_of_admits hadm h hrow hne
  have hrejected := fun h => hkeep .rejected (by decide) (hs.timedOut h)
  have hreturned := fun b h => hkeep _ (decision_ne_pending b) (hs.returned b h)
  cases step_cases h with
  | reject hres =>
    obtain ⟨row, hrow⟩ := Option.isSome_iff_exists.mp (hc.row_isSome (by simp [hres]))
    refine ⟨fun _ => ⟨_, by rw [Slot.updateState, hrow]; rfl, rfl⟩, ?_⟩
    rintro b ⟨⟩
  | popTimedOut hres =>
    refine ⟨?_, ?_⟩
    · rintro ⟨⟩
    · rintro b ⟨⟩
      exact hs.timedOut hres
  | @reread row hres hrow =>
    refine ⟨?_, ?_⟩
    · rintro ⟨⟩
    · rintro b hb
      obtain ⟨_, row', hrow', hstate⟩ :=
        hc.decided_of_isSet (.inl (hc.isSet_of_woken (.inr hres)))
      obtain rfl := Option.some.inj (hrow.symm.trans hrow')
      refine ⟨row, hrow, ?_⟩
      obtain rfl : decide (row.state = .approved) = b := by simpa using hb
      cases hst : row.state with
      | pending => exact absurd hst hstate
      | approved => rfl
      | rejected => rfl
  | register _ _ _ => constructor <;> simp
  | wake _ _ => constructor <;> simp
  | expire _ _ => constructor <;> simp
  | popWoken _ => constructor <;> simp
  | decideFound _ => exact ⟨hrejected, hreturned⟩
  | decideMissed _ => exact ⟨hrejected, hreturned⟩
  | set _ => exact ⟨hrejected, hreturned⟩

theorem Undisturbed.settled (h : Undisturbed row₀ ops)
    (hrun : execute Slot.step (idle row₀) ops = some s) : Settled s := by
  suffices hgen : execute Slot.step (idle row₀) ops = some s ∧
      (Undisturbed row₀ ops → Consistent s ∧ Settled s) from (hgen.2 h).2
  refine execute_invariant (I := fun ops s => execute Slot.step (idle row₀) ops = some s ∧
      (Undisturbed row₀ ops → Consistent s ∧ Settled s)) ⟨rfl, fun _ => ?_⟩ ?_ hrun
  · exact ⟨consistent_idle row₀, by constructor <;> simp [idle]⟩
  · rintro ops s op s' ⟨hexec, hI⟩ hstep
    refine ⟨by rw [execute_append, hexec]; simp [execute, hstep], fun hund => ?_⟩
    obtain ⟨hc, hs⟩ := hI hund.left
    exact ⟨consistent_step hc hstep, settled_step hc hs (hund ops op [] s rfl hexec) hstep⟩

theorem Undisturbed.agrees (h : Undisturbed row₀ ops) : Agrees row₀ ops := by
  rintro pre post s b rfl hpre hres
  obtain ⟨row, hrow, hstate⟩ := (h.left.settled hpre).returned b hres
  exact ⟨row, hrow, hstate, by rw [hstate]; exact loggedAs_decision b⟩

end Interleavings

/-- In an interleaving of any number of resolvers with calls of `decide`, the rows
are final and agree with what the resolvers returned, exactly when no step writes
another state over a decided row. -/
theorem approvals_final_iff {Id : Type} [DecidableEq Id] (rows : Id → Option ApprovalRow)
    (ls : List (Id × Op)) (s : Service Id)
    (hrun : execute Service.step (fun id => idle (rows id)) ls = some s) :
    (∀ id, RowFinal (rows id) (stepsOf id ls) ∧ Agrees (rows id) (stepsOf id ls)) ↔
      ∀ id, Undisturbed (rows id) (stepsOf id ls) := by
  constructor
  · intro h id
    exact (h id).1.undisturbed (execute_onComponent hrun id)
  · intro h id
    exact ⟨(h id).rowFinal, (h id).agrees⟩

/-! ## A decision that comes late -/

/-- The approval is decided, the resolver returns, and then it is decided again. -/
def decidedTwice : List (Unit × Op) :=
  (decidedInTime ++ [Op.decide false]).map fun op => ((), op)

theorem decidedTwice_runs :
    ∃ s, execute Service.step (fun _ : Unit => idle none) decidedTwice = some s ∧
      (s ()).resolver = some (.returned true) ∧
      (s ()).row = some { sampleRow with state := .rejected, decidedBy := some "service" } :=
  ⟨_, rfl, rfl, rfl⟩

theorem approvals_final_iff_decidedTwice :
    (∀ id : Unit, RowFinal none (stepsOf id decidedTwice) ∧
        Agrees none (stepsOf id decidedTwice)) ↔
      ∀ id : Unit, Undisturbed none (stepsOf id decidedTwice) := by
  obtain ⟨s, hrun, _⟩ := decidedTwice_runs
  exact approvals_final_iff _ _ s hrun

/-- A late decision turns an approved and executed row into a rejected one. -/
theorem approvals_not_final :
    ¬ ∀ (rows : Unit → Option ApprovalRow) (ls : List (Unit × Op)) (s : Service Unit),
      execute Service.step (fun id => idle (rows id)) ls = some s →
      ∀ id, RowFinal (rows id) (stepsOf id ls) ∧ Agrees (rows id) (stepsOf id ls) := by
  intro h
  obtain ⟨s, hrun, hres, hrow⟩ := decidedTwice_runs
  obtain ⟨row, hrow', hstate, _⟩ := (h _ _ s hrun ()).2 _ [] _ true (List.append_nil _).symm
    (execute_onComponent hrun ()) hres
  obtain rfl := Option.some.inj (hrow.symm.trans hrow')
  cases hstate

end AegisCode.ApprovalService
