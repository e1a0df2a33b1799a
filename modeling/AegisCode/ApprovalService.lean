import AegisCode.Turn

/-!
# Approvals across threads

The asynchronous resolver and `decide`, step by step. What they share about one
approval id is a slot: the row, the entry of the id in the map of events, the
flag of that event, and where the resolver stands. The sections under the lock
are single steps; a `decide` that found the event sets it in a later step.
-/
namespace AegisCode.ApprovalService

open Program

inductive ApprovalState where
  | pending
  | approved
  | rejected
  deriving DecidableEq, Repr

def ApprovalState.value : ApprovalState → Str
  | .pending => "PENDING"
  | .approved => "APPROVED"
  | .rejected => "REJECTED"

/-- The state that `decide` writes. -/
def decision (approved : Bool) : ApprovalState := if approved then .approved else .rejected

/-- A row of `approval_requests`. -/
structure ApprovalRow where
  taskId : Str
  stepIndex : ℤ
  actionSnapshot : Json
  actionFingerprint : Str
  governanceDecision : Str
  triggeredRuleId : Str
  reason : Str
  riskExplanation : Str
  state : ApprovalState := .pending
  decidedBy : Option Str := none

/-- The row that a resolver inserts for an action. -/
def requestRow (H : Digest) (taskId : Str) (stepIndex : ℤ) (action : Action)
    (verdict : GovernanceVerdict) : ApprovalRow where
  taskId := taskId
  stepIndex := stepIndex
  actionSnapshot := .obj [("tool", .str action.tool), ("arguments", .obj action.arguments)]
  actionFingerprint := fingerprint H action
  governanceDecision := verdict.decision.value
  triggeredRuleId := verdict.ruleId
  reason := verdict.reason
  riskExplanation := verdict.reason

/-- Where the resolver of an approval stands: in `wait`; behind a wait that timed
out, before and after the row is written; behind a wait that was woken, before
and after the event is taken from the map; or back with its answer. -/
inductive Position where
  | waiting
  | expired
  | timedOut
  | woken
  | popped
  | returned (approved : Bool)
  deriving DecidableEq, Repr

structure Slot where
  row : Option ApprovalRow := none
  registered : Bool := false
  isSet : Bool := false
  /-- The calls of `decide` that found the event and have not set it yet. -/
  deciding : ℕ := 0
  resolver : Option Position := none

inductive Op where
  | register (row : ApprovalRow)
  | wake
  | expire
  | reject
  | pop
  | reread
  | decide (approved : Bool)
  | set

namespace Slot

/-- `update_state`: nothing happens without a row. -/
def updateState (s : Slot) (state : ApprovalState) (decidedBy : Str) : Slot :=
  { s with row := s.row.map fun row => { row with state := state, decidedBy := some decidedBy } }

section Fields
variable (s : Slot) (state : ApprovalState) (decidedBy : Str)

@[simp] theorem updateState_registered :
    (s.updateState state decidedBy).registered = s.registered := rfl
@[simp] theorem updateState_isSet : (s.updateState state decidedBy).isSet = s.isSet := rfl
@[simp] theorem updateState_deciding : (s.updateState state decidedBy).deciding = s.deciding := rfl
@[simp] theorem updateState_resolver : (s.updateState state decidedBy).resolver = s.resolver := rfl

end Fields

def step (s : Slot) : Op → Option Slot
  | .register row =>
    if s.row.isNone ∧ s.resolver.isNone ∧ row.state = .pending then
      some { s with row := some row, registered := true, resolver := some .waiting }
    else none
  | .wake =>
    if s.resolver = some .waiting ∧ s.isSet then some { s with resolver := some .woken } else none
  -- a wait whose event is set does not time out
  | .expire =>
    if s.resolver = some .waiting ∧ !s.isSet then some { s with resolver := some .expired } else none
  | .reject =>
    if s.resolver = some .expired then
      some { s.updateState .rejected "timeout" with resolver := some .timedOut }
    else none
  | .pop =>
    match s.resolver with
    | some .woken => some { s with registered := false, resolver := some .popped }
    | some .timedOut => some { s with registered := false, resolver := some (.returned false) }
    | _ => none
  | .reread =>
    match s.resolver, s.row with
    | some .popped, some row =>
      some { s with resolver := some (.returned (row.state = .approved)) }
    | _, _ => none
  | .decide approved =>
    some { s.updateState (decision approved) "service" with
      deciding := if s.registered then s.deciding + 1 else s.deciding }
  | .set =>
    if 0 < s.deciding then some { s with isSet := true, deciding := s.deciding - 1 } else none

end Slot

/-- The service: a slot for every id. -/
abbrev Service (Id : Type) := Id → Slot

/-- A step of the service happens in one slot. -/
def Service.step {Id : Type} [DecidableEq Id] : Service Id → Id × Op → Option (Service Id) :=
  onComponent Slot.step

/-! ## What a step does -/

/-- The steps from `s` to `s'`. -/
inductive Steps (s : Slot) : Op → Slot → Prop
  | register {row : ApprovalRow} : s.row = none → s.resolver = none → row.state = .pending →
      Steps s (.register row)
        { s with row := some row, registered := true, resolver := some .waiting }
  | wake : s.resolver = some .waiting → s.isSet = true →
      Steps s .wake { s with resolver := some .woken }
  | expire : s.resolver = some .waiting → s.isSet = false →
      Steps s .expire { s with resolver := some .expired }
  | reject : s.resolver = some .expired →
      Steps s .reject { s.updateState .rejected "timeout" with resolver := some .timedOut }
  | popWoken : s.resolver = some .woken →
      Steps s .pop { s with registered := false, resolver := some .popped }
  | popTimedOut : s.resolver = some .timedOut →
      Steps s .pop { s with registered := false, resolver := some (.returned false) }
  | reread {row : ApprovalRow} : s.resolver = some .popped → s.row = some row →
      Steps s .reread { s with resolver := some (.returned (row.state = .approved)) }
  | decideFound {approved : Bool} : s.registered = true →
      Steps s (.decide approved)
        { s.updateState (decision approved) "service" with deciding := s.deciding + 1 }
  | decideMissed {approved : Bool} : s.registered = false →
      Steps s (.decide approved) (s.updateState (decision approved) "service")
  | set : 0 < s.deciding → Steps s .set { s with isSet := true, deciding := s.deciding - 1 }

theorem step_cases {s s' : Slot} {op : Op} (h : s.step op = some s') : Steps s op s' := by
  cases op with
  | register row =>
    simp only [Slot.step, Option.ite_none_right_eq_some, Option.some.injEq] at h
    obtain ⟨⟨hrow, hres, hstate⟩, rfl⟩ := h
    exact .register (by simpa using hrow) (by simpa using hres) hstate
  | wake =>
    simp only [Slot.step, Option.ite_none_right_eq_some, Option.some.injEq] at h
    obtain ⟨⟨hres, hset⟩, rfl⟩ := h
    exact .wake hres hset
  | expire =>
    simp only [Slot.step, Option.ite_none_right_eq_some, Option.some.injEq] at h
    obtain ⟨⟨hres, hset⟩, rfl⟩ := h
    exact .expire hres (by simpa using hset)
  | reject =>
    simp only [Slot.step, Option.ite_none_right_eq_some, Option.some.injEq] at h
    obtain ⟨hres, rfl⟩ := h
    exact .reject hres
  | pop =>
    simp only [Slot.step] at h
    split at h
    · rename_i hres
      obtain rfl := Option.some.inj h
      exact .popWoken hres
    · rename_i hres
      obtain rfl := Option.some.inj h
      exact .popTimedOut hres
    · cases h
  | reread =>
    simp only [Slot.step] at h
    split at h
    · rename_i hres hrow
      obtain rfl := Option.some.inj h
      exact .reread hres hrow
    · cases h
  | decide approved =>
    simp only [Slot.step, Option.some.injEq] at h
    subst h
    by_cases hreg : s.registered = true
    · rw [if_pos hreg]
      exact .decideFound hreg
    · rw [if_neg hreg]
      exact .decideMissed (by simpa using hreg)
  | set =>
    simp only [Slot.step, Option.ite_none_right_eq_some, Option.some.injEq] at h
    obtain ⟨hdec, rfl⟩ := h
    exact .set hdec

/-! ## What every interleaving keeps -/

/-- Positions in which the event of the resolver is in the map. -/
def Position.holdsEvent : Position → Bool
  | .waiting | .expired | .timedOut | .woken => true
  | .popped | .returned _ => false

/-- The row is there and has left PENDING. -/
def Slot.Decided (s : Slot) : Prop := ∃ row, s.row = some row ∧ row.state ≠ .pending

structure Consistent (s : Slot) : Prop where
  registered_eq : s.registered = s.resolver.any Position.holdsEvent
  row_isSome : s.resolver.isSome → s.row.isSome
  isSet_of_woken : s.resolver = some .woken ∨ s.resolver = some .popped → s.isSet = true
  decided_of_isSet : s.isSet = true ∨ 0 < s.deciding → s.resolver.isSome ∧ s.Decided
  decided_of_returned : s.resolver = some .timedOut ∨ (∃ b, s.resolver = some (.returned b)) →
    s.Decided

/-- A slot that no resolver has used yet. -/
def idle (row : Option ApprovalRow) : Slot := { row := row }

theorem consistent_idle (row : Option ApprovalRow) : Consistent (idle row) := by
  constructor <;> simp [idle]

theorem decision_ne_pending (approved : Bool) : decision approved ≠ .pending := by
  cases approved <;> decide

/-- A write to a row that is there leaves a decided row. -/
theorem decided_updateState {s : Slot} {state : ApprovalState} (decidedBy : Str)
    (hrow : s.row.isSome) (hstate : state ≠ .pending) (s' : Slot)
    (hs' : s'.row = (s.updateState state decidedBy).row) : s'.Decided := by
  obtain ⟨row, hrow⟩ := Option.isSome_iff_exists.mp hrow
  refine ⟨{ row with state := state, decidedBy := some decidedBy }, ?_, hstate⟩
  rw [hs', Slot.updateState, hrow]
  rfl

theorem isSome_updateState {s : Slot} {state : ApprovalState} {decidedBy : Str} :
    (s.updateState state decidedBy).row.isSome = s.row.isSome := Option.isSome_map

theorem consistent_step {s s' : Slot} {op : Op} (hs : Consistent s) (h : s.step op = some s') :
    Consistent s' := by
  obtain ⟨hreg, hrow, hwoken, hset, hret⟩ := hs
  replace h := step_cases h
  cases h with
  | reject hres =>
    have hsome : s.row.isSome := hrow (by simp [hres])
    have hdec := decided_updateState "timeout" hsome
      (by decide : ApprovalState.rejected ≠ .pending)
    exact ⟨by simpa [hres, Position.holdsEvent] using hreg,
      fun _ => isSome_updateState.trans hsome, by simp, fun _ => ⟨rfl, hdec _ rfl⟩,
      fun _ => hdec _ rfl⟩
  | @decideFound approved hfound =>
    have hres : s.resolver.isSome := by
      rw [hfound] at hreg
      exact Option.isSome_of_any hreg.symm
    have hdec := decided_updateState "service" (hrow hres) (decision_ne_pending approved)
    exact ⟨hreg, fun h => isSome_updateState.trans (hrow h), hwoken,
      fun _ => ⟨hres, hdec _ rfl⟩, fun _ => hdec _ rfl⟩
  | @decideMissed approved hmissed =>
    have hdec := fun s' hres => decided_updateState "service" (hrow hres)
      (decision_ne_pending approved) s'
    refine ⟨hreg, fun h => isSome_updateState.trans (hrow h), hwoken,
      fun h => ⟨(hset h).1, hdec _ (hset h).1 rfl⟩, fun h => hdec _ ?_ rfl⟩
    obtain h | ⟨b, h⟩ := h <;> exact Option.isSome_of_mem h
  | register hnone hres hstate =>
    constructor <;> simp_all [Position.holdsEvent]
  | wake hres hflag =>
    constructor <;> simp_all [Position.holdsEvent, Slot.Decided]
  | expire hres hflag =>
    constructor <;> simp_all [Position.holdsEvent, Slot.Decided]
  | popWoken hres =>
    constructor <;> simp_all [Position.holdsEvent, Slot.Decided]
  | popTimedOut hres =>
    constructor <;> simp_all [Position.holdsEvent, Slot.Decided]
  | reread hres hrow' =>
    constructor <;> simp_all [Position.holdsEvent, Slot.Decided]
  | set hdec =>
    constructor <;> simp_all [Slot.Decided]

theorem consistent_of_execute {row : Option ApprovalRow} {ops : List Op} {s : Slot}
    (h : execute Slot.step (idle row) ops = some s) : Consistent s :=
  execute_invariant (I := fun _ => Consistent) (consistent_idle row)
    (fun _ _ _ _ hs hstep => consistent_step hs hstep) h

/-! ## What the history tells -/

def Op.decided? : Op → Option Bool
  | .decide approved => some approved
  | _ => none

/-- What the last `decide` said, early ones included. -/
def lastDecision (ops : List Op) : Option Bool := (ops.filterMap Op.decided?).getLast?

@[simp] theorem lastDecision_decide (ops : List Op) (approved : Bool) :
    lastDecision (ops ++ [.decide approved]) = some approved := by
  simp [lastDecision, Op.decided?]

theorem lastDecision_other {ops : List Op} {op : Op} (h : op.decided? = none) :
    lastDecision (ops ++ [op]) = lastDecision ops := by
  simp [lastDecision, h]

/-- The resolver has not written or returned anything yet. -/
def Position.undecided : Position → Bool
  | .waiting | .expired | .woken | .popped => true
  | .timedOut | .returned _ => false

/-- What has happened, read off the slot. -/
structure History (ops : List Op) (s : Slot) : Prop where
  register_mem : s.resolver.isSome ↔ ∃ row, .register row ∈ ops
  pop_mem : .pop ∈ ops ↔ s.resolver = some .popped ∨ ∃ b, s.resolver = some (.returned b)
  set_mem : s.isSet = true ↔ .set ∈ ops
  expire_mem : s.resolver = some .expired ∨ s.resolver = some .timedOut → .expire ∈ ops

/-- Until the resolver writes, a decided row shows the last decision. -/
def ShowsLast (ops : List Op) (s : Slot) : Prop :=
  s.resolver.any Position.undecided = true → ∀ row, s.row = some row → row.state ≠ .pending →
    (lastDecision ops).map decision = some row.state

/-- A resolver that did not time out returned what the last decision was when it
read the row. -/
def ReadsLast (ops : List Op) (s : Slot) : Prop :=
  ∀ b, s.resolver = some (.returned b) → .expire ∉ ops →
    ∃ pre post, ops = pre ++ .reread :: post ∧ lastDecision pre = some b

theorem history_idle (row : Option ApprovalRow) : History [] (idle row) := by
  constructor <;> simp [idle]

theorem history_step {ops : List Op} {s s' : Slot} {op : Op} (hs : History ops s)
    (h : s.step op = some s') : History (ops ++ [op]) s' := by
  obtain ⟨hreg, hpop, hset, hexp⟩ := hs
  replace h := step_cases h
  cases h <;> constructor <;> simp_all

theorem showsLast_step {ops : List Op} {s s' : Slot} {op : Op} (hs : ShowsLast ops s)
    (h : s.step op = some s') : ShowsLast (ops ++ [op]) s' := by
  have hsame : op.decided? = none → s.resolver.any Position.undecided = true →
      ∀ row, s.row = some row → row.state ≠ .pending →
        (lastDecision (ops ++ [op])).map decision = some row.state := by
    intro hop hres row hrow hstate
    rw [lastDecision_other hop]
    exact hs hres row hrow hstate
  cases step_cases h with
  | register hnone hres hstate =>
    intro _ row hrow hpend
    obtain rfl := Option.some.inj hrow
    exact absurd hstate hpend
  | wake hres hflag => exact fun _ => hsame rfl (by rw [hres]; rfl)
  | expire hres hflag => exact fun _ => hsame rfl (by rw [hres]; rfl)
  | popWoken hres => exact fun _ => hsame rfl (by rw [hres]; rfl)
  | set hdec => exact fun hres => hsame rfl hres
  | reject hres => exact fun hno => absurd hno Bool.false_ne_true
  | popTimedOut hres => exact fun hno => absurd hno Bool.false_ne_true
  | reread hres hrow => exact fun hno => absurd hno Bool.false_ne_true
  | decideFound hfound =>
    intro _ row hrow _
    obtain ⟨row', _, rfl⟩ := Option.map_eq_some_iff.mp hrow
    rw [lastDecision_decide]
    rfl
  | decideMissed hmissed =>
    intro _ row hrow _
    obtain ⟨row', _, rfl⟩ := Option.map_eq_some_iff.mp hrow
    rw [lastDecision_decide]
    rfl

theorem readsLast_step {ops : List Op} {s s' : Slot} {op : Op} (hc : Consistent s)
    (hh : History ops s) (hl : ShowsLast ops s) (hs : ReadsLast ops s)
    (h : s.step op = some s') : ReadsLast (ops ++ [op]) s' := by
  have hsame : ∀ b, s.resolver = some (.returned b) → .expire ∉ ops ++ [op] →
      ∃ pre post, ops ++ [op] = pre ++ .reread :: post ∧ lastDecision pre = some b := by
    intro b hres hexp
    obtain ⟨pre, post, rfl, hpre⟩ := hs b hres fun hmem => hexp (List.mem_append_left _ hmem)
    exact ⟨pre, post ++ [op], by simp, hpre⟩
  cases step_cases h with
  | register hnone hres hstate => rintro b ⟨⟩
  | wake hres hflag => rintro b ⟨⟩
  | expire hres hflag => rintro b ⟨⟩
  | reject hres => rintro b ⟨⟩
  | popWoken hres => rintro b ⟨⟩
  | popTimedOut hres =>
    intro b _ hexp
    exact absurd (List.mem_append_left _ (hh.expire_mem (.inr hres))) hexp
  | @reread row hres hrow =>
    rintro b hb _
    obtain ⟨_, row', hrow', hstate⟩ := hc.decided_of_isSet (.inl (hc.isSet_of_woken (.inr hres)))
    obtain rfl := Option.some.inj (hrow.symm.trans hrow')
    refine ⟨ops, [], rfl, ?_⟩
    obtain ⟨b', hb', hstate⟩ :=
      Option.map_eq_some_iff.mp (hl (by rw [hres]; rfl) row hrow hstate)
    obtain rfl : decide (row.state = .approved) = b := by simpa using hb
    rw [hb', ← hstate]
    cases b' <;> rfl
  | decideFound hfound => exact hsame
  | decideMissed hmissed => exact hsame
  | set hdec => exact hsame

/-- Everything above, for an interleaving from an unused slot. -/
theorem history_of_execute {row : Option ApprovalRow} {ops : List Op} {s : Slot}
    (h : execute Slot.step (idle row) ops = some s) :
    History ops s ∧ ShowsLast ops s ∧ ReadsLast ops s := by
  refine (execute_invariant (I := fun ops s =>
    Consistent s ∧ History ops s ∧ ShowsLast ops s ∧ ReadsLast ops s)
    ⟨consistent_idle row, history_idle row, ?_, ?_⟩ ?_ h).2
  · exact fun hno => absurd hno Bool.false_ne_true
  · rintro b ⟨⟩
  · rintro ops s op s' ⟨hc, hh, hl, hr⟩ hstep
    exact ⟨consistent_step hc hstep, history_step hh hstep, showsLast_step hl hstep,
      readsLast_step hc hh hl hr hstep⟩

/-! ## Where an approval comes from -/

/-- The row was inserted by its resolver, and a later decision approved it. -/
def ApprovedAfterInsert (ops : List Op) : Prop :=
  ∃ pre row post, ops = pre ++ .register row :: post ∧ .decide true ∈ post

theorem ApprovedAfterInsert.snoc {ops : List Op} (h : ApprovedAfterInsert ops) (op : Op) :
    ApprovedAfterInsert (ops ++ [op]) := by
  obtain ⟨pre, row, post, rfl, hdec⟩ := h
  exact ⟨pre, row, post ++ [op], by simp, List.mem_append_left _ hdec⟩

/-- What the row of a resolver tells about the past. -/
structure Provenance (ops : List Op) (s : Slot) : Prop where
  inserted : ∀ row, s.row = some row → s.resolver.isSome → ∃ row₀, .register row₀ ∈ ops ∧
    row.taskId = row₀.taskId ∧ row.actionFingerprint = row₀.actionFingerprint
  approved : ∀ row, s.row = some row → s.resolver.isSome → row.state = .approved →
    ApprovedAfterInsert ops
  returned : s.resolver = some (.returned true) → ApprovedAfterInsert ops

theorem provenance_step {ops : List Op} {s s' : Slot} {op : Op} (hh : History ops s)
    (hp : Provenance ops s) (h : s.step op = some s') : Provenance (ops ++ [op]) s' := by
  have hins : ∀ row, s.row = some row → s.resolver.isSome → ∃ row₀, .register row₀ ∈ ops ++ [op] ∧
      row.taskId = row₀.taskId ∧ row.actionFingerprint = row₀.actionFingerprint := by
    intro row hrow hres
    obtain ⟨row₀, hmem, hsame⟩ := hp.inserted row hrow hres
    exact ⟨row₀, List.mem_append_left _ hmem, hsame⟩
  have happ := fun row hrow hres hstate => (hp.approved row hrow hres hstate).snoc op
  have hret := fun hres => (hp.returned hres).snoc op
  -- a write keeps the task and the fingerprint of the row
  have hwrite : ∀ state by', s.resolver.isSome → ∀ row, (s.updateState state by').row = some row →
      (∃ row₀, .register row₀ ∈ ops ++ [op] ∧
        row.taskId = row₀.taskId ∧ row.actionFingerprint = row₀.actionFingerprint) ∧
      row.state = state := by
    intro state by' hres row hrow
    obtain ⟨row', hrow', rfl⟩ := Option.map_eq_some_iff.mp hrow
    exact ⟨hins row' hrow' hres, rfl⟩
  have hdecide : ∀ b, op = .decide b → decision b = .approved → s.resolver.isSome →
      ApprovedAfterInsert (ops ++ [op]) := by
    rintro b rfl hb hres
    obtain rfl : b = true := by cases b with
      | true => rfl
      | false => cases hb
    obtain ⟨row, hmem⟩ := hh.register_mem.mp hres
    obtain ⟨pre, post, rfl⟩ := List.append_of_mem hmem
    exact ⟨pre, row, post ++ [.decide true], by simp, by simp⟩
  cases step_cases h with
  | @register row hnone hres hstate =>
    refine ⟨?_, ?_, ?_⟩
    · rintro row' hrow _
      obtain rfl := Option.some.inj hrow
      exact ⟨row, by simp, rfl, rfl⟩
    · rintro row' hrow _ happroved
      obtain rfl := Option.some.inj hrow
      exact absurd (hstate.symm.trans happroved) (by decide)
    · rintro ⟨⟩
  | reject hres =>
    have hsome : s.resolver.isSome := by simp [hres]
    refine ⟨fun row hrow _ => (hwrite _ _ hsome row hrow).1, fun row hrow _ happroved => ?_, ?_⟩
    · exact absurd ((hwrite _ _ hsome row hrow).2.symm.trans happroved) (by decide)
    · rintro ⟨⟩
  | @reread row hres hrow =>
    have hsome : s.resolver.isSome := by simp [hres]
    refine ⟨fun row hrow _ => hins row hrow hsome, fun row hrow _ => happ row hrow hsome, ?_⟩
    intro hb
    exact happ row hrow hsome (by simpa using hb)
  | decideFound hfound =>
    exact ⟨fun row hrow hres => (hwrite _ _ hres row hrow).1,
      fun row hrow hres hstate => hdecide _ rfl ((hwrite _ _ hres row hrow).2.symm.trans hstate) hres,
      hret⟩
  | decideMissed hmissed =>
    exact ⟨fun row hrow hres => (hwrite _ _ hres row hrow).1,
      fun row hrow hres hstate => hdecide _ rfl ((hwrite _ _ hres row hrow).2.symm.trans hstate) hres,
      hret⟩
  | set hpos => exact ⟨hins, happ, hret⟩
  | wake hres _ =>
    have hsome : s.resolver.isSome := by simp [hres]
    exact ⟨fun row hrow _ => hins row hrow hsome, fun row hrow _ => happ row hrow hsome, by simp⟩
  | expire hres _ =>
    have hsome : s.resolver.isSome := by simp [hres]
    exact ⟨fun row hrow _ => hins row hrow hsome, fun row hrow _ => happ row hrow hsome, by simp⟩
  | popWoken hres =>
    have hsome : s.resolver.isSome := by simp [hres]
    exact ⟨fun row hrow _ => hins row hrow hsome, fun row hrow _ => happ row hrow hsome, by simp⟩
  | popTimedOut hres =>
    have hsome : s.resolver.isSome := by simp [hres]
    exact ⟨fun row hrow _ => hins row hrow hsome, fun row hrow _ => happ row hrow hsome, by simp⟩

theorem provenance_of_execute {row : Option ApprovalRow} {ops : List Op} {s : Slot}
    (h : execute Slot.step (idle row) ops = some s) : Provenance ops s := by
  refine (execute_invariant (I := fun ops s => History ops s ∧ Provenance ops s)
    ⟨history_idle row, ?_⟩ ?_ h).2
  · constructor <;> simp [idle]
  · rintro ops s op s' ⟨hh, hp⟩ hstep
    exact ⟨history_step hh hstep, provenance_step hh hp hstep⟩

/-! ## No lost wake-up -/

/-- Without a decision the resolver can only time out. -/
structure Quiet (s : Slot) : Prop where
  isSet_eq : s.isSet = false
  deciding_eq : s.deciding = 0
  rejected : s.resolver = some .timedOut ∨ (∃ b, s.resolver = some (.returned b)) →
    ∃ row, s.row = some row ∧ row.state = .rejected
  returned : ∀ b, s.resolver = some (.returned b) → b = false

theorem quiet_step {s s' : Slot} {op : Op} (hc : Consistent s) (hq : Quiet s)
    (hop : op.decided? = none) (h : s.step op = some s') : Quiet s' := by
  obtain ⟨hset, hdec, hrej, hret⟩ := hq
  have hwoken := hc.isSet_of_woken
  replace h := step_cases h
  cases h with
  | register hnone hres hstate => constructor <;> simp_all
  | wake hres hflag => exact absurd (hset.symm.trans hflag) Bool.false_ne_true
  | expire hres hflag => constructor <;> simp_all
  | reject hres =>
    obtain ⟨row, hrow⟩ := Option.isSome_iff_exists.mp (hc.row_isSome (by simp [hres]))
    refine ⟨hset, hdec, fun _ => ?_, by simp⟩
    exact ⟨{ row with state := .rejected, decidedBy := some "timeout" },
      by simp [Slot.updateState, hrow], rfl⟩
  | popWoken hres => exact absurd (hset.symm.trans (hwoken (.inl hres))) Bool.false_ne_true
  | popTimedOut hres => exact ⟨hset, hdec, fun _ => hrej (.inl hres), by simp⟩
  | reread hres hrow => exact absurd (hset.symm.trans (hwoken (.inr hres))) Bool.false_ne_true
  | decideFound hfound => cases hop
  | decideMissed hmissed => cases hop
  | set hpos => omega

theorem quiet_of_execute {row : Option ApprovalRow} {ops : List Op} {s : Slot}
    (h : execute Slot.step (idle row) ops = some s) (hnone : ∀ b, .decide b ∉ ops) : Quiet s := by
  suffices hgen : Consistent s ∧ ((∀ b, .decide b ∉ ops) → Quiet s) from hgen.2 hnone
  refine execute_invariant (I := fun ops s => Consistent s ∧ ((∀ b, .decide b ∉ ops) → Quiet s))
    ⟨consistent_idle row, fun _ => ?_⟩ ?_ h
  · constructor <;> simp [idle]
  · rintro ops s op s' ⟨hc, hq⟩ hstep
    refine ⟨consistent_step hc hstep, fun hnone => ?_⟩
    have hquiet := hq fun b hb => hnone b (List.mem_append_left _ hb)
    refine quiet_step hc hquiet ?_ hstep
    cases op with
    | decide b => exact absurd (List.mem_append_right ops (List.mem_singleton_self _)) (hnone b)
    | _ => rfl

/-- A set event stays set, and from then on the wait cannot time out. -/
theorem isSet_of_execute {s s' : Slot} {ops : List Op} (hset : s.isSet = true)
    (h : execute Slot.step s ops = some s') : s'.isSet = true ∧ .expire ∉ ops := by
  refine execute_invariant (I := fun ops s => s.isSet = true ∧ .expire ∉ ops)
    ⟨hset, List.not_mem_nil⟩ ?_ h
  rintro ops s op s' ⟨hset, hexp⟩ hstep
  replace hstep := step_cases hstep
  cases hstep <;> simp_all

/-- A decision that found the event has set it, or is about to. -/
theorem isSet_or_deciding {s s' : Slot} {ops : List Op} (hset : s.isSet = true ∨ 0 < s.deciding)
    (h : execute Slot.step s ops = some s') : s'.isSet = true ∨ 0 < s'.deciding := by
  refine execute_invariant (I := fun _ s => s.isSet = true ∨ 0 < s.deciding) hset ?_ h
  intro ops s op s' hset hstep
  cases step_cases hstep with
  | set hpos => exact .inl rfl
  | decideFound hfound => exact .inr (Nat.succ_pos _)
  | _ => exact hset

/-- A resolver whose event is set gets back without waiting for anybody. -/
theorem returns_of_isSet {s : Slot} (hc : Consistent s) {p : Position}
    (hres : s.resolver = some p) (hset : s.isSet = true)
    (hp : p ≠ .expired ∧ p ≠ .timedOut) :
    ∃ ops, ops <:+ [.wake, .pop, .reread] ∧ ∃ s' b,
      execute Slot.step s ops = some s' ∧ s'.resolver = some (.returned b) := by
  obtain ⟨row, hrow⟩ := Option.isSome_iff_exists.mp (hc.row_isSome (by simp [hres]))
  obtain ⟨_, _, _, _, _⟩ := s
  obtain rfl : _ = some row := hrow
  obtain rfl : _ = some p := hres
  obtain rfl : _ = true := hset
  cases p with
  | waiting => exact ⟨_, List.suffix_refl _, _, _, rfl, rfl⟩
  | woken => exact ⟨[.pop, .reread], ⟨[.wake], rfl⟩, _, _, rfl, rfl⟩
  | popped => exact ⟨[.reread], ⟨[.wake, .pop], rfl⟩, _, _, rfl, rfl⟩
  | returned b => exact ⟨[], List.nil_suffix, _, b, rfl, rfl⟩
  | expired => exact absurd rfl hp.1
  | timedOut => exact absurd rfl hp.2

/-- A resolver whose event is not set gets back when its wait times out. -/
theorem returns_of_quiet {s : Slot} (hc : Consistent s) {p : Position}
    (hres : s.resolver = some p) (hset : s.isSet = false) :
    ∃ ops, ops <:+ [.expire, .reject, .pop] ∧ ∃ s' b,
      execute Slot.step s ops = some s' ∧ s'.resolver = some (.returned b) := by
  have hwoken := hc.isSet_of_woken
  obtain ⟨_, _, _, _, _⟩ := s
  obtain rfl : _ = some p := hres
  obtain rfl : _ = false := hset
  cases p with
  | waiting => exact ⟨_, List.suffix_refl _, _, _, rfl, rfl⟩
  | expired => exact ⟨[.reject, .pop], ⟨[.expire], rfl⟩, _, _, rfl, rfl⟩
  | timedOut => exact ⟨[.pop], ⟨[.expire, .reject], rfl⟩, _, _, rfl, rfl⟩
  | returned b => exact ⟨[], List.nil_suffix, _, b, rfl, rfl⟩
  | woken => exact absurd (hwoken (.inl rfl)) Bool.false_ne_true
  | popped => exact absurd (hwoken (.inr rfl)) Bool.false_ne_true

/-- In every interleaving of a resolver with calls of `decide`: a decision between
the insert and the pop finds the event, and sets it; an event set before the wait
times out makes the resolver return what the last decision was when it read the
row; without any decision it returns False and the row is rejected. -/
theorem resolver_answers (ops : List Op) (s : Slot)
    (hrun : execute Slot.step (idle none) ops = some s) :
    (∀ pre row approved post, ops = pre ++ .decide approved :: post → .register row ∈ pre →
      .pop ∉ pre → ∃ s₁ s₂, execute Slot.step (idle none) pre = some s₁ ∧ s₁.registered = true ∧
        s₁.step (.decide approved) = some s₂ ∧ s₂.deciding = s₁.deciding + 1 ∧
        (0 < s.deciding → (s.step .set).isSome) ∧ (s.deciding = 0 → s.isSet = true)) ∧
    (∀ pre post, ops = pre ++ .set :: post → .expire ∉ pre →
      (∃ ops', ops' <:+ [.wake, .pop, .reread] ∧ ∃ s' b,
        execute Slot.step s ops' = some s' ∧ s'.resolver = some (.returned b)) ∧
      ∀ b, s.resolver = some (.returned b) →
        ∃ before after, ops = before ++ .reread :: after ∧ lastDecision before = some b) ∧
    ((∀ approved, .decide approved ∉ ops) → (∃ row, .register row ∈ ops) →
      (∃ ops', ops' <:+ [.expire, .reject, .pop] ∧ ∃ s' b,
        execute Slot.step s ops' = some s' ∧ s'.resolver = some (.returned b)) ∧
      ∀ b, s.resolver = some (.returned b) →
        b = false ∧ ∃ row, s.row = some row ∧ row.state = .rejected) := by
  have hc := consistent_of_execute hrun
  obtain ⟨hh, _, hreads⟩ := history_of_execute hrun
  refine ⟨?_, ?_, ?_⟩
  · rintro pre row approved post rfl hregister hpop
    rw [execute_append] at hrun
    obtain ⟨s₁, hpre, hrest⟩ := Option.bind_eq_some_iff.mp hrun
    obtain ⟨s₂, hdecide, hpost⟩ := Option.bind_eq_some_iff.mp hrest
    obtain ⟨hh₁, _, _⟩ := history_of_execute hpre
    have hfound : s₁.registered = true := by
      rw [(consistent_of_execute hpre).registered_eq]
      obtain ⟨p, hp⟩ := Option.isSome_iff_exists.mp (hh₁.register_mem.mpr ⟨row, hregister⟩)
      rw [hh₁.pop_mem, hp] at hpop
      rw [hp]
      cases p with
      | popped => exact absurd (.inl rfl) hpop
      | returned b => exact absurd (.inr ⟨b, rfl⟩) hpop
      | _ => rfl
    have hdec : s₂.deciding = s₁.deciding + 1 := by
      cases step_cases hdecide with
      | decideFound _ => rfl
      | decideMissed hmissed => exact absurd (hfound.symm.trans hmissed) Bool.false_ne_true.symm
    refine ⟨s₁, s₂, hpre, hfound, hdecide, hdec, fun hpos => by simp [Slot.step, hpos],
    fun hzero => ?_⟩
    obtain hset | hpos := isSet_or_deciding (.inr (by omega)) hpost
    · exact hset
    · omega
  · rintro pre post rfl hexp
    rw [execute_append] at hrun
    obtain ⟨s₁, hpre, hrest⟩ := Option.bind_eq_some_iff.mp hrun
    obtain ⟨s₂, hflag, hpost⟩ := Option.bind_eq_some_iff.mp hrest
    have hset₂ : s₂.isSet = true := by
      cases step_cases hflag
      rfl
    obtain ⟨hset, hexpost⟩ := isSet_of_execute hset₂ hpost
    have hexp : .expire ∉ pre ++ Op.set :: post := by simp [hexp, hexpost]
    obtain ⟨p, hp⟩ := Option.isSome_iff_exists.mp (hc.decided_of_isSet (.inl hset)).1
    refine ⟨returns_of_isSet hc hp hset ⟨?_, ?_⟩, fun b hb => hreads b hb hexp⟩
    · rintro rfl
      exact hexp (hh.expire_mem (.inl hp))
    · rintro rfl
      exact hexp (hh.expire_mem (.inr hp))
  · intro hnone hregister
    have hquiet := quiet_of_execute hrun hnone
    obtain ⟨p, hp⟩ := Option.isSome_iff_exists.mp (hh.register_mem.mpr hregister)
    exact ⟨returns_of_quiet hc hp hquiet.isSet_eq,
      fun b hb => ⟨hquiet.returned b hb, hquiet.rejected (.inr ⟨b, hb⟩)⟩⟩

/-! ## A decision in time -/

def sampleRow : ApprovalRow where
  taskId := "task"
  stepIndex := 0
  actionSnapshot := .obj [("tool", .str "run_tests"), ("arguments", .obj [])]
  actionFingerprint := "fp"
  governanceDecision := "REQUIRE_APPROVAL"
  triggeredRuleId := "ASK"
  reason := "needs a decision"
  riskExplanation := "needs a decision"

/-- An early decision, then one that the resolver waits for. -/
def decidedInTime : List Op :=
  [.decide false, .register sampleRow, .decide true, .set, .wake, .pop, .reread]

theorem resolver_answers_decidedInTime :
    ∃ before after, decidedInTime = before ++ .reread :: after ∧
      lastDecision before = some true :=
  ((resolver_answers decidedInTime _ rfl).2.1 [.decide false, .register sampleRow, .decide true]
    [.wake, .pop, .reread] rfl (by simp)).2 true rfl

end AegisCode.ApprovalService
