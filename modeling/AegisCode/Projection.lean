import AegisCode.ActionParser
import AegisCode.ApprovalService
import AegisCode.AuditChain
import AegisCode.Commands
import AegisCode.Completion

/-!
# Projections of the audit log

The steps table and the step index of an approval are read off the audit log of
the task. The log stores the type of an event as `str` gives it, with the name
of the class in front; both readers compare it with the plain value.
-/
namespace AegisCode

open Program
open Json (Decoder loads)

def EventType.value : EventType → Str
  | .actionProposed => "ACTION_PROPOSED"
  | .governanceDecision => "GOVERNANCE_DECISION"
  | .approvalRequested => "APPROVAL_REQUESTED"
  | .approvalDecided => "APPROVAL_DECIDED"
  | .toolExecuted => "TOOL_EXECUTED"
  | .feedback => "FEEDBACK"
  | .termination => "TERMINATION"

/-- `str` of a member: `Enum` comes before `str` in its classes. -/
def EventType.str (e : EventType) : Str := "EventType.".toList ++ e.value

/-! ## The readers -/

/-- The columns of `audit_events` that the readers select. -/
structure AuditRow where
  stepIndex : ℤ
  eventType : Str
  payloadJson : Str

/-- `latest_action_step_index`, over the rows of the task. -/
def latestActionStepIndex (rows : List AuditRow) : ℤ :=
  match (rows.filter fun row => row.eventType = "ACTION_PROPOSED".toList).getLast? with
  | some row => row.stepIndex
  | none => 0

structure StepEntry where
  action : Option Json := none
  governance : Option Json := none
  feedback : Option Json := none

/-- `step_map.setdefault(si, {})[...] = ...`. -/
def setEntry (stepMap : List (ℤ × StepEntry)) (si : ℤ) (f : StepEntry → StepEntry) :
    List (ℤ × StepEntry) :=
  match stepMap with
  | [] => [(si, f {})]
  | (k, entry) :: stepMap =>
      if k = si then (k, f entry) :: stepMap else (k, entry) :: setEntry stepMap si f

/-- The payload of a row; a text that is not JSON counts as the empty object. -/
def rowPayload (D : Decoder) (row : AuditRow) : Json := (loads D row.payloadJson).getD (.obj [])

def projectRow (D : Decoder) (stepMap : List (ℤ × StepEntry)) (row : AuditRow) :
    List (ℤ × StepEntry) :=
  let payload := rowPayload D row
  if row.eventType = EventType.actionProposed.value then
    setEntry stepMap row.stepIndex fun entry => { entry with action := some payload }
  else if row.eventType = EventType.governanceDecision.value then
    setEntry stepMap row.stepIndex fun entry => { entry with governance := some payload }
  else if row.eventType = EventType.feedback.value then
    setEntry stepMap row.stepIndex fun entry => { entry with feedback := some payload }
  else stepMap

/-- A row of `steps`. -/
structure StepRow where
  taskId : Str
  stepIndex : ℤ
  actionJson : Str
  governanceDecision : Json
  triggeredRuleId : Json
  toolResultJson : Str
  feedbackCategory : Json

/-- `v.get(key, default)`. -/
def Json.getField (v : Json) (key : Str) (default : Json) : Except Exn Json :=
  match v with
  | .obj ms => .ok ((Dict.get? ms key).getD default)
  | v => .error ⟨.attributeError, "'".toList ++ v.typeName ++ "' object has no attribute 'get'".toList⟩

/-- A value as a parameter of a statement: lists and objects have no column type. -/
def bindable (v : Json) : Except Exn Json :=
  match v with
  | .arr _ | .obj _ =>
      .error ⟨.other, "type '".toList ++ v.typeName ++ "' is not supported".toList⟩
  | v => .ok v

/-- The row that is inserted for an entry of the map. -/
def stepRow (taskId : Str) (si : ℤ) (entry : StepEntry) : Except Exn StepRow := do
  let action := entry.action.getD (.obj [])
  let gov := entry.governance.getD (.obj [])
  let feedback := entry.feedback.getD (.obj [])
  let governanceDecision ← gov.getField "decision" (.str [])
  let triggeredRuleId ← gov.getField "rule" .null
  let feedbackCategory ← feedback.getField "category" (.str [])
  return {
    taskId := taskId
    stepIndex := si
    actionJson := Json.dumps (Json.canon action)
    governanceDecision := ← bindable governanceDecision
    triggeredRuleId := ← bindable triggeredRuleId
    toolResultJson := "\x7b\x7d"
    feedbackCategory := ← bindable feedbackCategory }

/-- The rows inserted for the entries in order, and the number of them. -/
def insertSteps (taskId : Str) : List (ℤ × StepEntry) → Except Exn (List StepRow × ℕ)
  | [] => .ok ([], 0)
  | (si, entry) :: entries => do
      let row ← stepRow taskId si entry
      let (rows, stepCount) ← insertSteps taskId entries
      return (row :: rows, stepCount + 1)

/-- `_project_steps`: the rows it inserts and the step count it returns. -/
def projectSteps (D : Decoder) (taskId : Str) (rows : List AuditRow) :
    Except Exn (List StepRow × ℕ) :=
  insertSteps taskId ((rows.foldl (projectRow D) []).insertionSort fun a b => a.1 ≤ b.1)

namespace HarnessCore

/-! ## The writer -/

/-- The row of an event as the readers see it. -/
def auditRow (redact : Str → Str) (e : AuditEvent) : AuditRow where
  stepIndex := e.stepIndex
  eventType := e.eventType.str
  payloadJson := redact (Json.dumps (Json.canon (.obj e.payload)))

/-- The rows of a task behind the calls `t` of its run. -/
def auditRows (redact : Str → Str) (taskId : Str) (t : List Ev) : List AuditRow :=
  ((auditLog t).filter fun e => e.taskId = taskId).map (auditRow redact)

/-- The row of a request for approval that is raised behind the calls `t`. -/
def approvalRow (redact : Str → Str) (h : HarnessCore) (t : List Ev) (action : Action)
    (verdict : GovernanceVerdict) : ApprovalService.ApprovalRow :=
  ApprovalService.requestRow h.sha256 h.taskId
    (latestActionStepIndex (auditRows redact h.taskId t)) action verdict

/-- What the audit log appends is what the readers select later. -/
theorem table_of_append {H : Digest} {redact : Str → Str} {taskId timestamp : Str} {e : AuditEvent}
    {s s₁ s₂ : AuditChain.Writers}
    (hread : AuditChain.writerStep H redact s
      (.read taskId e.stepIndex e.eventType.str timestamp (.obj e.payload)) = some s₁)
    (hinsert : AuditChain.writerStep H redact s₁ (.insert taskId) = some s₂) :
    ∃ row, s₂.table = s.table ++ [(taskId, row)] ∧
      row.stepIndex = some (auditRow redact e).stepIndex ∧
      row.eventType = some (auditRow redact e).eventType ∧
      row.payloadJson = some (auditRow redact e).payloadJson := by
  simp only [AuditChain.writerStep] at hread
  split at hread
  · obtain rfl := Option.some.inj hread
    simp only [AuditChain.writerStep, Function.update_self] at hinsert
    split_ifs at hinsert
    obtain rfl := Option.some.inj hinsert
    exact ⟨_, rfl, rfl, rfl, rfl⟩
  · contradiction

/-! ## Agreement -/

/-- The step indices of the actions proposed in a log. -/
def proposedSteps (log : List AuditEvent) : List ℤ :=
  (log.filter fun e => e.eventType = .actionProposed).map fun e => e.stepIndex

/-- The payload stored with the last event of a type in a step. -/
def lastStored (D : Decoder) (redact : Str → Str) (log : List AuditEvent) (eventType : EventType)
    (si : ℤ) : Option Json :=
  (log.filter fun e => e.eventType = eventType ∧ (e.stepIndex : ℤ) = si).getLast?.map
    fun e => rowPayload D (auditRow redact e)

/-- A field of the last decision of a step; its default where none was stored. -/
def decidedField (D : Decoder) (redact : Str → Str) (log : List AuditEvent) (si : ℤ) (key : Str)
    (default : Json) : Json :=
  match lastStored D redact log .governanceDecision si with
  | some (.obj ms) => (Dict.get? ms key).getD default
  | _ => default

/-- One row for each step in which an action was proposed, with the last action,
decision and rule of the step. -/
structure StepsAgree (D : Decoder) (redact : Str → Str) (taskId : Str) (log : List AuditEvent)
    (rows : List StepRow) : Prop where
  one_each : ∀ si : ℤ, (rows.filter fun row => row.stepIndex = si).length =
    if si ∈ proposedSteps log then 1 else 0
  carries : ∀ row ∈ rows, row.taskId = taskId ∧
    (∃ action, lastStored D redact log .actionProposed row.stepIndex = some action ∧
      row.actionJson = Json.dumps (Json.canon action)) ∧
    row.governanceDecision = decidedField D redact log row.stepIndex "decision" (.str []) ∧
    row.triggeredRuleId = decidedField D redact log row.stepIndex "rule" .null

/-- The tables of the service agree with the audit log of the run `t`: the steps,
their number, and the step index of every approval that was asked for. -/
structure Agreement (D : Decoder) (redact : Str → Str) (h : HarnessCore) (t : List Ev) : Prop where
  steps : ∃ rows, projectSteps D h.taskId (auditRows redact h.taskId t) = .ok (rows, rows.length) ∧
    StepsAgree D redact h.taskId (auditLog t) rows
  approvals : ∀ u action verdict r v, t = u ++ ⟨.resolve action verdict, r⟩ :: v →
    (proposedSteps (auditLog u)).getLast? = some (approvalRow redact h u action verdict).stepIndex

/-! ## What the readers see -/

section
variable {D : Decoder} {redact : Str → Str} {h : HarnessCore} {t : List Ev}

theorem str_ne_value (e e' : EventType) : e.str ≠ e'.value := by
  cases e <;> cases e' <;> decide

/-- No row of the log has an event type that the projection knows. -/
theorem projectRow_auditRow (stepMap : List (ℤ × StepEntry)) (e : AuditEvent) :
    projectRow D stepMap (auditRow redact e) = stepMap := by
  simp only [projectRow, auditRow, str_ne_value, if_false]

theorem foldl_projectRow (log : List AuditEvent) (stepMap : List (ℤ × StepEntry)) :
    (log.map (auditRow redact)).foldl (projectRow D) stepMap = stepMap := by
  induction log with
  | nil => rfl
  | cons e log ih => rw [List.map_cons, List.foldl_cons, projectRow_auditRow, ih]

/-- Whatever was logged, no step is projected. -/
theorem projectSteps_auditRows (t : List Ev) :
    projectSteps D h.taskId (auditRows redact h.taskId t) = .ok ([], 0) := by
  rw [projectSteps, auditRows, foldl_projectRow]
  rfl

/-! ## When an action is proposed -/

/-- What the parser makes of an answer is logged as a proposed action. -/
def Proposes (parsed : Except Exn Action) : Prop :=
  match parsed with
  | .ok _ => True
  | .error exc => exc.kind = .actionParseError

def isProposal : Ev → Bool
  | ⟨.append _ _ .actionProposed _, _⟩ => true
  | _ => false

def isResolve : Ev → Bool
  | ⟨.resolve _ _, _⟩ => true
  | _ => false

/-- A call of a run in which nothing is proposed. -/
def Quiet (h : HarnessCore) (e : Ev) : Prop :=
  isProposal e = false ∧ isResolve e = false ∧
    ∀ messages raw, e = ⟨.complete messages, .ok raw⟩ → ¬ Proposes (h.parseAction raw)

/-- Something is proposed: the model's answer was read, and the log says so. -/
def Proposing (h : HarnessCore) (t : List Ev) : Prop :=
  (∃ e ∈ t, isProposal e = true) ∧
    ∃ messages raw, ⟨.complete messages, .ok raw⟩ ∈ t ∧ Proposes (h.parseAction raw)

theorem Proposing.mono {t' : List Ev} (hsub : t ⊆ t') (ht : Proposing h t) : Proposing h t' := by
  obtain ⟨⟨e, he, hprop⟩, messages, raw, hraw, hparse⟩ := ht
  exact ⟨⟨e, hsub he, hprop⟩, messages, raw, hsub hraw, hparse⟩

theorem Quiet.of_call {e : Ev} (hprop : isProposal e = false) (hres : isResolve e = false)
    (hcall : ∀ messages, e.call ≠ .complete messages) : Quiet h e := by
  refine ⟨hprop, hres, ?_⟩
  rintro messages raw rfl
  exact absurd rfl (hcall messages)

theorem quiet_opening (now : ℤ) : ∀ e ∈ h.opening now, Quiet h e := by
  unfold opening
  split <;> simp [Quiet, isProposal, isResolve]

theorem Retrieves.quiet {memories : List MemoryRow} (hr : h.Retrieves t memories) :
    ∀ e ∈ t, Quiet h e := by
  cases hr <;> simp [Quiet, isProposal, isResolve]

theorem quiet_stopped (c : LoopCounters) (reason : TerminationReason) :
    Quiet h (h.stopped c reason) :=
  Quiet.of_call rfl rfl nofun

/-- Only the last attempt is answered. -/
theorem Completes.quiet {messages : List Message} {n : ℕ} {out : Option Str}
    (hc : Completes messages n t out) (hout : ∀ raw ∈ out, ¬ Proposes (h.parseAction raw)) :
    ∀ e ∈ t, Quiet h e := by
  induction hc with
  | exhausted => exact List.forall_mem_nil _
  | answered n raw =>
    intro e he
    obtain rfl := List.mem_singleton.mp he
    refine ⟨rfl, rfl, ?_⟩
    rintro messages' raw' heq
    cases heq
    exact hout raw rfl
  | raised x _ ih =>
    intro e he
    obtain rfl | he := List.mem_cons.mp he
    · refine ⟨rfl, rfl, ?_⟩
      rintro messages' raw' heq
      cases heq
    · exact ih hout e he

/-- In the turn of an action the proposal is logged first. -/
theorem Acts.proposal_mem {s : LoopState} {action : Action} {out : Except Exn Outcome}
    (ha : h.Acts s action t out) : ∃ e ∈ t, isProposal e = true := by
  refine ⟨h.logged (afterParse s).c .actionProposed (proposedPayload action), ?_, rfl⟩
  cases ha <;> exact List.mem_cons_self

theorem Attempts.proposing_or_quiet {task : Str} {s : LoopState} {out : Except Exn Outcome}
    (ha : h.Attempts task s t out) : Proposing h t ∨ ∀ e ∈ t, Quiet h e := by
  cases ha with
  | memoryRaised e _ => exact .inr (by simp [Quiet, isProposal, isResolve])
  | llmError hr hc =>
    refine .inr (List.forall_mem_append.mpr ⟨hr.quiet, List.forall_mem_append.mpr ⟨?_, ?_⟩⟩)
    · exact hc.quiet nofun
    · simpa using quiet_stopped s.c .llmError
  | @unparsed memories tᵣ tₘ raw exc hr hc hparse hkind =>
    refine .inl ⟨⟨h.logged s.c .actionProposed (parseErrorPayload raw exc.text), ?_, rfl⟩,
      h.messages task s memories, raw, ?_, ?_⟩
    · exact List.mem_append_right _ (List.mem_append_right _ List.mem_cons_self)
    · exact List.mem_append_right _ (List.mem_append_left _ hc.answer_mem)
    · rw [hparse]
      exact hkind
  | parserRaised hr hc hparse hkind =>
    refine .inr (List.forall_mem_append.mpr ⟨hr.quiet, hc.quiet ?_⟩)
    intro raw hraw
    obtain rfl := Option.some.inj hraw
    rw [hparse]
    exact hkind
  | @acted memories tᵣ tₘ tₐ raw action out hr hc hparse ha =>
    obtain ⟨e, he, hprop⟩ := ha.proposal_mem
    refine .inl ⟨⟨e, ?_, hprop⟩, h.messages task s memories, raw, ?_, ?_⟩
    · exact List.mem_append_right _ (List.mem_append_right _ he)
    · exact List.mem_append_right _ (List.mem_append_left _ hc.answer_mem)
    · rw [hparse]
      exact trivial

/-- A turn either proposes something or has no call that tells of a proposal. -/
theorem turn_proposing_or_quiet {task : Str} {start : ℤ} {s : LoopState} {outcome : Outcome}
    (hrun : Runs (h.turn task start s) t outcome) : Proposing h t ∨ ∀ e ∈ t, Quiet h e := by
  have hclock : ∀ now : ℤ, Quiet h ⟨.monotonic, now⟩ := fun now => .of_call rfl rfl nofun
  cases turn_cases hrun with
  | limit now _ =>
    exact .inr (by simpa using ⟨hclock now, quiet_stopped s.c _⟩)
  | cancelled now _ _ =>
    have hcancel : Quiet h ⟨.cancelCheck, true⟩ := .of_call rfl rfl nofun
    exact .inr (by simpa using ⟨hclock now, hcancel, quiet_stopped s.c .cancelled⟩)
  | attempted now _ ha =>
    refine ha.proposing_or_quiet.imp (.mono (List.subset_append_right _ _)) fun hq => ?_
    exact List.forall_mem_append.mpr ⟨quiet_opening now, hq⟩
  | failed now e _ ha =>
    refine ha.proposing_or_quiet.imp (.mono ?_) fun hq => ?_
    · exact List.subset_append_of_subset_right _ (List.subset_append_left _ _)
    · refine List.forall_mem_append.mpr ⟨quiet_opening now, List.forall_mem_append.mpr ⟨hq, ?_⟩⟩
      simpa using quiet_stopped s.c .internalError

theorem run_proposing_or_quiet {task : Str} {fuel : ℕ}
    {out : Option (Except Exn TerminationReason)} (hrun : Runs (h.run fuel task) t out) :
    Proposing h t ∨ ∀ e ∈ t, Quiet h e := by
  obtain rfl | ⟨start, ts, rfl, hturn⟩ := run_turns hrun
  · exact .inr (List.forall_mem_nil _)
  · by_cases hall : ∀ u ∈ ts, ∀ e ∈ u, Quiet h e
    · refine .inr (List.forall_mem_cons.mpr ⟨.of_call rfl rfl nofun, ?_⟩)
      intro e he
      obtain ⟨u, hu, he⟩ := List.mem_flatten.mp he
      exact hall u hu e he
    · push Not at hall
      obtain ⟨u, hu, e, he, hloud⟩ := hall
      obtain ⟨s, outcome, hrun⟩ := hturn u hu
      obtain hprop | hq := turn_proposing_or_quiet hrun
      · exact .inl (hprop.mono fun e he =>
          List.mem_cons_of_mem _ (List.mem_flatten_of_mem hu he))
      · exact absurd (hq e he) hloud

/-! ## When the tables agree -/

theorem proposedSteps_append (log log' : List AuditEvent) :
    proposedSteps (log ++ log') = proposedSteps log ++ proposedSteps log' := by
  simp only [proposedSteps, List.filter_append, List.map_append]

theorem proposedSteps_auditEvent (e : Ev) :
    proposedSteps (auditEvent e).toList = [] ↔ isProposal e = false := by
  obtain ⟨c, r⟩ := e
  cases c with
  | append taskId stepIndex eventType payload =>
    cases eventType <;> simp [proposedSteps, auditEvent, isProposal]
  | _ => simp [proposedSteps, auditEvent, isProposal]

theorem proposedSteps_eq_nil : proposedSteps (auditLog t) = [] ↔ ∀ e ∈ t, isProposal e = false := by
  induction t with
  | nil => simp [proposedSteps]
  | cons e t ih =>
    rw [auditLog_cons, proposedSteps_append, List.append_eq_nil_iff, proposedSteps_auditEvent, ih,
      List.forall_mem_cons]

/-- With a proposal in the log, a row of the steps table is missing. -/
theorem Agreement.no_proposal (ha : Agreement D redact h t) : ∀ e ∈ t, isProposal e = false := by
  rw [← proposedSteps_eq_nil]
  obtain ⟨rows, hrows, hsteps⟩ := ha.steps
  rw [projectSteps_auditRows] at hrows
  obtain ⟨rfl, _⟩ := Prod.mk.inj (Except.ok.inj hrows)
  cases hlog : proposedSteps (auditLog t) with
  | nil => rfl
  | cons si sis =>
    have hone := hsteps.one_each si
    rw [hlog, if_pos List.mem_cons_self] at hone
    contradiction

theorem agreement_of_quiet (hq : ∀ e ∈ t, Quiet h e) : Agreement D redact h t := by
  refine ⟨⟨[], projectSteps_auditRows t, ?_, List.forall_mem_nil _⟩, ?_⟩
  · intro si
    rw [proposedSteps_eq_nil.mpr fun e he => (hq e he).1]
    rfl
  · rintro u action verdict r v rfl
    have hres := (hq ⟨.resolve action verdict, r⟩ (by simp)).2.1
    cases hres

end

/-- The tables agree with the log of a run exactly when no answer of the model
was read as an action or logged as a failed attempt at one. -/
theorem projections_agree_iff (D : Decoder) (redact : Str → Str) (h : HarnessCore) (fuel : ℕ)
    (task : Str) (t : List Ev) (out : Except Exn TerminationReason)
    (hrun : Runs (h.run fuel task) t (some out)) :
    Agreement D redact h t ↔ ∀ messages raw, ⟨.complete messages, .ok raw⟩ ∈ t →
      ¬ Proposes (h.parseAction raw) := by
  constructor
  · intro ha messages raw hraw hprop
    obtain ⟨⟨e, he, hloud⟩, _⟩ | hq := run_proposing_or_quiet hrun
    · rw [ha.no_proposal e he] at hloud
      contradiction
    · exact (hq _ hraw).2.2 messages raw rfl hprop
  · intro hnone
    obtain ⟨_, messages, raw, hraw, hprop⟩ | hq := run_proposing_or_quiet hrun
    · exact absurd hprop (hnone messages raw hraw)
    · exact agreement_of_quiet hq

theorem projections_agree_iff_finishing :
    Agreement quotedLibrary.toDecoder (fun s => s) finishingHarness finishingRun ↔
      ∀ messages raw, ⟨.complete messages, .ok raw⟩ ∈ finishingRun →
        ¬ Proposes (finishingHarness.parseAction raw) :=
  projections_agree_iff _ _ _ _ _ _ _ finishingRun_runs

/-- A run of one step: its action is in the log and in no row of the steps table. -/
theorem finishing_step_missing :
    Runs (finishingHarness.run 2 "fix the bug") finishingRun (some (.ok .completed)) ∧
      ¬ Agreement quotedLibrary.toDecoder (fun s => s) finishingHarness finishingRun := by
  refine ⟨finishingRun_runs, fun ha => ?_⟩
  have hnone := ha.no_proposal (finishingHarness.logged {} .actionProposed
    (proposedPayload { tool := "finish" })) (List.mem_of_getElem? (i := 3) rfl)
  cases hnone

end HarnessCore

end AegisCode
