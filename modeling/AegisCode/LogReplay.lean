import AegisCode.FeedbackRedaction
import AegisCode.Interpretation
import AegisCode.StepEvents

/-!
# Replaying the log

The audit log of a run is enough to follow its counters: a reader that has nothing but the
events tells at the head of every turn how many steps, failures, texts in a row that were
no action and repetitions the loop has counted, and so which reason could end the run
there. The clock is not in the log, so a timeout is taken at its word.
-/
namespace AegisCode.HarnessCore

open Program Prog

/-! ## Reading an event -/

/-- A member of the payload, if it is a string. -/
def AuditEvent.text (e : AuditEvent) (key : Str) : Option Str :=
  match e.payload.get? key with
  | some (.str s) => some s
  | _ => none

def decisions : List Decision := [.allow, .allowWithAudit, .requireApproval, .deny]

def AuditEvent.decision (e : AuditEvent) : Option Decision :=
  decisions.find? fun decision => e.text "decision" = some decision.value

def terminationReasons : List TerminationReason :=
  [.completed, .finishRejected, .maxSteps, .consecutiveFailures, .noProgress, .invalidActionLimit,
    .llmError, .internalError, .cancelled, .timeout]

def AuditEvent.reason (e : AuditEvent) : Option TerminationReason :=
  terminationReasons.find? fun reason => e.text "reason" = some reason.value

/-! ## The reader -/

/-- What the events so far lead the reader to expect. -/
inductive Phase where
  | between
  | unread
  | proposed
  | decided (decision : Decision)
  | superseded
  | approved
  | executed (finish : Bool)
  | ended (reason : TerminationReason)
  deriving DecidableEq

structure Replay where
  c : LoopCounters
  phase : Phase

/-- The reason that the counters give, whatever the clock says. -/
def countersReason (c : LoopCounters) (limits : Limits) : Option TerminationReason :=
  stopReasons.tail.find? (met limits c 0)

/-- The reason may end a run at the head of a turn. -/
def endsAtHead (limits : Limits) (c : LoopCounters) (reason : TerminationReason) : Prop :=
  reason = .timeout ∨ (reason ≠ .completed ∧ reason ≠ .finishRejected ∧
    countersReason c limits = if reason.preStep then some reason else none)

instance decidableEndsAtHead (limits : Limits) (c : LoopCounters) (reason : TerminationReason) :
    Decidable (endsAtHead limits c reason) := by
  unfold endsAtHead
  infer_instance

/-- The counters behind the feedback on an executed action that is not `finish`. -/
def afterFeedback (c : LoopCounters) (e : AuditEvent) : LoopCounters :=
  if e.text "detail" = some "NO_PROGRESS: repeated action detected".toList then
    { c with step := c.step + 1, noProgressHits := c.noProgressHits + 1 }
  else if e.text "category" = some "SUCCESS".toList then
    { c with step := c.step + 1, consecutiveFailures := 0 }
  else failStep c

namespace Replay

/-- The run ends, if the reason may stand here. -/
def stop (r : Replay) (e : AuditEvent) (possible : TerminationReason → Bool) : Option Replay :=
  (e.reason.filter possible).map fun reason => ⟨r.c, .ended reason⟩

def ofProposal (limits : Limits) (r : Replay) (e : AuditEvent) : Option Replay :=
  if countersReason r.c limits = none then
    if (e.payload.get? "error").isSome then
      some ⟨{ r.c with invalidActions := r.c.invalidActions + 1 }, .unread⟩
    else some ⟨{ r.c with invalidActions := 0 }, .proposed⟩
  else none

def ofApproval (r : Replay) (e : AuditEvent) : Replay :=
  if e.text "state" = some "APPROVED".toList then ⟨r.c, .approved⟩
  else if e.text "state" = some "SUPERSEDED".toList then ⟨r.c, .superseded⟩
  else ⟨failStep r.c, .between⟩

/-- A refusal, or a `finish` that was not verified. -/
def failed (r : Replay) : Option Replay := some ⟨failStep r.c, .between⟩

def ofExecution (r : Replay) (e : AuditEvent) : Option Replay :=
  some ⟨r.c, .executed (e.text "tool" = some "finish".toList)⟩

/-- The next event, wherever it stands. -/
def next (limits : Limits) (r : Replay) (e : AuditEvent) : Option Replay :=
  match r.phase with
  | .between =>
    match e.eventType with
    | .actionProposed => r.ofProposal limits e
    | .termination => r.stop e fun reason => endsAtHead limits r.c reason
    | _ => none
  | .unread => if e.eventType = .feedback then some ⟨r.c, .between⟩ else none
  | .proposed =>
    match e.eventType with
    | .governanceDecision => e.decision.map fun decision => ⟨r.c, .decided decision⟩
    | .termination => r.stop e fun reason => reason = .internalError
    | _ => none
  | .decided decision =>
    match e.eventType with
    | .approvalDecided => if decision = .requireApproval then some (r.ofApproval e) else none
    | .feedback => if decision = .deny then r.failed else none
    | .toolExecuted =>
      if decision = .allow ∨ decision = .allowWithAudit then r.ofExecution e else none
    | .termination => r.stop e fun reason => reason = .internalError
    | _ => none
  | .superseded => if e.eventType = .feedback then r.failed else none
  | .approved =>
    match e.eventType with
    | .feedback => r.failed
    | .toolExecuted => r.ofExecution e
    | _ => none
  | .executed finish =>
    match e.eventType with
    | .feedback => if finish then r.failed else some ⟨afterFeedback r.c e, .between⟩
    | .termination =>
      if finish then r.stop e fun reason => reason = .completed ∨ reason = .internalError else none
    | _ => none
  | .ended _ => none

/-- The next event, with its step: only the feedback on an executed action that is not
`finish` stands at the step behind it. -/
def event (limits : Limits) (r : Replay) (e : AuditEvent) : Option Replay :=
  (r.next limits e).filter fun r' =>
    e.stepIndex = if r.phase = .executed false then r'.c.step else r.c.step

def events (limits : Limits) (r : Replay) (log : List AuditEvent) : Option Replay :=
  log.foldlM (event limits) r

end Replay

/-- The log, read from its beginning. -/
def replay (limits : Limits) (log : List AuditEvent) : Option Replay :=
  Replay.events limits ⟨{}, .between⟩ log

section Reading
variable {h : HarnessCore} {limits : Limits} {c : LoopCounters} {r r' : Replay} {e : AuditEvent}
  {log log' : List AuditEvent}

theorem find_decision (decision : Decision) :
    (decisions.find? fun d => some decision.value = some d.value) = some decision := by
  cases decision <;> decide

theorem find_reason (reason : TerminationReason) :
    (terminationReasons.find? fun r => some reason.value = some r.value) = some reason := by
  cases reason <;> decide

/-- The event that ends a run at these counters. -/
def ending (h : HarnessCore) (c : LoopCounters) (reason : TerminationReason) : AuditEvent :=
  ⟨h.taskId, c.step, .termination, terminationPayload reason⟩

theorem reason_ending (reason : TerminationReason) : (h.ending c reason).reason = some reason :=
  find_reason reason

namespace Replay

@[simp] theorem events_cons :
    r.events limits (e :: log) = (r.event limits e).bind fun r' => r'.events limits log := rfl

theorem events_append : r.events limits (log ++ log') =
    (r.events limits log).bind fun r' => r'.events limits log' := List.foldlM_append

theorem event_of_next (hnext : r.next limits e = some r')
    (hstep : e.stepIndex = if r.phase = .executed false then r'.c.step else r.c.step) :
    r.event limits e = some r' := by
  rw [event, hnext]
  exact Option.filter_some_pos (decide_eq_true hstep)

/-- The usual event stands at the step of the reader. -/
theorem event_here {phase : Phase} (hnext : (Replay.mk c phase).next limits e = some r')
    (hphase : phase ≠ .executed false) (hstep : e.stepIndex = c.step) :
    (Replay.mk c phase).event limits e = some r' :=
  event_of_next hnext (by rwa [if_neg hphase])

theorem stop_ending {possible : TerminationReason → Bool} {reason : TerminationReason}
    (hpossible : possible reason = true) (phase : Phase) :
    (Replay.mk c phase).stop (h.ending c reason) possible = some ⟨c, .ended reason⟩ := by
  rw [stop, reason_ending, Option.filter_some_pos hpossible]
  rfl

end Replay

theorem decideTermination_eq_ite (c : LoopCounters) (limits : Limits) (elapsed : ℤ) :
    decideTermination c limits elapsed =
      if elapsed ≥ limits.wallClockTimeoutSec * 10 ^ 9 then some .timeout
      else countersReason c limits := by
  rw [decideTermination_eq, countersReason]
  have htail : stopReasons.tail.find? (met limits c elapsed) =
      stopReasons.tail.find? (met limits c 0) := rfl
  rw [← htail]
  by_cases htime : elapsed ≥ limits.wallClockTimeoutSec * 10 ^ 9
  · have hmet : met limits c elapsed .timeout = true := decide_eq_true htime
    rw [if_pos htime, stopReasons, List.find?_cons_of_pos hmet]
  · have hunmet : ¬ met limits c elapsed .timeout = true := by simpa [met] using htime
    rw [if_neg htime, stopReasons, List.find?_cons_of_neg hunmet]
    rfl

theorem countersReason_none {elapsed : ℤ} (hterm : decideTermination c limits elapsed = none) :
    countersReason c limits = none := by
  rw [decideTermination_eq_ite] at hterm
  split_ifs at hterm
  exact hterm

/-- The reason with which a run stops at a threshold is the one that the log gives. -/
theorem endsAtHead_of_threshold {elapsed : ℤ} {reason : TerminationReason}
    (hterm : decideTermination c limits elapsed = some reason) : endsAtHead limits c reason := by
  have hpre := decideTermination_preStep hterm
  rw [decideTermination_eq_ite] at hterm
  split_ifs at hterm
  · exact .inl (Option.some.inj hterm).symm
  · refine .inr ⟨?_, ?_, ?_⟩
    · rintro rfl
      cases hpre
    · rintro rfl
      cases hpre
    · rw [if_pos hpre, hterm]

theorem endsAtHead_of_none {reason : TerminationReason} (hnone : countersReason c limits = none)
    (hreason : reason = .cancelled ∨ reason = .llmError ∨ reason = .internalError) :
    endsAtHead limits c reason := by
  obtain rfl | rfl | rfl := hreason
  all_goals exact .inr ⟨nofun, nofun, hnone⟩

end Reading

/-! ## What an accepted log says -/

section Accepted
variable {limits : Limits} {c : LoopCounters} {r r' : Replay} {e : AuditEvent}
  {log : List AuditEvent} {reason : TerminationReason}

theorem Replay.next_of_event (h : r.event limits e = some r') : r.next limits e = some r' := by
  unfold Replay.event at h
  exact (Option.filter_eq_some_iff.mp h).1

theorem Replay.stop_cases {possible : TerminationReason → Bool}
    (h : r.stop e possible = some ⟨c, .ended reason⟩) : possible reason = true ∧ c = r.c := by
  unfold Replay.stop at h
  obtain ⟨reason', hreason, heq⟩ := Option.map_eq_some_iff.mp h
  cases heq
  exact ⟨(Option.filter_eq_some_iff.mp hreason).2, rfl⟩

/-- The reader stops at the head of a turn, or behind a proposal with one of two reasons. -/
theorem Replay.next_ended (h : r.next limits e = some ⟨c, .ended reason⟩) :
    (r.phase = .between ∧ c = r.c ∧ endsAtHead limits c reason) ∨
      reason = .completed ∨ reason = .internalError := by
  obtain ⟨c₀, phase⟩ := r
  cases phase with
  | between =>
    refine .inl ⟨rfl, ?_⟩
    cases htype : e.eventType with
    | termination =>
      simp only [Replay.next, htype] at h
      obtain ⟨hends, rfl⟩ := Replay.stop_cases h
      exact ⟨rfl, of_decide_eq_true hends⟩
    | actionProposed =>
      simp only [Replay.next, htype, Replay.ofProposal] at h
      split_ifs at h
      all_goals cases h
    | _ => simp [Replay.next, htype] at h
  | unread => simp [Replay.next] at h
  | proposed =>
    cases htype : e.eventType with
    | termination =>
      simp only [Replay.next, htype] at h
      exact .inr (.inr (of_decide_eq_true (Replay.stop_cases h).1))
    | _ => simp [Replay.next, htype] at h
  | decided decision =>
    cases htype : e.eventType with
    | termination =>
      simp only [Replay.next, htype] at h
      exact .inr (.inr (of_decide_eq_true (Replay.stop_cases h).1))
    | approvalDecided =>
      simp only [Replay.next, htype, Replay.ofApproval] at h
      split_ifs at h
      all_goals cases h
    | _ => simp [Replay.next, htype, Replay.failed, Replay.ofExecution] at h
  | superseded => simp [Replay.next, Replay.failed] at h
  | approved =>
    cases htype : e.eventType with
    | _ => simp [Replay.next, htype, Replay.failed, Replay.ofExecution] at h
  | executed finish =>
    cases htype : e.eventType with
    | termination =>
      simp only [Replay.next, htype] at h
      split_ifs at h
      exact .inr (of_decide_eq_true (Replay.stop_cases h).1)
    | feedback =>
      simp only [Replay.next, htype, Replay.failed] at h
      split_ifs at h
      all_goals cases h
    | _ => simp [Replay.next, htype] at h
  | ended reason' => simp [Replay.next] at h

theorem Replay.next_proposal (h : r.next limits e = some r') (htype : e.eventType = .actionProposed) :
    r.phase = .between ∧ countersReason r.c limits = none := by
  obtain ⟨c₀, phase⟩ := r
  cases phase with
  | between =>
    simp only [Replay.next, htype, Replay.ofProposal] at h
    by_cases hnone : countersReason c₀ limits = none
    · exact ⟨rfl, hnone⟩
    · rw [if_neg hnone] at h
      cases h
  | _ => simp [Replay.next, htype] at h

/-- An accepted log that ends with a threshold gives the counters that met it. -/
theorem replay_ended (h : replay limits log = some ⟨c, .ended reason⟩)
    (hpre : reason.preStep = true) :
    ∃ init e, log = init ++ [e] ∧ replay limits init = some ⟨c, .between⟩ ∧
      endsAtHead limits c reason := by
  obtain rfl | ⟨init, e, rfl⟩ := List.eq_nil_or_concat' log
  · cases h
  · rw [replay, Replay.events_append] at h
    obtain ⟨r, hinit, hlast⟩ := Option.bind_eq_some_iff.mp h
    obtain ⟨r', hevent, hend⟩ := Option.bind_eq_some_iff.mp hlast
    obtain rfl := Option.some.inj hend
    obtain ⟨hphase, rfl, hends⟩ | rfl | rfl := Replay.next_ended (Replay.next_of_event hevent)
    · refine ⟨init, e, rfl, ?_, hends⟩
      rw [← hphase]
      exact hinit
    · cases hpre
    · cases hpre

/-- Wherever an accepted log has a proposal, no threshold was met. -/
theorem replay_proposal {before after : List AuditEvent}
    (h : replay limits (before ++ e :: after) = some r) (htype : e.eventType = .actionProposed) :
    ∃ c, replay limits before = some ⟨c, .between⟩ ∧ countersReason c limits = none := by
  rw [replay, Replay.events_append] at h
  obtain ⟨r₀, hbefore, hrest⟩ := Option.bind_eq_some_iff.mp h
  obtain ⟨r₁, hevent, -⟩ := Option.bind_eq_some_iff.mp hrest
  obtain ⟨hphase, hnone⟩ := Replay.next_proposal (Replay.next_of_event hevent) htype
  refine ⟨r₀.c, ?_, hnone⟩
  rw [← hphase]
  exact hbefore

end Accepted

/-! ## One turn -/

/-- No result of these calls has the category `NO_PROGRESS`, which is for the loop. -/
def NoProgressFree (t : List Ev) : Prop :=
  ∀ e ∈ t, ∀ result, Answers e result → classify result ≠ some .noProgress

/-- The reader behind a verdict, or behind an approval. -/
inductive Ready : Phase → Gated → Prop
  | judged {verdict : GovernanceVerdict} {result : Option ToolResult} {action : Action} :
      verdict.decision ≠ .requireApproval →
      Ready (.decided verdict.decision) (verdict, result, action)
  | approved {verdict : GovernanceVerdict} {result : ToolResult} {action : Action} :
      Ready .approved (verdict, some result, action)

/-- The reader follows these events to what they came to: to the counters of the next turn,
or to the reason. An exception is followed by the end of the run. -/
def Tracks (h : HarnessCore) (limits : Limits) (r : Replay) (log : List AuditEvent) :
    Except Exn Outcome → Prop
  | .ok (.inl next) => r.events limits log = some ⟨next.c, .between⟩
  | .ok (.inr reason) => ∃ c, r.events limits log = some ⟨c, .ended reason⟩
  | .error _ => ∃ c, r.events limits (log ++ [h.ending r.c .internalError]) =
      some ⟨c, .ended .internalError⟩

section Turn
variable {h : HarnessCore} {limits : Limits} {task : Str} {start : ℤ} {s : LoopState}
  {t : List Ev} {c : LoopCounters} {r r' : Replay} {e : AuditEvent} {log : List AuditEvent}
  {phase : Phase}

theorem Tracks.append {log' : List AuditEvent} {out : Except Exn Outcome}
    (hevents : r.events limits log = some r') (hstep : r'.c.step = r.c.step)
    (htracks : h.Tracks limits r' log' out) : h.Tracks limits r (log ++ log') out := by
  match out, htracks with
  | .ok (.inl next), htracks =>
    change r.events limits (log ++ log') = _
    rw [Replay.events_append, hevents]
    exact htracks
  | .ok (.inr reason), ⟨c, htracks⟩ =>
    refine ⟨c, ?_⟩
    rw [Replay.events_append, hevents]
    exact htracks
  | .error exc, ⟨c, htracks⟩ =>
    refine ⟨c, ?_⟩
    have hending : h.ending r.c .internalError = h.ending r'.c .internalError := by
      rw [ending, ending, hstep]
    rw [List.append_assoc, Replay.events_append, hevents, hending]
    exact htracks

theorem Tracks.cons {out : Except Exn Outcome} (hevent : r.event limits e = some r')
    (hstep : r'.c.step = r.c.step) (htracks : h.Tracks limits r' log out) :
    h.Tracks limits r (e :: log) out := by
  have hevents : r.events limits [e] = some r' := by
    rw [Replay.events_cons, hevent]
    rfl
  exact htracks.append hevents hstep

theorem tracks_raised {exc : Exn}
    (hevent : r.event limits (h.ending r.c .internalError) = some ⟨c, .ended .internalError⟩) :
    h.Tracks limits r [] (.error exc) := by
  refine ⟨c, ?_⟩
  rw [List.nil_append, Replay.events_cons, hevent]
  rfl

theorem tracks_next {next : LoopState} (hevent : r.event limits e = some ⟨next.c, .between⟩) :
    h.Tracks limits r [e] (.ok (.inl next)) := by
  change r.events limits [e] = _
  rw [Replay.events_cons, hevent]
  rfl

theorem tracks_ended {reason : TerminationReason}
    (hevent : r.event limits e = some ⟨c, .ended reason⟩) :
    h.Tracks limits r [e] (.ok (.inr reason)) := by
  refine ⟨c, ?_⟩
  rw [Replay.events_cons, hevent]
  rfl

theorem Ready.refusal {verdict : GovernanceVerdict} {result : Option ToolResult} {action : Action}
    (hr : Ready phase (verdict, result, action)) (hdeny : verdict.decision = .deny)
    (hfeedback : e.eventType = .feedback) (hstep : e.stepIndex = c.step) :
    (Replay.mk c phase).event limits e = some ⟨failStep c, .between⟩ := by
  cases hr with
  | judged _ =>
    refine Replay.event_here ?_ nofun hstep
    simp only [Replay.next, hfeedback, hdeny]
    rfl
  | approved =>
    refine Replay.event_here ?_ nofun hstep
    simp only [Replay.next, hfeedback]
    rfl

theorem Ready.execution {verdict : GovernanceVerdict} {result : Option ToolResult} {action : Action}
    (hr : Ready phase (verdict, result, action)) (hdeny : verdict.decision ≠ .deny)
    (hexecuted : e.eventType = .toolExecuted) (hstep : e.stepIndex = c.step) :
    (Replay.mk c phase).event limits e =
      some ⟨c, .executed (e.text "tool" = some "finish".toList)⟩ := by
  cases hr with
  | judged hreq =>
    refine Replay.event_here ?_ nofun hstep
    simp only [Replay.next, hexecuted]
    exact if_pos (Decision.allow_or_audit hdeny hreq)
  | approved =>
    refine Replay.event_here ?_ nofun hstep
    simp only [Replay.next, hexecuted]
    rfl

/-- Where the loop may raise, the log may end. -/
theorem event_raised (hphase : phase = .proposed ∨ ∃ decision, phase = .decided decision) :
    (Replay.mk c phase).event limits (h.ending c .internalError) =
      some ⟨c, .ended .internalError⟩ := by
  obtain rfl | ⟨decision, rfl⟩ := hphase
  · exact Replay.event_here (Replay.stop_ending rfl _) nofun rfl
  · exact Replay.event_here (Replay.stop_ending rfl _) nofun rfl

/-- The loop and the reader count an executed action alike. -/
theorem afterFeedback_eq (c : LoopCounters) (noProgress : Bool) {failureCat : Option Category}
    {result : ToolResult} (hfree : failureCat ≠ some .noProgress) {e : AuditEvent}
    (hcategory : e.text "category" =
      some ((failureCat.map Category.value).getD "SUCCESS".toList))
    (hdetail : e.text "detail" =
      some (recordResult c noProgress (failureCat.map Category.value) result).2) :
    afterFeedback c e = (recordResult c noProgress (failureCat.map Category.value) result).1 := by
  unfold afterFeedback
  cases noProgress with
  | true => exact if_pos hdetail
  | false =>
    cases failureCat with
    | none =>
      have hrepeated : e.text "detail" ≠ some "NO_PROGRESS: repeated action detected".toList := by
        rw [hdetail]
        nofun
      rw [if_neg hrepeated]
      exact if_pos hcategory
    | some cat =>
      have hvalue : "NO_PROGRESS".toList ≠ cat.value := by
        cases cat
        all_goals first | decide | exact absurd rfl hfree
      have hrepeated : e.text "detail" ≠ some "NO_PROGRESS: repeated action detected".toList := by
        rw [hdetail]
        intro heq
        have hreport : "NO_PROGRESS".toList ++ ": ".toList ++ "repeated action detected".toList =
            formatFeedback cat.value result := (Option.some.inj heq).symm
        exact hvalue (report_eq (by decide) hreport).1
      have hsuccess : e.text "category" ≠ some "SUCCESS".toList := by
        rw [hcategory]
        cases cat <;> decide
      rw [if_neg hrepeated, if_neg hsuccess]
      rfl

theorem event_unverified {finish : Bool} (hfin : finish = true) (hfeedback : e.eventType = .feedback)
    (hstep : e.stepIndex = c.step) :
    (Replay.mk c (.executed finish)).event limits e = some ⟨failStep c, .between⟩ := by
  subst hfin
  refine Replay.event_here ?_ (by rintro ⟨⟩) hstep
  simp only [Replay.next, hfeedback]
  rfl

theorem event_finish {finish : Bool} (hfin : finish = true) {reason : TerminationReason}
    (hreason : reason = .completed ∨ reason = .internalError) :
    (Replay.mk c (.executed finish)).event limits (h.ending c reason) =
      some ⟨c, .ended reason⟩ := by
  subst hfin
  exact Replay.event_here (Replay.stop_ending (decide_eq_true hreason) _) (by rintro ⟨⟩) rfl

/-- Only this feedback stands at the step of the next turn. -/
theorem event_executed {finish : Bool} (hfin : finish = false) (hfeedback : e.eventType = .feedback)
    {c' : LoopCounters} (hstep : e.stepIndex = c'.step) (hcounts : afterFeedback c e = c') :
    (Replay.mk c (.executed finish)).event limits e = some ⟨c', .between⟩ := by
  subst hfin hcounts
  refine Replay.event_of_next ?_ (by rwa [if_pos rfl])
  simp only [Replay.next, hfeedback]
  rfl

theorem text_toolPayload {taskId : Str} {stepIndex : ℕ} {eventType : EventType} (action : Action)
    (result : ToolResult) : AuditEvent.text ⟨taskId, stepIndex, eventType,
      toolPayload action result⟩ "tool" = some action.tool := rfl

theorem Concludes.tracks {gated : Gated} {out : Except Exn Outcome}
    (hc : h.Concludes s gated t out) (hr : Ready phase gated)
    (hfree : ∀ result, gated.2.1 = some result → classify result ≠ some .noProgress) :
    h.Tracks limits ⟨s.c, phase⟩ (auditLog t) out := by
  cases hc with
  | denied hdeny => exact tracks_next (hr.refusal hdeny rfl rfl)
  | noResult exc =>
    cases hr with
    | judged _ =>
      exact tracks_raised (event_raised (.inr ⟨_, rfl⟩))
  | verifierRaised exc hdeny hfin =>
    refine Tracks.cons (hr.execution hdeny rfl rfl) rfl (tracks_raised (event_finish ?_ (.inr rfl)))
    rw [text_toolPayload, hfin]
    rfl
  | completed hdeny hfin =>
    refine Tracks.cons (hr.execution hdeny rfl rfl) rfl (tracks_ended (event_finish ?_ (.inl rfl)))
    rw [text_toolPayload, hfin]
    rfl
  | finishRejected hdeny hfin =>
    refine Tracks.cons (hr.execution hdeny rfl rfl) rfl (tracks_next (event_unverified ?_ rfl rfl))
    rw [text_toolPayload, hfin]
    rfl
  | @executed verdict result action hdeny hfin =>
    refine Tracks.cons (hr.execution hdeny rfl rfl) rfl (tracks_next (event_executed ?_ rfl rfl ?_))
    · rw [text_toolPayload]
      exact decide_eq_false fun heq => hfin (Option.some.inj heq)
    · exact afterFeedback_eq s.c _ (hfree result rfl) rfl rfl

theorem event_superseded (hfeedback : e.eventType = .feedback) (hstep : e.stepIndex = c.step) :
    (Replay.mk c .superseded).event limits e = some ⟨failStep c, .between⟩ :=
  Replay.event_here (if_pos hfeedback) nofun hstep

/-- What the branch of an approval leaves the reader with. -/
def TracksApproval (h : HarnessCore) (limits : Limits) (r : Replay) (log : List AuditEvent) :
    Except Exn (LoopState ⊕ Gated) → Prop
  | .ok (.inl next) => h.Tracks limits r log (.ok (.inl next))
  | .ok (.inr gated) => r.events limits log = some ⟨r.c, .approved⟩ ∧ Ready .approved gated
  | .error _ => log = []

theorem Approves.tracks {verdict : GovernanceVerdict} {action : Action}
    {out : Except Exn (LoopState ⊕ Gated)} (ha : h.Approves s verdict action t out) :
    h.TracksApproval limits ⟨s.c, .decided .requireApproval⟩ (auditLog t) out := by
  have hevent : ∀ {e : AuditEvent}, e.eventType = .approvalDecided → e.stepIndex = s.c.step →
      ∀ {r : Replay}, (Replay.mk s.c (.decided .requireApproval)).ofApproval e = r →
        (Replay.mk s.c (.decided .requireApproval)).event limits e = some r := by
    intro e hkind hstep r hr
    refine Replay.event_here ?_ nofun hstep
    simp only [Replay.next, hkind, if_true, hr]
  cases ha with
  | noResolver _ => exact tracks_next (h := h) (hevent rfl rfl rfl)
  | resolverRaised exc => rfl
  | rejected action' verdict' => exact tracks_next (h := h) (hevent rfl rfl rfl)
  | executionRaised action' verdict' exc => rfl
  | superseded action' verdict' result action'' hsup =>
    have happroval : (Replay.mk s.c (.decided .requireApproval)).event limits
        ⟨h.taskId, s.c.step, .approvalDecided, supersededPayload action'' result⟩ =
          some ⟨s.c, .superseded⟩ := hevent rfl rfl rfl
    exact Tracks.cons (h := h) happroval rfl (tracks_next (event_superseded rfl rfl))
  | approved action' verdict' result action'' hsup =>
    refine ⟨?_, .approved⟩
    have happroval : (Replay.mk s.c (.decided .requireApproval)).event limits
        ⟨h.taskId, s.c.step, .approvalDecided, approvalPayload action'' "APPROVED"⟩ =
          some ⟨s.c, .approved⟩ := hevent rfl rfl rfl
    change (Replay.event _ _ _).bind _ = _
    rw [happroval]
    rfl

theorem Approves.raises {verdict : GovernanceVerdict} {action : Action} {exc : Exn}
    (ha : h.Approves s verdict action t (.error exc)) : auditLog t = [] := by
  have htracks : h.TracksApproval h.config.limits _ (auditLog t) (.error exc) := ha.tracks
  exact htracks

theorem event_proposed {action : Action} (hnone : countersReason s.c limits = none) :
    (Replay.mk s.c .between).event limits
      ⟨h.taskId, s.c.step, .actionProposed, proposedPayload action⟩ =
        some ⟨(afterParse s).c, .proposed⟩ :=
  Replay.event_here (if_pos hnone) nofun rfl

theorem decision_decisionPayload {taskId : Str} {stepIndex : ℕ} {eventType : EventType}
    (action : Action) (verdict : GovernanceVerdict) :
    AuditEvent.decision ⟨taskId, stepIndex, eventType, decisionPayload action verdict⟩ =
      some verdict.decision := find_decision verdict.decision

theorem event_decided {action : Action} {verdict : GovernanceVerdict} :
    (Replay.mk c .proposed).event limits
      ⟨h.taskId, c.step, .governanceDecision, decisionPayload action verdict⟩ =
        some ⟨c, .decided verdict.decision⟩ := by
  refine Replay.event_here ?_ nofun rfl
  simp only [Replay.next, decision_decisionPayload, Option.map_some]

theorem Acts.tracks {action : Action} {out : Except Exn Outcome} (ha : h.Acts s action t out)
    (hnone : countersReason s.c limits = none) (hfree : NoProgressFree t) :
    h.Tracks limits ⟨s.c, .between⟩ (auditLog t) out := by
  cases ha with
  | dispatchRaised exc =>
    exact Tracks.cons (event_proposed hnone) rfl (tracks_raised (event_raised (.inl rfl)))
  | @judged verdict result action' t _ hdec hc =>
    refine Tracks.cons (event_proposed hnone) rfl (Tracks.cons event_decided rfl ?_)
    refine hc.tracks (.judged hdec) ?_
    rintro result rfl
    exact hfree _ (.tail _ (.head _)) result .dispatched
  | @approvalRaised verdict result action' t exc hdec ha =>
    refine Tracks.cons (event_proposed hnone) rfl (Tracks.cons event_decided rfl ?_)
    change h.Tracks limits _ (auditLog t) _
    rw [ha.raises]
    exact tracks_raised (event_raised (.inr ⟨_, rfl⟩))
  | unapproved hdec ha =>
    refine Tracks.cons (event_proposed hnone) rfl (Tracks.cons event_decided rfl ?_)
    rw [hdec]
    exact ha.tracks
  | @approved verdict result action' gated t₁ t₂ _ hdec ha hc =>
    refine Tracks.cons (event_proposed hnone) rfl (Tracks.cons event_decided rfl ?_)
    change h.Tracks limits _ (auditLog (t₁ ++ t₂)) _
    rw [hdec, auditLog_append]
    have happroval : h.TracksApproval limits _ _ _ := ha.tracks
    obtain ⟨hevents, hready⟩ := happroval
    refine Tracks.append hevents rfl (hc.tracks hready ?_)
    cases ha with
    | approved =>
      intro result hresult
      obtain rfl := Option.some.inj hresult
      exact hfree _ (.tail _ (.tail _ (.tail _ (List.mem_append_left _ (.tail _ (.head _)))))) _
        .approved

theorem event_head {reason : TerminationReason} (hends : endsAtHead limits c reason) :
    (Replay.mk c .between).event limits (h.ending c reason) = some ⟨c, .ended reason⟩ :=
  Replay.event_here (Replay.stop_ending (decide_eq_true hends) _) nofun rfl

theorem Attempts.tracks {out : Except Exn Outcome} (ha : h.Attempts task s t out)
    (hnone : countersReason s.c limits = none) (hfree : NoProgressFree t) :
    h.Tracks limits ⟨s.c, .between⟩ (auditLog t) out := by
  have hraised : (Replay.mk s.c .between).event limits (h.ending s.c .internalError) =
      some ⟨s.c, .ended .internalError⟩ :=
    event_head (endsAtHead_of_none hnone (.inr (.inr rfl)))
  cases ha with
  | memoryRaised exc _ => exact tracks_raised hraised
  | llmError hr hc =>
    rw [auditLog_append, hr.auditLog_eq, auditLog_append, hc.auditLog_eq]
    exact tracks_ended (event_head (endsAtHead_of_none hnone (.inr (.inl rfl))))
  | @unparsed memories tᵣ tₘ raw exc hr hc _ _ =>
    rw [auditLog_append, hr.auditLog_eq, auditLog_append, hc.auditLog_eq]
    have hunread : (Replay.mk s.c .between).event limits
        ⟨h.taskId, s.c.step, .actionProposed, parseErrorPayload raw exc.text⟩ =
          some ⟨{ s.c with invalidActions := s.c.invalidActions + 1 }, .unread⟩ :=
      Replay.event_here (if_pos hnone) nofun rfl
    exact Tracks.cons hunread rfl (tracks_next (Replay.event_here rfl nofun rfl))
  | parserRaised hr hc _ _ =>
    rw [auditLog_append, hr.auditLog_eq, hc.auditLog_eq]
    exact tracks_raised hraised
  | acted hr hc _ ha =>
    rw [auditLog_append, hr.auditLog_eq, auditLog_append, hc.auditLog_eq]
    refine ha.tracks hnone fun e he => hfree e ?_
    exact List.mem_append_right _ (List.mem_append_right _ he)

theorem turn_tracks {outcome : Outcome} (hrun : Runs (h.turn task start s) t outcome)
    (hfree : NoProgressFree t) :
    h.Tracks h.config.limits ⟨s.c, .between⟩ (auditLog t) (.ok outcome) := by
  cases turn_cases hrun with
  | limit now hterm => exact tracks_ended (event_head (endsAtHead_of_threshold hterm))
  | cancelled now hterm _ =>
    exact tracks_ended (event_head (endsAtHead_of_none (countersReason_none hterm) (.inl rfl)))
  | attempted now hterm ha =>
    rw [auditLog_append, auditLog_opening]
    refine ha.tracks (countersReason_none hterm) fun e he => hfree e ?_
    exact List.mem_append_right _ he
  | @failed t now exc hterm ha =>
    rw [auditLog_append, auditLog_opening, auditLog_append]
    refine ha.tracks (countersReason_none hterm) fun e he => hfree e ?_
    exact List.mem_append_right _ (List.mem_append_left _ he)

end Turn

/-! ## Whole runs -/

section Runs
variable {h : HarnessCore} {task : Str} {start : ℤ} {s : LoopState} {ts : List (List Ev)}

/-- At the head of every turn the log so far gives the counters of the loop. -/
theorem iterates_replay (hit : Iterates (h.turn task start) h.initialState ts s)
    (hfree : NoProgressFree ts.flatten) :
    replay h.config.limits (auditLog ts.flatten) = some ⟨s.c, .between⟩ := by
  have hreplay : NoProgressFree ts.flatten →
      replay h.config.limits (auditLog ts.flatten) = some ⟨s.c, .between⟩ := by
    refine hit.history (I := fun ts s => NoProgressFree ts.flatten →
      replay h.config.limits (auditLog ts.flatten) = some ⟨s.c, .between⟩) (fun _ => rfl) ?_
    intro ts s t s' ih hrun hfree
    rw [List.flatten_append, List.flatten_singleton] at hfree ⊢
    have hbefore := ih fun e he => hfree e (List.mem_append_left _ he)
    have hturn : h.Tracks h.config.limits ⟨s.c, .between⟩ (auditLog t) (.ok (.inl s')) :=
      turn_tracks hrun fun e he => hfree e (List.mem_append_right _ he)
    rw [replay] at hbefore ⊢
    rw [auditLog_append, Replay.events_append, hbefore]
    exact hturn
  exact hreplay hfree

theorem last_replay {last : List Ev} {reason : TerminationReason}
    (hit : Iterates (h.turn task start) h.initialState ts s)
    (hlast : Runs (h.turn task start s) last (.inr reason))
    (hfree : NoProgressFree (ts.flatten ++ last)) :
    ∃ c, replay h.config.limits (auditLog (ts.flatten ++ last)) = some ⟨c, .ended reason⟩ := by
  have hbefore := iterates_replay hit fun e he => hfree e (List.mem_append_left _ he)
  obtain ⟨c, hturn⟩ := turn_tracks hlast fun e he => hfree e (List.mem_append_right _ he)
  refine ⟨c, ?_⟩
  rw [replay] at hbefore ⊢
  rw [auditLog_append, Replay.events_append, hbefore]
  exact hturn

theorem auditLog_clock (now : ℤ) (t : List Ev) : auditLog (⟨.monotonic, now⟩ :: t) = auditLog t :=
  auditLog_cons _ t

/-- The log of a run that returns a reason is accepted with this reason. -/
theorem run_replay {fuel : ℕ} {tr : List Ev} {reason : TerminationReason}
    (hrun : Runs (h.run fuel task) tr (some (.ok reason))) (hfree : NoProgressFree tr) :
    ∃ c, replay h.config.limits (auditLog tr) = some ⟨c, .ended reason⟩ := by
  obtain ⟨start, s, ts, last, rfl, hit, hlast⟩ := run_returns hrun
  rw [auditLog_clock]
  exact last_replay hit hlast fun e he => hfree e (List.mem_cons_of_mem _ he)

theorem run_accepted {fuel : ℕ} {tr : List Ev} {out : Option (Except Exn TerminationReason)}
    (hrun : Runs (h.run fuel task) tr out) (hfree : NoProgressFree tr) :
    ∃ r, replay h.config.limits (auditLog tr) = some r := by
  obtain rfl | ⟨start, ts, s, hit, rfl | ⟨last, reason, rfl, hlast⟩⟩ := run_iterates hrun
  · exact ⟨_, rfl⟩
  · rw [auditLog_clock]
    exact ⟨_, iterates_replay hit fun e he => hfree e (List.mem_cons_of_mem _ he)⟩
  · rw [List.flatten_append, List.flatten_singleton] at hfree ⊢
    rw [auditLog_clock]
    obtain ⟨c, hlog⟩ := last_replay hit hlast fun e he => hfree e (List.mem_cons_of_mem _ he)
    exact ⟨_, hlog⟩

/-- An answer to every call that brings no result. -/
def unanswered : (c : Call) → Resp c
  | .monotonic => 0
  | .cancelCheck => false
  | .retrieve | .complete _ | .dispatch _ | .resolve _ _ | .executeApproved _ _ | .verify =>
    .error ⟨.other, []⟩
  | .append _ _ _ _ => ()

/-- A run that is under way can be ended without a further result. -/
theorem exists_run_of_reaches {fuel : ℕ} {tr : List Ev}
    {q : Prog Call Resp (Option (Except Exn TerminationReason))}
    (hreach : Reaches (h.run fuel task) tr q) (hfree : NoProgressFree tr) :
    ∃ tr' out, Runs (h.run fuel task) (tr ++ tr') out ∧ NoProgressFree (tr ++ tr') := by
  obtain ⟨tr', out, hrun, hanswers⟩ := hreach.exists_answered unanswered
  refine ⟨tr', out, hrun, fun e he result hresult => ?_⟩
  obtain he | he := List.mem_append.mp he
  · exact hfree e he result hresult
  · have hanswer := hanswers e he
    cases hresult with
    | dispatched => cases hanswer
    | approved => cases hanswer

/-- So is the log of a run that is under way. -/
theorem reaches_accepted {fuel : ℕ} {tr : List Ev}
    {q : Prog Call Resp (Option (Except Exn TerminationReason))}
    (hreach : Reaches (h.run fuel task) tr q) (hfree : NoProgressFree tr) :
    ∃ r, replay h.config.limits (auditLog tr) = some r := by
  obtain ⟨tr', out, hrun, hfree'⟩ := exists_run_of_reaches hreach hfree
  obtain ⟨r, hall⟩ := run_accepted hrun hfree'
  rw [replay, auditLog_append, Replay.events_append] at hall
  obtain ⟨r', hlog, -⟩ := Option.bind_eq_some_iff.mp hall
  exact ⟨r', hlog⟩

end Runs

end AegisCode.HarnessCore
