import AegisCode.Bounds

/-!
# How a run ends

Whatever the collaborators answer, a run returns a reason, the last event of its
audit log is the one TERMINATION event and carries that reason, and the reason
is COMPLETED only behind an executed `finish` that the verifier accepted.
-/
namespace AegisCode.HarnessCore

open Program

/-! ## The audit log of a run -/

structure AuditEvent where
  taskId : Str
  stepIndex : ℕ
  eventType : EventType
  payload : Dict

def auditEvent (e : Ev) : Option AuditEvent :=
  match e.call with
  | .append taskId stepIndex eventType payload => some ⟨taskId, stepIndex, eventType, payload⟩
  | _ => none

def auditLog (t : List Ev) : List AuditEvent := t.filterMap auditEvent

/-- No event of the log says that the run has ended. -/
def Open (log : List AuditEvent) : Prop := ∀ e ∈ log, e.eventType ≠ .termination

variable (h : HarnessCore)

/-- The log ends with its only TERMINATION event, which carries the reason. -/
def Closed (log : List AuditEvent) (reason : TerminationReason) : Prop :=
  ∃ init stepIndex, Open init ∧
    log = init ++ [⟨h.taskId, stepIndex, .termination, terminationPayload reason⟩]

/-- What a part of a turn leaves in the log, by how it came out. -/
def Reported (log : List AuditEvent) : Except Exn Outcome → Prop
  | .ok (.inr reason) => h.Closed log reason
  | _ => Open log

/-! ## Completion -/

/-- The turn executed the parsed action, which by then was `action`. -/
inductive Executes (t : List Ev) (parsed : Action) : Action → Prop
  | judged {verdict : GovernanceVerdict} {result : ToolResult} {action : Action} :
      ⟨.dispatch parsed, .ok (verdict, some result, action)⟩ ∈ t →
      verdict.decision ≠ .deny → verdict.decision ≠ .requireApproval → Executes t parsed action
  | approved {verdict verdict' : GovernanceVerdict} {result : Option ToolResult}
      {result' : ToolResult} {action action' action'' : Action} {fp : Str} :
      ⟨.dispatch parsed, .ok (verdict, result, action)⟩ ∈ t →
      verdict.decision = .requireApproval →
      ⟨.resolve action verdict, .ok (true, action', verdict')⟩ ∈ t →
      verdict'.decision ≠ .deny →
      ⟨.executeApproved action' fp, .ok (result', action'')⟩ ∈ t →
      result'.flagged "superseded" = false → Executes t parsed action''

/-- In this turn a parsed `finish` was executed and the final verifier said yes. -/
def FinishVerified (t : List Ev) : Prop :=
  ∃ messages raw parsed action, ⟨.complete messages, .ok raw⟩ ∈ t ∧
    h.parseAction raw = .ok parsed ∧ Executes t parsed action ∧ action.tool = "finish" ∧
    ⟨.verify, .ok true⟩ ∈ t

section Log
variable {h : HarnessCore} {task : Str} {start : ℤ} {s : LoopState} {t : List Ev}

@[simp] theorem auditLog_nil : auditLog [] = [] := rfl

@[simp] theorem auditLog_cons (e : Ev) (t : List Ev) :
    auditLog (e :: t) = (auditEvent e).toList ++ auditLog t := by
  unfold auditLog
  rw [List.filterMap_cons]
  cases auditEvent e <;> rfl

theorem auditLog_append (t t' : List Ev) : auditLog (t ++ t') = auditLog t ++ auditLog t' :=
  List.filterMap_append ..

theorem open_nil : Open [] := List.forall_mem_nil _

@[simp] theorem open_cons {e : AuditEvent} {log : List AuditEvent} :
    Open (e :: log) ↔ e.eventType ≠ .termination ∧ Open log := List.forall_mem_cons

theorem Open.append {log log' : List AuditEvent} (hl : Open log) (hl' : Open log') :
    Open (log ++ log') := by
  intro e he
  obtain he | he := List.mem_append.mp he
  · exact hl e he
  · exact hl' e he

theorem Closed.of_open {log log' : List AuditEvent} {reason : TerminationReason}
    (hl : Open log) (hl' : h.Closed log' reason) : h.Closed (log ++ log') reason := by
  obtain ⟨init, stepIndex, hinit, rfl⟩ := hl'
  exact ⟨log ++ init, stepIndex, hl.append hinit, by rw [List.append_assoc]⟩

theorem Reported.append {t t' : List Ev} {out : Except Exn Outcome} (hl : Open (auditLog t))
    (hl' : h.Reported (auditLog t') out) : h.Reported (auditLog (t ++ t')) out := by
  rw [auditLog_append]
  match out, hl' with
  | .error _, hl' => exact hl.append hl'
  | .ok (.inl _), hl' => exact hl.append hl'
  | .ok (.inr _), hl' => exact Closed.of_open hl hl'

theorem Reported.cons {e : Ev} {out : Except Exn Outcome} (he : Open (auditEvent e).toList)
    (hl : h.Reported (auditLog t) out) : h.Reported (auditLog (e :: t)) out := by
  rw [← List.singleton_append]
  exact Reported.append (by simpa using he) hl

theorem closed_stopped (c : LoopCounters) (reason : TerminationReason) :
    h.Closed (auditLog [h.stopped c reason]) reason :=
  ⟨[], c.step, open_nil, rfl⟩

theorem Completes.auditLog_eq {messages : List Message} {n : ℕ} {out : Option Str}
    (hc : Completes messages n t out) : auditLog t = [] := by
  induction hc with
  | exhausted => rfl
  | answered n raw => rfl
  | raised e _ ih => exact ih

theorem Retrieves.auditLog_eq {memories : List MemoryRow} (hr : h.Retrieves t memories) :
    auditLog t = [] := by
  cases hr <;> rfl

theorem auditLog_opening (now : ℤ) : auditLog (h.opening now) = [] := by
  unfold opening
  split <;> rfl

theorem Concludes.reported {gated : Gated} {out : Except Exn Outcome}
    (hc : h.Concludes s gated t out) : h.Reported (auditLog t) out := by
  cases hc with
  | completed _ _ =>
    refine Reported.cons ?_ (Reported.cons ?_ (closed_stopped s.c .completed))
    · simp [auditEvent, open_nil]
    · simp [auditEvent, open_nil]
  | _ => simp [Reported, auditEvent, open_nil]

theorem Approves.auditLog_open {verdict : GovernanceVerdict} {action : Action}
    {out : Except Exn (LoopState ⊕ Gated)} (ha : h.Approves s verdict action t out) :
    Open (auditLog t) := by
  cases ha <;> simp [auditEvent, open_nil]

/-- The three events that open the turn of a judged action. -/
theorem Reported.judged {action action' : Action} {verdict : GovernanceVerdict}
    {result : Option ToolResult} {out : Except Exn Outcome} (hl : h.Reported (auditLog t) out) :
    h.Reported (auditLog (h.logged s.c .actionProposed (proposedPayload action) ::
      ⟨.dispatch action, .ok (verdict, result, action')⟩ ::
      h.logged s.c .governanceDecision (decisionPayload action' verdict) :: t)) out := by
  refine Reported.cons ?_ (Reported.cons ?_ (Reported.cons ?_ hl))
  all_goals simp [auditEvent, open_nil]

theorem Acts.reported {action : Action} {out : Except Exn Outcome} (ha : h.Acts s action t out) :
    h.Reported (auditLog t) out := by
  cases ha with
  | dispatchRaised e => simp [Reported, auditEvent, open_nil]
  | judged _ hc => exact hc.reported.judged
  | approvalRaised e _ ha => exact Reported.judged ha.auditLog_open
  | unapproved _ ha => exact Reported.judged ha.auditLog_open
  | approved _ ha hc => exact Reported.judged (hc.reported.append ha.auditLog_open)

theorem Attempts.reported {out : Except Exn Outcome} (ha : h.Attempts task s t out) :
    h.Reported (auditLog t) out := by
  cases ha with
  | memoryRaised e _ => simp [Reported, auditEvent, open_nil]
  | llmError hr hc =>
    rw [auditLog_append, auditLog_append, hr.auditLog_eq, hc.auditLog_eq]
    exact closed_stopped s.c .llmError
  | unparsed hr hc _ _ =>
    rw [auditLog_append, auditLog_append, hr.auditLog_eq, hc.auditLog_eq]
    simp [Reported, auditEvent, open_nil]
  | parserRaised hr hc _ _ =>
    rw [auditLog_append, hr.auditLog_eq, hc.auditLog_eq]
    exact open_nil
  | acted hr hc _ ha =>
    rw [auditLog_append, auditLog_append, hr.auditLog_eq, hc.auditLog_eq]
    exact ha.reported

/-- One iteration logs TERMINATION exactly when it ends the run. -/
theorem turn_reported {outcome : Outcome} (hrun : Runs (h.turn task start s) t outcome) :
    h.Reported (auditLog t) (.ok outcome) := by
  cases turn_cases hrun with
  | limit now hterm => exact closed_stopped s.c _
  | cancelled now hterm _ => exact closed_stopped s.c .cancelled
  | attempted now hterm ha =>
    rw [auditLog_append, auditLog_opening]
    exact ha.reported
  | failed now e hterm ha =>
    rw [auditLog_append, auditLog_opening]
    exact Reported.append ha.reported (closed_stopped s.c .internalError)

theorem loop_closed {ts : List (List Ev)} {reason : TerminationReason}
    (hrun : LoopRuns (h.turn task start) s ts reason) : h.Closed (auditLog ts.flatten) reason := by
  obtain ⟨s', ts', t, hit, hlast, rfl⟩ := hrun
  have hopen : Open (auditLog ts'.flatten) := by
    refine hit.history (I := fun ts _ => Open (auditLog ts.flatten)) open_nil ?_
    intro ts s t s' hopen hstep
    have hturn : Open (auditLog t) := turn_reported hstep
    simpa [auditLog_append] using hopen.append hturn
  rw [List.flatten_append, List.flatten_singleton, auditLog_append]
  exact Closed.of_open hopen (turn_reported hlast)

theorem auditLog_flatten_cons (now : ℤ) (ts : List (List Ev)) :
    auditLog (⟨.monotonic, now⟩ :: ts.flatten) = auditLog ts.flatten := by
  simp [auditEvent]

end Log

section Completed
variable {h : HarnessCore} {task : Str} {start : ℤ} {s : LoopState} {t : List Ev}

theorem Completes.mem_call {messages : List Message} {n : ℕ} {out : Option Str} {e : Ev}
    (hc : Completes messages n t out) (he : e ∈ t) : e.call = .complete messages := by
  induction hc with
  | exhausted => cases he
  | answered n raw =>
    obtain rfl := List.mem_singleton.mp he
    rfl
  | raised x _ ih =>
    obtain rfl | he := List.mem_cons.mp he
    · rfl
    · exact ih he

theorem Completes.answer_mem {messages : List Message} {n : ℕ} {raw : Str}
    (hc : Completes messages n t (some raw)) : (⟨.complete messages, .ok raw⟩ : Ev) ∈ t := by
  generalize hout : some raw = out at hc
  induction hc with
  | exhausted => cases hout
  | answered n raw =>
    obtain rfl := Option.some.inj hout
    exact List.mem_singleton.mpr rfl
  | raised e _ ih => exact List.mem_cons_of_mem _ (ih hout)

/-- Of the three branches behind the verdict only one ends in COMPLETED. -/
theorem Concludes.verified {verdict : GovernanceVerdict} {result : Option ToolResult}
    {action : Action} (hc : h.Concludes s (verdict, result, action) t (.ok (.inr .completed))) :
    result.isSome ∧ verdict.decision ≠ .deny ∧ action.tool = "finish" ∧
      (⟨.verify, .ok true⟩ : Ev) ∈ t := by
  cases hc with
  | completed hdec hfin => exact ⟨rfl, hdec, hfin, by simp⟩

theorem Acts.verified {action : Action} (ha : h.Acts s action t (.ok (.inr .completed))) :
    ∃ executed, Executes t action executed ∧ executed.tool = "finish" ∧
      (⟨.verify, .ok true⟩ : Ev) ∈ t := by
  cases ha with
  | @judged verdict result action' t out hdec hc =>
    obtain ⟨hsome, hdeny, hfin, hver⟩ := hc.verified
    obtain ⟨result, rfl⟩ := Option.isSome_iff_exists.mp hsome
    exact ⟨action', .judged (.tail _ (.head _)) hdeny hdec, hfin, by simp [hver]⟩
  | approved hdec ha hc =>
    cases ha with
    | approved action' verdict' result action'' hsup =>
      obtain ⟨_, hdeny, hfin, hver⟩ := hc.verified
      exact ⟨action'', .approved (.tail _ (.head _)) hdec
        (.tail _ (.tail _ (.tail _ (.head _)))) hdeny
        (.tail _ (.tail _ (.tail _ (.tail _ (.head _))))) hsup, hfin, by simp [hver]⟩

/-- The verifier's yes ends the turn with COMPLETED, whatever led to it. -/
theorem Concludes.completed_of_mem {gated : Gated} {out : Except Exn Outcome}
    (hc : h.Concludes s gated t out) (he : (⟨.verify, .ok true⟩ : Ev) ∈ t) :
    out = .ok (.inr .completed) := by
  cases hc with
  | completed _ _ => rfl
  | _ => simp at he

theorem Approves.verify_not_mem {verdict : GovernanceVerdict} {action : Action}
    {out : Except Exn (LoopState ⊕ Gated)} (ha : h.Approves s verdict action t out) :
    (⟨.verify, .ok true⟩ : Ev) ∉ t := by
  cases ha <;> simp

theorem Acts.completed_of_mem {action : Action} {out : Except Exn Outcome}
    (ha : h.Acts s action t out) (he : (⟨.verify, .ok true⟩ : Ev) ∈ t) :
    out = .ok (.inr .completed) := by
  cases ha with
  | dispatchRaised e => simp at he
  | judged _ hc => exact hc.completed_of_mem (by simpa using he)
  | approvalRaised e _ ha => exact absurd (by simpa using he) ha.verify_not_mem
  | unapproved _ ha => exact absurd (by simpa using he) ha.verify_not_mem
  | approved _ ha hc => exact hc.completed_of_mem (by simpa [ha.verify_not_mem] using he)

theorem Executes.mono {t' : List Ev} {parsed action : Action} (hsub : t ⊆ t')
    (he : Executes t parsed action) : Executes t' parsed action := by
  cases he with
  | judged hd hdeny hreq => exact .judged (hsub hd) hdeny hreq
  | approved hd hreq hr hdeny he hsup => exact .approved (hsub hd) hreq (hsub hr) hdeny (hsub he) hsup

theorem FinishVerified.mono {t' : List Ev} (hsub : t ⊆ t') (hf : h.FinishVerified t) :
    h.FinishVerified t' := by
  obtain ⟨messages, raw, parsed, action, hraw, hparse, hexec, hfin, hver⟩ := hf
  exact ⟨messages, raw, parsed, action, hsub hraw, hparse, hexec.mono hsub, hfin, hsub hver⟩

theorem Attempts.verified (ha : h.Attempts task s t (.ok (.inr .completed))) :
    h.FinishVerified t := by
  cases ha with
  | @acted memories tᵣ tₘ tₐ raw action out _ hc hparse ha =>
    obtain ⟨executed, hexec, hfin, hver⟩ := ha.verified
    have hsub : tₐ ⊆ tᵣ ++ (tₘ ++ tₐ) :=
      List.subset_append_of_subset_right _ (List.subset_append_right _ _)
    refine ⟨h.messages task s memories, raw, action, executed, ?_, hparse, hexec.mono hsub, hfin,
      hsub hver⟩
    exact List.mem_append_right _ (List.mem_append_left _ hc.answer_mem)

theorem Attempts.completed_of_mem {out : Except Exn Outcome} (ha : h.Attempts task s t out)
    (he : (⟨.verify, .ok true⟩ : Ev) ∈ t) : out = .ok (.inr .completed) := by
  have hcomp : ∀ {messages n out tₘ}, Completes messages n tₘ out →
      (⟨.verify, .ok true⟩ : Ev) ∉ tₘ := by
    intro messages n out tₘ hc hmem
    cases hc.mem_call hmem
  have hret : ∀ {memories tᵣ}, h.Retrieves tᵣ memories → (⟨.verify, .ok true⟩ : Ev) ∉ tᵣ := by
    intro memories tᵣ hr
    cases hr <;> simp
  cases ha with
  | memoryRaised e _ => simp at he
  | llmError hr hc => simp [hret hr, hcomp hc] at he
  | unparsed hr hc _ _ => simp [hret hr, hcomp hc] at he
  | parserRaised hr hc _ _ => simp [hret hr, hcomp hc] at he
  | acted hr hc _ ha => exact ha.completed_of_mem (by simpa [hret hr, hcomp hc] using he)

/-- One iteration ends with COMPLETED exactly when its `finish` was verified. -/
theorem turn_completed_iff {outcome : Outcome} (hrun : Runs (h.turn task start s) t outcome) :
    h.FinishVerified t ↔ outcome = .inr .completed := by
  have hopen : ∀ now, (⟨.verify, .ok true⟩ : Ev) ∉ h.opening now := by
    intro now
    unfold opening
    split <;> simp
  constructor
  · rintro ⟨_, _, _, _, _, _, _, _, hver⟩
    cases turn_cases hrun with
    | limit now _ => simp at hver
    | cancelled now _ _ => simp at hver
    | attempted now _ ha =>
      exact Except.ok.inj (ha.completed_of_mem (by simpa [hopen] using hver))
    | failed now e _ ha =>
      cases ha.completed_of_mem (by simpa [hopen] using hver)
  · rintro rfl
    cases turn_cases hrun with
    | limit now hterm => cases decideTermination_preStep hterm
    | attempted now _ ha => exact ha.verified.mono (List.subset_append_right _ _)

theorem turn_not_finishRejected (hrun : Runs (h.turn task start s) t (.inr .finishRejected)) :
    False := by
  cases turn_cases hrun with
  | limit now hterm => cases decideTermination_preStep hterm
  | attempted now _ ha => obtain hreason | hreason := ha.reason <;> cases hreason

/-- Every run returns a reason and records it as the last event of its log, and
it returns COMPLETED exactly when its last turn verified an executed `finish`. -/
theorem run_records_outcome {fuel : ℕ} {tr : List Ev}
    {out : Option (Except Exn TerminationReason)}
    (hwindow : 0 ≤ h.config.limits.noProgressRepeatLimit)
    (hfuel : h.config.limits.maxSteps.toNat * h.config.limits.actionRetryLimit.toNat < fuel)
    (hrun : Runs (h.run fuel task) tr out) :
    ∃ start ts last reason, out = some (.ok reason) ∧
      tr = ⟨.monotonic, start⟩ :: (ts ++ [last]).flatten ∧
      LoopRuns (h.turn task start) h.initialState (ts ++ [last]) reason ∧
      h.Closed (auditLog tr) reason ∧ reason ≠ .finishRejected ∧
      (reason = .completed ↔ h.FinishVerified last) ∧ ∀ t ∈ ts, ¬ h.FinishVerified t := by
  obtain ⟨start, ts, reason, rfl, rfl, hloop⟩ := run_cases hwindow hfuel hrun
  have hclosed := loop_closed hloop
  obtain ⟨s', ts', last, hit, hlast, rfl⟩ := hloop
  refine ⟨start, ts', last, reason, rfl, rfl, ⟨s', ts', last, hit, hlast, rfl⟩, ?_, ?_, ?_, ?_⟩
  · rw [auditLog_flatten_cons]
    exact hclosed
  · rintro rfl
    exact turn_not_finishRejected hlast
  · rw [turn_completed_iff hlast]
    exact ⟨fun heq => by rw [heq], Sum.inr.inj⟩
  · intro t ht hverified
    obtain ⟨_, s₁, s₂, _, hstep⟩ := hit.mem ht
    cases (turn_completed_iff hstep).mp hverified

end Completed

/-! ## A run that finishes -/

def finishText : Str := "\x7b\"tool\": \"finish\"\x7d"

/-- One step is allowed, and the model asks to finish. -/
def finishingHarness : HarnessCore where
  config := { limits := { maxSteps := 1, actionRetryLimit := 1 } }
  sha256 := Digest.single "\x7b\"arguments\": \x7b\x7d, \"tool\": \"finish\"\x7d"
    "360c57997ba6a44a9a897d85f8e319bdcc3901f525c2e22d750f047c746e62c7" (by decide)
  taskId := "task"
  parseAction raw :=
    if raw = finishText then .ok { tool := "finish" }
    else .error ⟨.actionParseError, "no JSON object found"⟩
  promptBuilder := none
  approvalResolver := false
  cancelCheck := false
  memoryStore := false

def finishingRun : List Ev :=
  let h := finishingHarness
  let action : Action := { tool := "finish" }
  let verdict : GovernanceVerdict := ⟨.allow, "TIER_FINISH", "finish action always allowed"⟩
  let result : ToolResult :=
    { tool := "finish", status := .success, summary := "agent requested finish"
      artifacts := [("finish", .bool true)] }
  [⟨.monotonic, 0⟩, ⟨.monotonic, 5⟩,
    ⟨.complete (h.messages "fix the bug" h.initialState []), .ok finishText⟩,
    h.logged {} .actionProposed (proposedPayload action),
    ⟨.dispatch action, .ok (verdict, some result, action)⟩,
    h.logged {} .governanceDecision (decisionPayload action verdict),
    h.logged {} .toolExecuted (toolPayload action result), ⟨.verify, .ok true⟩,
    h.stopped {} .completed]

theorem finishingRun_runs :
    Runs (finishingHarness.run 2 "fix the bug") finishingRun (some (.ok .completed)) :=
  .call (.call (.call (.call (.call (.call (.call (.call (.call (.ret _)))))))))

theorem run_records_outcome_finishing :
    finishingHarness.Closed (auditLog finishingRun) .completed ∧
      ∃ t, finishingHarness.FinishVerified t := by
  obtain ⟨_, _, last, reason, hout, _, _, hclosed, _, hiff, _⟩ :=
    run_records_outcome (by decide) (by decide) finishingRun_runs
  obtain rfl : reason = .completed := by simpa using hout.symm
  exact ⟨hclosed, last, hiff.mp rfl⟩

end AegisCode.HarnessCore
