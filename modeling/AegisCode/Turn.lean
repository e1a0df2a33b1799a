import AegisCode.Harness

/-!
# What a turn can do

Every run of one iteration of the loop, with its calls in order. The code of a
turn is taken apart here once; what holds of every turn is read off the cases.
-/
namespace AegisCode.HarnessCore

open Program Prog

/-- A call of the loop with its answer. -/
abbrev Ev := Event Call Resp

variable (h : HarnessCore)

abbrev logged (c : LoopCounters) (eventType : EventType) (payload : Dict) : Ev :=
  ⟨.append h.taskId c.step eventType payload, ()⟩

abbrev stopped (c : LoopCounters) (reason : TerminationReason) : Ev :=
  h.logged c .termination (terminationPayload reason)

/-! ## The cases -/

/-- The runs of `conclude`, by verdict, result and action. -/
inductive Concludes (s : LoopState) : Gated → List Ev → Except Exn Outcome → Prop
  | denied {verdict : GovernanceVerdict} {result : ToolResult} {action : Action} :
      verdict.decision = .deny →
      Concludes s (verdict, some result, action)
        [h.logged s.c .feedback (feedbackPayload "POLICY_DENIED"
          (formatFeedback "POLICY_DENIED" result))]
        (.ok (.inl (h.afterRefusal s action verdict "POLICY_DENIED" result.summary
          (formatFeedback "POLICY_DENIED" result))))
  | noResult {verdict : GovernanceVerdict} {action : Action} (e : Exn) :
      Concludes s (verdict, none, action) [] (.error e)
  | verifierRaised {verdict : GovernanceVerdict} {result : ToolResult} {action : Action}
      (e : Exn) : verdict.decision ≠ .deny → action.tool = "finish" →
      Concludes s (verdict, some result, action)
        [h.logged s.c .toolExecuted (toolPayload action result), ⟨.verify, .error e⟩] (.error e)
  | completed {verdict : GovernanceVerdict} {result : ToolResult} {action : Action} :
      verdict.decision ≠ .deny → action.tool = "finish" →
      Concludes s (verdict, some result, action)
        [h.logged s.c .toolExecuted (toolPayload action result), ⟨.verify, .ok true⟩,
          h.stopped s.c .completed] (.ok (.inr .completed))
  | finishRejected {verdict : GovernanceVerdict} {result : ToolResult} {action : Action} :
      verdict.decision ≠ .deny → action.tool = "finish" →
      Concludes s (verdict, some result, action)
        [h.logged s.c .toolExecuted (toolPayload action result), ⟨.verify, .ok false⟩,
          h.logged s.c .feedback (feedbackPayload "FINISH_REJECTED"
            "FINISH_REJECTED: final verification failed")]
        (.ok (.inl { s with
          c := failStep s.c, lastFeedback := "FINISH_REJECTED: final verification failed" }))
  | executed {verdict : GovernanceVerdict} {result : ToolResult} {action : Action} :
      verdict.decision ≠ .deny → action.tool ≠ "finish" →
      Concludes s (verdict, some result, action)
        [h.logged s.c .toolExecuted (toolPayload action result),
          h.logged (h.afterExecution s verdict result action).c .feedback (feedbackPayload
            (((classify result).map Category.value).getD "SUCCESS")
            (h.afterExecution s verdict result action).lastFeedback)]
        (.ok (.inl (h.afterExecution s verdict result action)))

/-- The runs of `approve`: the approved fingerprint is that of `action`. -/
inductive Approves (s : LoopState) (verdict : GovernanceVerdict) (action : Action) :
    List Ev → Except Exn (LoopState ⊕ Gated) → Prop
  | noResolver : h.approvalResolver = false →
      Approves s verdict action
        [h.logged s.c .approvalDecided (approvalPayload action "REJECTED")]
        (.ok (.inl (h.afterRefusal s action verdict "APPROVAL_REJECTED" []
          "APPROVAL_REJECTED: action was not approved")))
  | resolverRaised (e : Exn) :
      Approves s verdict action [⟨.resolve action verdict, .error e⟩] (.error e)
  | rejected (action' : Action) (verdict' : GovernanceVerdict) :
      Approves s verdict action
        [⟨.resolve action verdict, .ok (false, action', verdict')⟩,
          h.logged s.c .approvalDecided (approvalPayload action' "REJECTED")]
        (.ok (.inl (h.afterRefusal s action' verdict' "APPROVAL_REJECTED" []
          "APPROVAL_REJECTED: action was not approved")))
  | executionRaised (action' : Action) (verdict' : GovernanceVerdict) (e : Exn) :
      Approves s verdict action
        [⟨.resolve action verdict, .ok (true, action', verdict')⟩,
          ⟨.executeApproved action' (fingerprint h.sha256 action), .error e⟩] (.error e)
  | superseded (action' : Action) (verdict' : GovernanceVerdict) (result : ToolResult)
      (action'' : Action) : result.flagged "superseded" = true →
      Approves s verdict action
        [⟨.resolve action verdict, .ok (true, action', verdict')⟩,
          ⟨.executeApproved action' (fingerprint h.sha256 action), .ok (result, action'')⟩,
          h.logged s.c .approvalDecided (supersededPayload action'' result),
          h.logged s.c .feedback (feedbackPayload "POLICY_DENIED"
            (formatFeedback "POLICY_DENIED" result))]
        (.ok (.inl (h.afterRefusal s action'' verdict' "POLICY_DENIED" result.summary
          (formatFeedback "POLICY_DENIED" result))))
  | approved (action' : Action) (verdict' : GovernanceVerdict) (result : ToolResult)
      (action'' : Action) : result.flagged "superseded" = false →
      Approves s verdict action
        [⟨.resolve action verdict, .ok (true, action', verdict')⟩,
          ⟨.executeApproved action' (fingerprint h.sha256 action), .ok (result, action'')⟩,
          h.logged s.c .approvalDecided (approvalPayload action'' "APPROVED")]
        (.ok (.inr (verdict', some result, action'')))

/-- The state in which a parsed action is dispatched. -/
abbrev afterParse (s : LoopState) : LoopState := { s with c := { s.c with invalidActions := 0 } }

/-- The runs of `act`. -/
inductive Acts (s : LoopState) (action : Action) : List Ev → Except Exn Outcome → Prop
  | dispatchRaised (e : Exn) :
      Acts s action [h.logged s.c .actionProposed (proposedPayload action),
        ⟨.dispatch action, .error e⟩] (.error e)
  | judged {verdict : GovernanceVerdict} {result : Option ToolResult} {action' : Action}
      {t : List Ev} {out : Except Exn Outcome} :
      verdict.decision ≠ .requireApproval →
      h.Concludes (afterParse s) (verdict, result, action') t out →
      Acts s action (h.logged s.c .actionProposed (proposedPayload action) ::
        ⟨.dispatch action, .ok (verdict, result, action')⟩ ::
        h.logged s.c .governanceDecision (decisionPayload action' verdict) :: t) out
  | approvalRaised {verdict : GovernanceVerdict} {result : Option ToolResult} {action' : Action}
      {t : List Ev} (e : Exn) :
      verdict.decision = .requireApproval →
      h.Approves (afterParse s) verdict action' t (.error e) →
      Acts s action (h.logged s.c .actionProposed (proposedPayload action) ::
        ⟨.dispatch action, .ok (verdict, result, action')⟩ ::
        h.logged s.c .governanceDecision (decisionPayload action' verdict) :: t) (.error e)
  | unapproved {verdict : GovernanceVerdict} {result : Option ToolResult} {action' : Action}
      {t : List Ev} {next : LoopState} :
      verdict.decision = .requireApproval →
      h.Approves (afterParse s) verdict action' t (.ok (.inl next)) →
      Acts s action (h.logged s.c .actionProposed (proposedPayload action) ::
        ⟨.dispatch action, .ok (verdict, result, action')⟩ ::
        h.logged s.c .governanceDecision (decisionPayload action' verdict) :: t) (.ok (.inl next))
  | approved {verdict : GovernanceVerdict} {result : Option ToolResult} {action' : Action}
      {gated : Gated} {t₁ t₂ : List Ev} {out : Except Exn Outcome} :
      verdict.decision = .requireApproval →
      h.Approves (afterParse s) verdict action' t₁ (.ok (.inr gated)) →
      h.Concludes (afterParse s) gated t₂ out →
      Acts s action (h.logged s.c .actionProposed (proposedPayload action) ::
        ⟨.dispatch action, .ok (verdict, result, action')⟩ ::
        h.logged s.c .governanceDecision (decisionPayload action' verdict) :: (t₁ ++ t₂)) out

/-- The runs of `_complete_with_retry`: attempts that raised, then the answer. -/
inductive Completes (messages : List Message) : ℕ → List Ev → Option Str → Prop
  | exhausted : Completes messages 0 [] none
  | answered (n : ℕ) (raw : Str) :
      Completes messages (n + 1) [⟨.complete messages, .ok raw⟩] (some raw)
  | raised {n : ℕ} {t : List Ev} {out : Option Str} (e : Exn) :
      Completes messages n t out →
      Completes messages (n + 1) (⟨.complete messages, .error e⟩ :: t) out

/-- The call for the memories, and the memories that the prompt may use. -/
inductive Retrieves : List Ev → List MemoryRow → Prop
  | none : h.memoryStore = false → Retrieves [] []
  | rows (rows : List MemoryRow) : h.memoryStore = true →
      Retrieves [⟨.retrieve, .ok rows⟩] (rows.filter MemoryRow.isGovernanceUsable)

/-- The runs of the `try` block. -/
inductive Attempts (task : Str) (s : LoopState) : List Ev → Except Exn Outcome → Prop
  | memoryRaised (e : Exn) : h.memoryStore = true →
      Attempts task s [⟨.retrieve, .error e⟩] (.error e)
  | llmError {memories : List MemoryRow} {tᵣ tₘ : List Ev} : h.Retrieves tᵣ memories →
      Completes (h.messages task s memories) h.config.limits.llmMaxRetries.toNat tₘ none →
      Attempts task s (tᵣ ++ (tₘ ++ [h.stopped s.c .llmError])) (.ok (.inr .llmError))
  | unparsed {memories : List MemoryRow} {tᵣ tₘ : List Ev} {raw : Str} {exc : Exn} :
      h.Retrieves tᵣ memories →
      Completes (h.messages task s memories) h.config.limits.llmMaxRetries.toNat tₘ (some raw) →
      h.parseAction raw = .error exc → exc.kind = .actionParseError →
      Attempts task s
        (tᵣ ++ (tₘ ++ [h.logged s.c .actionProposed (parseErrorPayload raw exc.text),
          h.logged s.c .feedback (feedbackPayload "INVALID_ACTION"
            ("PARSE_ERROR: ".toList ++ exc.text))]))
        (.ok (.inl { s with
          c := { s.c with invalidActions := s.c.invalidActions + 1 }
          lastFeedback := "PARSE_ERROR: ".toList ++ exc.text }))
  | parserRaised {memories : List MemoryRow} {tᵣ tₘ : List Ev} {raw : Str} {exc : Exn} :
      h.Retrieves tᵣ memories →
      Completes (h.messages task s memories) h.config.limits.llmMaxRetries.toNat tₘ (some raw) →
      h.parseAction raw = .error exc → exc.kind ≠ .actionParseError →
      Attempts task s (tᵣ ++ tₘ) (.error exc)
  | acted {memories : List MemoryRow} {tᵣ tₘ tₐ : List Ev} {raw : Str} {action : Action}
      {out : Except Exn Outcome} : h.Retrieves tᵣ memories →
      Completes (h.messages task s memories) h.config.limits.llmMaxRetries.toNat tₘ (some raw) →
      h.parseAction raw = .ok action → h.Acts s action tₐ out →
      Attempts task s (tᵣ ++ (tₘ ++ tₐ)) out

/-- The calls that open a turn: the clock and the cancellation check. -/
def opening (now : ℤ) : List Ev :=
  ⟨.monotonic, now⟩ :: if h.cancelCheck then [⟨.cancelCheck, false⟩] else []

/-- The runs of one iteration. -/
inductive Turns (task : Str) (start : ℤ) (s : LoopState) : List Ev → Outcome → Prop
  | limit {reason : TerminationReason} (now : ℤ) :
      decideTermination s.c h.config.limits (now - start) = some reason →
      Turns task start s [⟨.monotonic, now⟩, h.stopped s.c reason] (.inr reason)
  | cancelled (now : ℤ) :
      decideTermination s.c h.config.limits (now - start) = none → h.cancelCheck = true →
      Turns task start s
        [⟨.monotonic, now⟩, ⟨.cancelCheck, true⟩, h.stopped s.c .cancelled] (.inr .cancelled)
  | attempted {t : List Ev} {outcome : Outcome} (now : ℤ) :
      decideTermination s.c h.config.limits (now - start) = none →
      h.Attempts task s t (.ok outcome) →
      Turns task start s (h.opening now ++ t) outcome
  | failed {t : List Ev} (now : ℤ) (e : Exn) :
      decideTermination s.c h.config.limits (now - start) = none →
      h.Attempts task s t (.error e) →
      Turns task start s (h.opening now ++ (t ++ [h.stopped s.c .internalError]))
        (.inr .internalError)

/-! ## The code runs by the cases -/

section Cases
variable {h : HarnessCore} {s : LoopState} {tr : List Ev}

theorem runs_log_bind {α : Type} {c : LoopCounters} {eventType : EventType} {payload : Dict}
    {f : Unit → Act α} {out : Except Exn α} :
    Runs (h.log c eventType payload >>= f).run tr out ↔
      ∃ t, tr = h.logged c eventType payload :: t ∧ Runs (f ()).run t out := by
  rw [log, runs_lift_bind, ask]
  constructor
  · rintro ⟨t₁, ⟨⟩, t₂, rfl, hlog, hrest⟩
    obtain rfl := runs_perform.mp hlog
    exact ⟨t₂, rfl, hrest⟩
  · rintro ⟨t, rfl, hrest⟩
    exact ⟨[h.logged c eventType payload], (), t, rfl, runs_perform.mpr rfl, hrest⟩

theorem runs_stop {c : LoopCounters} {reason : TerminationReason} {outcome : Outcome} :
    Runs (h.stop c reason) tr outcome ↔ tr = [h.stopped c reason] ∧ outcome = .inr reason := by
  simp only [stop, ask, runs_perform_bind, runs_pure]
  constructor
  · rintro ⟨_, t, rfl, rfl, rfl⟩
    exact ⟨rfl, rfl⟩
  · rintro ⟨rfl, rfl⟩
    exact ⟨(), [], rfl, rfl, rfl⟩

theorem finish_cases {verdict : GovernanceVerdict} {result : ToolResult} {action : Action}
    {out : Except Exn Outcome} (hdec : verdict.decision ≠ .deny) (hfin : action.tool = "finish")
    (hrun : Runs (h.finish s).run tr out) :
    h.Concludes s (verdict, some result, action)
      (h.logged s.c .toolExecuted (toolPayload action result) :: tr) out := by
  obtain ⟨e, hask, rfl⟩ | ⟨_, b, t, rfl, hask, hrest⟩ := runs_except_bind.mp hrun
  · obtain rfl := runs_perform.mp hask
    exact .verifierRaised e hdec hfin
  · obtain rfl := runs_perform.mp hask
    cases b with
    | true =>
      obtain ⟨outcome, rfl, hstop⟩ := runs_lift.mp hrest
      obtain ⟨rfl, rfl⟩ := runs_stop.mp hstop
      exact .completed hdec hfin
    | false =>
      obtain ⟨t, rfl, hret⟩ := runs_log_bind.mp hrest
      obtain ⟨rfl, rfl⟩ := runs_return.mp hret
      exact .finishRejected hdec hfin

theorem conclude_cases {gated : Gated} {out : Except Exn Outcome}
    (hrun : Runs (h.conclude s gated).run tr out) : h.Concludes s gated tr out := by
  obtain ⟨verdict, result, action⟩ := gated
  dsimp only [conclude] at hrun
  by_cases hdec : verdict.decision = .deny
  · rw [if_pos hdec] at hrun
    cases result with
    | none =>
      obtain ⟨rfl, rfl⟩ := runs_throw.mp hrun
      exact .noResult _
    | some result =>
      obtain ⟨t, rfl, hret⟩ := runs_log_bind.mp hrun
      obtain ⟨rfl, rfl⟩ := runs_return.mp hret
      exact .denied hdec
  · rw [if_neg hdec] at hrun
    cases result with
    | none =>
      obtain ⟨rfl, rfl⟩ := runs_throw.mp hrun
      exact .noResult _
    | some result =>
      obtain ⟨t, rfl, hrest⟩ := runs_log_bind.mp hrun
      by_cases hfin : action.tool = "finish"
      · rw [if_pos hfin] at hrest
        exact finish_cases hdec hfin hrest
      · rw [if_neg hfin] at hrest
        obtain ⟨t, rfl, hret⟩ := runs_log_bind.mp hrest
        obtain ⟨rfl, rfl⟩ := runs_return.mp hret
        exact .executed hdec hfin

theorem rejected_cases {verdict : GovernanceVerdict} {action : Action} {out : Except Exn LoopState}
    (hrun : Runs (h.rejected s verdict action).run tr out) :
    tr = [h.logged s.c .approvalDecided (approvalPayload action "REJECTED")] ∧
      out = .ok (h.afterRefusal s action verdict "APPROVAL_REJECTED" []
        "APPROVAL_REJECTED: action was not approved") := by
  obtain ⟨t, rfl, hret⟩ := runs_log_bind.mp hrun
  obtain ⟨rfl, rfl⟩ := runs_return.mp hret
  exact ⟨rfl, rfl⟩

theorem superseded_cases {verdict : GovernanceVerdict} {result : ToolResult} {action : Action}
    {out : Except Exn LoopState} (hrun : Runs (h.superseded s verdict result action).run tr out) :
    tr = [h.logged s.c .approvalDecided (supersededPayload action result),
        h.logged s.c .feedback (feedbackPayload "POLICY_DENIED"
          (formatFeedback "POLICY_DENIED" result))] ∧
      out = .ok (h.afterRefusal s action verdict "POLICY_DENIED" result.summary
        (formatFeedback "POLICY_DENIED" result)) := by
  obtain ⟨t, rfl, hrest⟩ := runs_log_bind.mp hrun
  obtain ⟨t, rfl, hret⟩ := runs_log_bind.mp hrest
  obtain ⟨rfl, rfl⟩ := runs_return.mp hret
  exact ⟨rfl, rfl⟩

theorem approve_cases {verdict : GovernanceVerdict} {action : Action}
    {out : Except Exn (LoopState ⊕ Gated)}
    (hrun : Runs (h.approve s verdict action).run tr out) : h.Approves s verdict action tr out := by
  dsimp only [approve] at hrun
  by_cases hres : h.approvalResolver = true
  · rw [if_pos hres] at hrun
    obtain ⟨e, hask, rfl⟩ | ⟨_, ⟨approved, action', verdict'⟩, t, rfl, hask, hrest⟩ :=
      runs_except_bind.mp hrun
    · obtain rfl := runs_perform.mp hask
      exact .resolverRaised e
    · obtain rfl := runs_perform.mp hask
      cases approved with
      | false =>
        obtain ⟨r, hrej, rfl⟩ := runs_map.mp hrest
        obtain ⟨rfl, rfl⟩ := rejected_cases hrej
        exact .rejected action' verdict'
      | true =>
        obtain ⟨e, hexec, rfl⟩ | ⟨_, ⟨result, action''⟩, t, rfl, hexec, hdone⟩ :=
          runs_except_bind.mp hrest
        · obtain rfl := runs_perform.mp hexec
          exact .executionRaised action' verdict' e
        · obtain rfl := runs_perform.mp hexec
          by_cases hsup : result.flagged "superseded" = true
          · rw [if_pos hsup] at hdone
            obtain ⟨r, hcont, rfl⟩ := runs_map.mp hdone
            obtain ⟨rfl, rfl⟩ := superseded_cases hcont
            exact .superseded action' verdict' result action'' hsup
          · rw [if_neg hsup] at hdone
            obtain ⟨t, rfl, hret⟩ := runs_log_bind.mp hdone
            obtain ⟨rfl, rfl⟩ := runs_return.mp hret
            exact .approved action' verdict' result action'' (by simpa using hsup)
  · rw [if_neg hres, pure_bind] at hrun
    obtain ⟨r, hrej, rfl⟩ := runs_map.mp hrun
    obtain ⟨rfl, rfl⟩ := rejected_cases hrej
    exact .noResolver (by simpa using hres)

theorem act_cases {action : Action} {out : Except Exn Outcome}
    (hrun : Runs (h.act s action).run tr out) : h.Acts s action tr out := by
  dsimp only [act] at hrun
  obtain ⟨t, rfl, hrest⟩ := runs_log_bind.mp hrun
  obtain ⟨e, hask, rfl⟩ | ⟨_, ⟨verdict, result, action'⟩, t, rfl, hask, hjudged⟩ :=
    runs_except_bind.mp hrest
  · obtain rfl := runs_perform.mp hask
    exact .dispatchRaised e
  · obtain rfl := runs_perform.mp hask
    obtain ⟨t, rfl, hdecided⟩ := runs_log_bind.mp hjudged
    by_cases hdec : verdict.decision = .requireApproval
    · rw [if_pos hdec, runs_except_bind] at hdecided
      obtain ⟨e, happ, rfl⟩ | ⟨t₁, next | gated, t₂, rfl, happ, hgated⟩ := hdecided
      · exact .approvalRaised e hdec (approve_cases happ)
      · obtain ⟨rfl, rfl⟩ := runs_return.mp hgated
        rw [List.append_nil]
        exact .unapproved hdec (approve_cases happ)
      · exact .approved hdec (approve_cases happ) (conclude_cases hgated)
    · rw [if_neg hdec] at hdecided
      exact .judged hdec (conclude_cases hdecided)

theorem complete_cases {messages : List Message} {n : ℕ} {out : Option Str}
    (hrun : Runs (completeWithRetry messages n) tr out) : Completes messages n tr out := by
  induction n generalizing tr with
  | zero =>
    obtain ⟨rfl, rfl⟩ := runs_pure.mp hrun
    exact .exhausted
  | succ n ih =>
    obtain ⟨r, t, rfl, hrest⟩ := runs_perform_bind.mp hrun
    cases r with
    | ok raw =>
      obtain ⟨rfl, rfl⟩ := runs_pure.mp hrest
      exact .answered n raw
    | error e => exact .raised e (ih hrest)

theorem cancelled_cases {b : Bool} (now : ℤ) (hrun : Runs h.cancelled tr b) :
    (b = false ∧ (⟨.monotonic, now⟩ : Ev) :: tr = h.opening now) ∨
      (b = true ∧ h.cancelCheck = true ∧ tr = [⟨.cancelCheck, true⟩]) := by
  unfold cancelled at hrun
  by_cases hcan : h.cancelCheck = true
  · rw [if_pos hcan] at hrun
    obtain rfl := runs_perform.mp hrun
    cases b with
    | false => exact .inl ⟨rfl, by simp [opening, hcan]⟩
    | true => exact .inr ⟨rfl, hcan, rfl⟩
  · rw [if_neg hcan] at hrun
    obtain ⟨rfl, rfl⟩ := runs_pure.mp hrun
    exact .inl ⟨rfl, by simp [opening, hcan]⟩

theorem build_cases {task : Str} {out : Except Exn (List Message)}
    (hrun : Runs (h.build task s).run tr out) :
    (∃ e, h.memoryStore = true ∧ tr = [⟨.retrieve, .error e⟩] ∧ out = .error e) ∨
      ∃ memories, h.Retrieves tr memories ∧ out = .ok (h.messages task s memories) := by
  obtain ⟨r, hget, rfl⟩ := runs_map.mp hrun
  unfold retrieveMemories at hget
  by_cases hmem : h.memoryStore = true
  · rw [if_pos hmem] at hget
    obtain ⟨r, hask, rfl⟩ := runs_map.mp hget
    obtain rfl := runs_perform.mp hask
    cases r with
    | error e => exact .inl ⟨e, hmem, rfl, rfl⟩
    | ok rows => exact .inr ⟨_, .rows rows hmem, rfl⟩
  · rw [if_neg hmem] at hget
    obtain ⟨rfl, rfl⟩ := runs_return.mp hget
    exact .inr ⟨[], .none (by simpa using hmem), rfl⟩

theorem attempt_cases {task : Str} {out : Except Exn Outcome}
    (hrun : Runs (h.attempt task s).run tr out) : h.Attempts task s tr out := by
  obtain ⟨e, hbuild, rfl⟩ | ⟨tᵣ, messages, t, rfl, hbuild, hrest⟩ := runs_except_bind.mp hrun
  · obtain ⟨e', hmem, rfl, heq⟩ | ⟨memories, _, heq⟩ := build_cases hbuild
    · obtain rfl := Except.error.inj heq
      exact .memoryRaised e hmem
    · cases heq
  · obtain ⟨e, _, _, heq⟩ | ⟨memories, hget, heq⟩ := build_cases hbuild
    · cases heq
    · obtain rfl := Except.ok.inj heq
      obtain ⟨tₘ, answer, t, rfl, hcomp, hanswer⟩ := runs_lift_bind.mp hrest
      have hcomp := complete_cases hcomp
      cases answer with
      | none =>
        obtain ⟨outcome, rfl, hstop⟩ := runs_lift.mp hanswer
        obtain ⟨rfl, rfl⟩ := runs_stop.mp hstop
        exact .llmError hget hcomp
      | some raw =>
        cases hparse : h.parseAction raw with
        | ok action =>
          simp only [hparse] at hanswer
          exact .acted hget hcomp hparse (act_cases hanswer)
        | error exc =>
          simp only [hparse] at hanswer
          by_cases hkind : exc.kind = .actionParseError
          · rw [if_pos hkind] at hanswer
            obtain ⟨t, rfl, hlog⟩ := runs_log_bind.mp hanswer
            obtain ⟨t, rfl, hret⟩ := runs_log_bind.mp hlog
            obtain ⟨rfl, rfl⟩ := runs_return.mp hret
            exact .unparsed hget hcomp hparse hkind
          · rw [if_neg hkind] at hanswer
            obtain ⟨rfl, rfl⟩ := runs_throw.mp hanswer
            rw [List.append_nil]
            exact .parserRaised hget hcomp hparse hkind

/-- Every run of one iteration is one of the cases. -/
theorem turn_cases {task : Str} {start : ℤ} {outcome : Outcome}
    (hrun : Runs (h.turn task start s) tr outcome) : h.Turns task start s tr outcome := by
  obtain ⟨now, t, rfl, hchecked⟩ := runs_perform_bind.mp hrun
  cases hterm : decideTermination s.c h.config.limits (now - start) with
  | some reason =>
    rw [hterm] at hchecked
    obtain ⟨rfl, rfl⟩ := runs_stop.mp hchecked
    exact .limit now hterm
  | none =>
    rw [hterm] at hchecked
    obtain ⟨t₁, b, t₂, rfl, hcancel, hbody⟩ := runs_bind.mp hchecked
    obtain ⟨rfl, hopen⟩ | ⟨rfl, hcan, rfl⟩ := cancelled_cases now hcancel
    · rw [if_neg Bool.false_ne_true] at hbody
      obtain ⟨tₐ, r, t, rfl, hattempt, hend⟩ := runs_bind.mp hbody
      rw [← List.cons_append, hopen]
      cases r with
      | ok outcome =>
        obtain ⟨rfl, rfl⟩ := runs_pure.mp hend
        rw [List.append_nil]
        exact .attempted now hterm (attempt_cases hattempt)
      | error e =>
        obtain ⟨rfl, rfl⟩ := runs_stop.mp hend
        exact .failed now e hterm (attempt_cases hattempt)
    · rw [if_pos rfl] at hbody
      obtain ⟨rfl, rfl⟩ := runs_stop.mp hbody
      exact .cancelled now hterm hcan

end Cases

end AegisCode.HarnessCore
