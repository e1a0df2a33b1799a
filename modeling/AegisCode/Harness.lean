import AegisCode.Context
import AegisCode.Program

/-!
# The loop

`HarnessCore.run` as a program over the calls it makes to its collaborators.
Everything it calls is left open: each call may be answered by any value of its
type or by an exception. The one exception is the audit log, whose appends do
not raise. A collaborator that gets the action or the verdict may change the
object it was given, so its answer carries the object as it leaves it. The
clock counts nanoseconds.
-/
namespace AegisCode

open Program Prog

inductive EventType where
  | actionProposed
  | governanceDecision
  | approvalRequested
  | approvalDecided
  | toolExecuted
  | feedback
  | termination
  deriving DecidableEq, Repr

inductive TerminationReason where
  | completed
  | finishRejected
  | maxSteps
  | consecutiveFailures
  | noProgress
  | invalidActionLimit
  | llmError
  | internalError
  | cancelled
  | timeout
  deriving DecidableEq, Repr

def TerminationReason.value : TerminationReason → Str
  | .completed => "COMPLETED"
  | .finishRejected => "FINISH_REJECTED"
  | .maxSteps => "MAX_STEPS"
  | .consecutiveFailures => "CONSECUTIVE_FAILURES"
  | .noProgress => "NO_PROGRESS"
  | .invalidActionLimit => "INVALID_ACTION_LIMIT"
  | .llmError => "LLM_ERROR"
  | .internalError => "INTERNAL_ERROR"
  | .cancelled => "CANCELLED"
  | .timeout => "TIMEOUT"

structure LoopCounters where
  step : ℕ := 0
  consecutiveFailures : ℕ := 0
  invalidActions : ℕ := 0
  noProgressHits : ℕ := 0

def decideTermination (c : LoopCounters) (limits : Limits) (elapsed : ℤ) :
    Option TerminationReason :=
  if elapsed ≥ limits.wallClockTimeoutSec * 10 ^ 9 then some .timeout
  else if c.invalidActions ≥ limits.actionRetryLimit then some .invalidActionLimit
  else if c.consecutiveFailures ≥ limits.maxConsecutiveFailures then some .consecutiveFailures
  else if c.noProgressHits ≥ limits.noProgressRepeatLimit then some .noProgress
  else if c.step ≥ limits.maxSteps then some .maxSteps
  else none

/-- The reasons that `decide_termination` gives. -/
def TerminationReason.preStep : TerminationReason → Bool
  | .timeout | .invalidActionLimit | .consecutiveFailures | .noProgress | .maxSteps => true
  | _ => false

/-! ## The calls of the loop -/

inductive Call where
  | monotonic
  | cancelCheck
  | retrieve
  | complete (messages : List Message)
  | dispatch (action : Action)
  | resolve (action : Action) (verdict : GovernanceVerdict)
  | executeApproved (action : Action) (approvedFp : Str)
  | verify
  | append (taskId : Str) (stepIndex : ℕ) (eventType : EventType) (payload : Dict)

@[reducible] def Resp : Call → Type
  | .monotonic => ℤ
  | .cancelCheck => Bool
  | .retrieve => Except Exn (List MemoryRow)
  | .complete _ => Except Exn Str
  | .dispatch _ => Except Exn (GovernanceVerdict × Option ToolResult × Action)
  | .resolve _ _ => Except Exn (Bool × Action × GovernanceVerdict)
  | .executeApproved _ _ => Except Exn (ToolResult × Action)
  | .verify => Except Exn Bool
  | .append _ _ _ _ => Unit

/-- Code inside the `try` block of a turn. -/
abbrev Act := ExceptT Exn (Prog Call Resp)

def ask (c : Call) : Prog Call Resp (Resp c) := perform c

structure PromptBuilder where
  systemPrompt : ℤ → Str
  toolProtocol : Str

/-- The harness. The optional collaborators are calls, so only their presence is
kept; `parseAction` raises an `actionParseError` on text it cannot read. -/
structure HarnessCore where
  config : AegisConfig
  sha256 : Digest
  taskId : Str
  parseAction : Str → Except Exn Action
  promptBuilder : Option PromptBuilder
  approvalResolver : Bool
  cancelCheck : Bool
  memoryStore : Bool

/-- What the loop carries from one turn to the next. -/
structure LoopState where
  c : LoopCounters
  lastFeedback : Str
  recentSteps : List StepRecord
  tracker : ProgressTracker

/-- How a turn ends: the loop goes on, or the run returns. -/
abbrev Outcome := LoopState ⊕ TerminationReason

/-! ## Helpers of the loop -/

def formatFeedback (category : Str) (result : ToolResult) : Str :=
  category ++ ": ".toList ++ (if result.detailForLlm.isEmpty then result.summary
    else result.detailForLlm)

/-- The slice `xs[-n:]`. -/
def sliceFromEnd {α : Type} (n : ℤ) (xs : List α) : List α :=
  if 0 < n then xs.drop (xs.length - n.toNat) else xs.drop (-n).toNat

def appendStep (recentSteps : List StepRecord) (action : Action) (verdict : GovernanceVerdict)
    (failureCat : Option Str) (summary : Str) (limits : Limits) : List StepRecord :=
  sliceFromEnd limits.maxSteps
    (recentSteps ++ [⟨action.tool, verdict.decision.value, failureCat.getD "SUCCESS", summary⟩])

/-! ## Payloads of the audit events -/

def terminationPayload (reason : TerminationReason) : Dict := [("reason", .str reason.value)]

def parseErrorPayload (raw error : Str) : Dict := [("raw", .str raw), ("error", .str error)]

def proposedPayload (action : Action) : Dict :=
  [("tool", .str action.tool), ("arguments", .obj action.arguments)]

def decisionPayload (action : Action) (verdict : GovernanceVerdict) : Dict :=
  [("tool", .str action.tool), ("decision", .str verdict.decision.value),
    ("rule", .str verdict.ruleId), ("reason", .str verdict.reason)]

def approvalPayload (action : Action) (state : Str) : Dict :=
  [("tool", .str action.tool), ("state", .str state)]

def supersededPayload (action : Action) (result : ToolResult) : Dict :=
  approvalPayload action "SUPERSEDED" ++ [("detail".toList, Json.str result.summary)]

def toolPayload (action : Action) (result : ToolResult) : Dict :=
  [("tool".toList, .str action.tool), ("status".toList, .str result.status.value)] ++
    ((result.artifacts.get? "changed_files").filter Json.truthy).toList.map
      fun files => ("changed_files".toList, files)

def feedbackPayload (category detail : Str) : Dict :=
  [("category", .str category), ("detail", .str detail)]

namespace HarnessCore
variable (h : HarnessCore)

/-! ## One turn -/

def log (c : LoopCounters) (eventType : EventType) (payload : Dict) : Act Unit :=
  ExceptT.lift (ask (.append h.taskId c.step eventType payload))

/-- `_audit_term` and the return of its reason. -/
def stop (c : LoopCounters) (reason : TerminationReason) : Prog Call Resp Outcome := do
  ask (.append h.taskId c.step .termination (terminationPayload reason))
  return .inr reason

def retrieveMemories : Act (List MemoryRow) :=
  if h.memoryStore then do
    let rows ← ExceptT.mk (ask .retrieve)
    return rows.filter MemoryRow.isGovernanceUsable
  else return []

/-- The messages of a turn, once the memories are there. -/
def messages (task : Str) (s : LoopState) (memories : List MemoryRow) : List Message :=
  let prompts := match h.promptBuilder with
    | some b => (b.systemPrompt (max 0 (h.config.limits.maxSteps - s.c.step)), b.toolProtocol)
    | none => ([], [])
  buildContext prompts.1 prompts.2 task s.recentSteps s.lastFeedback memories
    h.config.memory.contextBudgetChars

def build (task : Str) (s : LoopState) : Act (List Message) := do
  return h.messages task s (← h.retrieveMemories)

/-- `_complete_with_retry` with `n` attempts left; `none` is the final exception. -/
def completeWithRetry (messages : List Message) : ℕ → Prog Call Resp (Option Str)
  | 0 => return none
  | n + 1 => do
    match ← ask (.complete messages) with
    | .ok raw => return some raw
    | .error _ => completeWithRetry messages n

/-- The counters after a step that failed. -/
def failStep (c : LoopCounters) : LoopCounters :=
  { c with step := c.step + 1, consecutiveFailures := c.consecutiveFailures + 1 }

/-- The turn of a text that is not an action. -/
def parseFailure (s : LoopState) (raw : Str) (exc : Exn) : Act Outcome := do
  let c := { s.c with invalidActions := s.c.invalidActions + 1 }
  let lastFeedback := "PARSE_ERROR: ".toList ++ exc.text
  h.log c .actionProposed (parseErrorPayload raw exc.text)
  h.log c .feedback (feedbackPayload "INVALID_ACTION" lastFeedback)
  return .inl { s with c := c, lastFeedback := lastFeedback }

/-- The state behind a step that was stopped before anything ran. -/
def afterRefusal (s : LoopState) (action : Action) (verdict : GovernanceVerdict)
    (category summary lastFeedback : Str) : LoopState :=
  { s with
    c := failStep s.c
    lastFeedback := lastFeedback
    recentSteps := appendStep s.recentSteps action verdict (some category) summary h.config.limits }

def superseded (s : LoopState) (verdict : GovernanceVerdict) (result : ToolResult)
    (action : Action) : Act LoopState := do
  h.log s.c .approvalDecided (supersededPayload action result)
  let lastFeedback := formatFeedback "POLICY_DENIED" result
  h.log s.c .feedback (feedbackPayload "POLICY_DENIED" lastFeedback)
  return h.afterRefusal s action verdict "POLICY_DENIED" result.summary lastFeedback

def rejected (s : LoopState) (verdict : GovernanceVerdict) (action : Action) : Act LoopState := do
  h.log s.c .approvalDecided (approvalPayload action "REJECTED")
  return h.afterRefusal s action verdict "APPROVAL_REJECTED" []
    "APPROVAL_REJECTED: action was not approved".toList

/-- The verdict, the result and the action with which a turn goes on. -/
abbrev Gated := GovernanceVerdict × Option ToolResult × Action

/-- The branch of a verdict REQUIRE_APPROVAL. The approval is bound to the
fingerprint of the action before the resolver sees it. -/
def approve (s : LoopState) (verdict : GovernanceVerdict) (action : Action) :
    Act (LoopState ⊕ Gated) := do
  let approvedFp := fingerprint h.sha256 action
  let (approved, action, verdict) ←
    if h.approvalResolver then ExceptT.mk (ask (.resolve action verdict))
    else pure (false, action, verdict)
  if approved then
    let (result, action) ← ExceptT.mk (ask (.executeApproved action approvedFp))
    if result.flagged "superseded" then
      return .inl (← h.superseded s verdict result action)
    else
      h.log s.c .approvalDecided (approvalPayload action "APPROVED")
      return .inr (verdict, some result, action)
  else
    return .inl (← h.rejected s verdict action)

/-- The counters and the feedback of an executed action that is not `finish`. -/
def recordResult (c : LoopCounters) (noProgress : Bool) (failureCat : Option Str)
    (result : ToolResult) : LoopCounters × Str :=
  if noProgress then
    ({ c with step := c.step + 1, noProgressHits := c.noProgressHits + 1 },
      "NO_PROGRESS: repeated action detected")
  else match failureCat with
    | some cat => (failStep c, formatFeedback cat result)
    | none => ({ c with step := c.step + 1, consecutiveFailures := 0 }, [])

/-- The state behind an executed action that is not `finish`. -/
def afterExecution (s : LoopState) (verdict : GovernanceVerdict) (result : ToolResult)
    (action : Action) : LoopState :=
  let failureCat := (classify result).map Category.value
  let seen := s.tracker.seen (fingerprint h.sha256 action)
  let recorded := recordResult s.c seen.1 failureCat result
  { c := recorded.1
    lastFeedback := recorded.2
    recentSteps := appendStep s.recentSteps action verdict failureCat result.summary h.config.limits
    tracker := seen.2 }

/-- An executed `finish`: only the final verifier ends the run. -/
def finish (s : LoopState) : Act Outcome := do
  if ← ExceptT.mk (ask .verify) then
    ExceptT.lift (h.stop s.c .completed)
  else
    let lastFeedback := "FINISH_REJECTED: final verification failed".toList
    h.log s.c .feedback (feedbackPayload "FINISH_REJECTED" lastFeedback)
    return .inl { s with c := failStep s.c, lastFeedback := lastFeedback }

/-- The rest of a turn whose approval, if one was needed, was granted. -/
def conclude (s : LoopState) : Gated → Act Outcome
  | (verdict, result, action) =>
    if verdict.decision = .deny then
      match result with
      | none => throw ⟨.attributeError, "'NoneType' object has no attribute 'summary'"⟩
      | some result => do
        let lastFeedback := formatFeedback "POLICY_DENIED" result
        h.log s.c .feedback (feedbackPayload "POLICY_DENIED" lastFeedback)
        return .inl (h.afterRefusal s action verdict "POLICY_DENIED" result.summary lastFeedback)
    else
      match result with
      | none => throw ⟨.assertionError, []⟩
      | some result => do
        h.log s.c .toolExecuted (toolPayload action result)
        if action.tool = "finish" then
          h.finish s
        else
          let next := h.afterExecution s verdict result action
          h.log next.c .feedback (feedbackPayload
            (((classify result).map Category.value).getD "SUCCESS") next.lastFeedback)
          return .inl next

/-- The turn of a parsed action. -/
def act (s : LoopState) (action : Action) : Act Outcome := do
  let s := { s with c := { s.c with invalidActions := 0 } }
  h.log s.c .actionProposed (proposedPayload action)
  let (verdict, result, action) ← ExceptT.mk (ask (.dispatch action))
  h.log s.c .governanceDecision (decisionPayload action verdict)
  if verdict.decision = .requireApproval then
    match ← h.approve s verdict action with
    | .inl next => return .inl next
    | .inr gated => h.conclude s gated
  else
    h.conclude s (verdict, result, action)

/-- The body of the `try` block. -/
def attempt (task : Str) (s : LoopState) : Act Outcome := do
  let messages ← h.build task s
  match ← ExceptT.lift (completeWithRetry messages h.config.limits.llmMaxRetries.toNat) with
  | none => ExceptT.lift (h.stop s.c .llmError)
  | some raw =>
    match h.parseAction raw with
    | .ok action => h.act s action
    | .error exc =>
      if exc.kind = .actionParseError then h.parseFailure s raw exc else throw exc

/-- `cancel_check is not None and cancel_check()`. -/
def cancelled : Prog Call Resp Bool :=
  if h.cancelCheck then ask .cancelCheck else return false

/-- One iteration of the `while True` loop. -/
def turn (task : Str) (start : ℤ) (s : LoopState) : Prog Call Resp Outcome := do
  let now ← ask .monotonic
  match decideTermination s.c h.config.limits (now - start) with
  | some reason => h.stop s.c reason
  | none =>
    if ← h.cancelled then
      h.stop s.c .cancelled
    else
      match ← (h.attempt task s).run with
      | .ok outcome => return outcome
      | .error _ => h.stop s.c .internalError

/-- The state before the first turn. -/
def initialState : LoopState where
  c := {}
  lastFeedback := []
  recentSteps := []
  tracker := { window := h.config.limits.noProgressRepeatLimit.toNat, recent := [] }

/-- `run` with a budget of loop iterations; `none` says that the budget ran out.
The window of the tracker must not be negative. -/
def run (fuel : ℕ) (task : Str) : Prog Call Resp (Option (Except Exn TerminationReason)) :=
  if h.config.limits.noProgressRepeatLimit < 0 then
    return some (.error ⟨.valueError, "maxlen must be non-negative"⟩)
  else do
    let start ← ask .monotonic
    return (← loop (h.turn task start) fuel h.initialState).map .ok

end HarnessCore

end AegisCode
