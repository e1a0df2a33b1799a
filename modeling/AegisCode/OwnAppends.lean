import AegisCode.Harness
import AegisCode.Interpretation

/-!
# The events of a harness

Whatever a run of the loop is answered, every event it writes is one of its own task.
-/
namespace AegisCode.HarnessCore

open Program Prog

/-- The call writes no event, or one of this task. -/
def OwnAppend (taskId : Str) : Call → Prop
  | .append taskId' _ _ _ => taskId' = taskId
  | _ => True

namespace OwnAppends
variable {h : HarnessCore}

/-- Every event the program can write is one of its task. -/
abbrev Of {β : Type} (h : HarnessCore) (p : Prog Call Resp β) : Prop :=
  AllCalls (OwnAppend h.taskId) p

theorem append (c : LoopCounters) (eventType : EventType) (payload : Dict) :
    Of h (ask (.append h.taskId c.step eventType payload)) :=
  allCalls_perform (rfl : h.taskId = h.taskId)

theorem log (c : LoopCounters) (eventType : EventType) (payload : Dict) :
    Of h (h.log c eventType payload).run :=
  allCalls_lift (append c eventType payload)

theorem stop (c : LoopCounters) (reason : TerminationReason) : Of h (h.stop c reason) :=
  (append c _ _).bind fun _ => trivial

theorem build (task : Str) (s : LoopState) : Of h (h.build task s).run := by
  refine AllCalls.except_bind ?_ fun _ => trivial
  unfold HarnessCore.retrieveMemories
  split
  · exact AllCalls.except_bind (allCalls_perform trivial) fun _ => trivial
  · trivial

theorem completeWithRetry (messages : List Message) (n : ℕ) :
    Of h (completeWithRetry messages n) := by
  induction n with
  | zero => trivial
  | succ n ih =>
      refine (allCalls_perform trivial).bind fun out => ?_
      cases out with
      | ok raw => trivial
      | error e => exact ih

theorem parseFailure (s : LoopState) (raw : Str) (exc : Exn) :
    Of h (h.parseFailure s raw exc).run :=
  (log _ _ _).except_bind fun _ => (log _ _ _).except_bind fun _ => trivial

theorem superseded (s : LoopState) (verdict : GovernanceVerdict) (result : ToolResult)
    (action : Action) : Of h (h.superseded s verdict result action).run :=
  (log _ _ _).except_bind fun _ => (log _ _ _).except_bind fun _ => trivial

theorem rejected (s : LoopState) (verdict : GovernanceVerdict) (action : Action) :
    Of h (h.rejected s verdict action).run :=
  (log _ _ _).except_bind fun _ => trivial

/-- The resolver is asked, if there is one, before the rest goes on. -/
theorem resolving {γ : Type} {verdict : GovernanceVerdict} {action : Action}
    {k : Bool × Action × GovernanceVerdict → Act γ} (hk : ∀ x, Of h (k x).run) :
    Of h (if h.approvalResolver then ExceptT.mk (ask (.resolve action verdict)) >>= k
      else pure (false, action, verdict) >>= k : Act γ).run := by
  split
  · exact AllCalls.except_bind (allCalls_perform trivial) hk
  · exact hk _

theorem approve (s : LoopState) (verdict : GovernanceVerdict) (action : Action) :
    Of h (h.approve s verdict action).run := by
  refine resolving fun resolved => ?_
  obtain ⟨approved, action, verdict⟩ := resolved
  cases approved with
  | false => exact (rejected _ _ _).except_bind fun _ => trivial
  | true =>
      refine AllCalls.except_bind (allCalls_perform trivial) fun executed => ?_
      obtain ⟨result, action⟩ := executed
      show Of h (ite _ _ _ : Act _).run
      split
      · exact (superseded _ _ _ _).except_bind fun _ => trivial
      · exact (log _ _ _).except_bind fun _ => trivial

theorem finish (s : LoopState) : Of h (h.finish s).run := by
  unfold HarnessCore.finish
  refine AllCalls.except_bind (allCalls_perform trivial) fun verified => ?_
  cases verified with
  | true => exact allCalls_lift (stop _ _)
  | false => exact (log _ _ _).except_bind fun _ => trivial

theorem conclude (s : LoopState) (gated : HarnessCore.Gated) : Of h (h.conclude s gated).run := by
  obtain ⟨verdict, result, action⟩ := gated
  show Of h (ite (verdict.decision = .deny) _ _ : Act Outcome).run
  split
  · cases result with
    | none => trivial
    | some result => exact (log _ _ _).except_bind fun _ => trivial
  · cases result with
    | none => trivial
    | some result =>
        refine (log _ _ _).except_bind fun _ => ?_
        split
        · exact finish s
        · exact (log _ _ _).except_bind fun _ => trivial

theorem act (s : LoopState) (action : Action) : Of h (h.act s action).run := by
  unfold HarnessCore.act
  refine (log _ _ _).except_bind fun _ => ?_
  refine AllCalls.except_bind (allCalls_perform trivial) fun dispatched => ?_
  obtain ⟨verdict, result, action⟩ := dispatched
  refine (log _ _ _).except_bind fun _ => ?_
  split
  · refine (approve _ _ _).except_bind fun out => ?_
    cases out with
    | inl next => trivial
    | inr gated => exact conclude _ gated
  · exact conclude _ _

theorem attempt (task : Str) (s : LoopState) : Of h (h.attempt task s).run := by
  refine (build task s).except_bind fun messages => ?_
  refine (allCalls_lift (completeWithRetry messages _)).except_bind fun out => ?_
  cases out with
  | none => exact allCalls_lift (stop _ _)
  | some raw =>
      dsimp only
      split
      · exact act s _
      · split
        · exact parseFailure s raw _
        · trivial

theorem turn (task : Str) (start : ℤ) (s : LoopState) : Of h (h.turn task start s) := by
  refine (allCalls_perform trivial).bind fun now => ?_
  split
  · exact stop _ _
  · refine AllCalls.bind ?_ fun cancelled => ?_
    · unfold HarnessCore.cancelled
      split
      · exact allCalls_perform trivial
      · trivial
    · cases cancelled with
      | true => exact stop _ _
      | false =>
          refine (attempt task s).bind fun out => ?_
          cases out with
          | ok outcome => trivial
          | error e => exact stop _ _

theorem run (h : HarnessCore) (fuel : ℕ) (task : Str) : Of h (h.run fuel task) := by
  unfold HarnessCore.run
  split
  · trivial
  · refine (allCalls_perform trivial).bind fun start => ?_
    exact (AllCalls.loop (turn task start) fuel _).bind fun _ => trivial

end OwnAppends
end AegisCode.HarnessCore
