import AegisCode.FinalVerifier
import AegisCode.TaskRunners

/-!
# What the row of a task says

A runner writes the row of its task from the reason that its loop returned. So the row of a
task says what the loop came to: whether the tests passed, and whether the run was cancelled.
-/
namespace AegisCode

open Program Prog

/-! ## Cancelled runs -/

namespace HarnessCore

section Cancelled
variable {h : HarnessCore} {task : Str} {start : ℤ} {s : LoopState} {t : List Ev}

theorem Retrieves.cancelCheck_not_mem {memories : List MemoryRow} (hr : h.Retrieves t memories) :
    (⟨.cancelCheck, true⟩ : Ev) ∉ t := by
  cases hr <;> simp

theorem Completes.cancelCheck_not_mem {messages : List Message} {n : ℕ} {out : Option Str}
    (hc : Completes messages n t out) : (⟨.cancelCheck, true⟩ : Ev) ∉ t :=
  fun hmem => by cases hc.mem_call hmem

theorem Concludes.cancelCheck_not_mem {gated : Gated} {out : Except Exn Outcome}
    (hc : h.Concludes s gated t out) : (⟨.cancelCheck, true⟩ : Ev) ∉ t := by
  cases hc <;> simp

theorem Approves.cancelCheck_not_mem {verdict : GovernanceVerdict} {action : Action}
    {out : Except Exn (LoopState ⊕ Gated)} (ha : h.Approves s verdict action t out) :
    (⟨.cancelCheck, true⟩ : Ev) ∉ t := by
  cases ha <;> simp

theorem Acts.cancelCheck_not_mem {action : Action} {out : Except Exn Outcome}
    (ha : h.Acts s action t out) : (⟨.cancelCheck, true⟩ : Ev) ∉ t := by
  cases ha with
  | dispatchRaised e => simp
  | judged _ hc => simpa using hc.cancelCheck_not_mem
  | approvalRaised e _ ha => simpa using ha.cancelCheck_not_mem
  | unapproved _ ha => simpa using ha.cancelCheck_not_mem
  | approved _ ha hc => simpa [ha.cancelCheck_not_mem] using hc.cancelCheck_not_mem

theorem Attempts.cancelCheck_not_mem {out : Except Exn Outcome} (ha : h.Attempts task s t out) :
    (⟨.cancelCheck, true⟩ : Ev) ∉ t := by
  cases ha with
  | memoryRaised e _ => simp
  | llmError hr hc => simp [hr.cancelCheck_not_mem, hc.cancelCheck_not_mem]
  | unparsed hr hc _ _ => simp [hr.cancelCheck_not_mem, hc.cancelCheck_not_mem]
  | parserRaised hr hc _ _ => simp [hr.cancelCheck_not_mem, hc.cancelCheck_not_mem]
  | acted hr hc _ ha =>
    simp [hr.cancelCheck_not_mem, hc.cancelCheck_not_mem, ha.cancelCheck_not_mem]

theorem cancelCheck_not_mem_opening (now : ℤ) : (⟨.cancelCheck, true⟩ : Ev) ∉ h.opening now := by
  unfold opening
  split <;> simp

/-- A turn is cancelled exactly when it saw the flag. -/
theorem turn_cancelled_iff {outcome : Outcome} (hrun : Runs (h.turn task start s) t outcome) :
    (⟨.cancelCheck, true⟩ : Ev) ∈ t ↔ outcome = .inr .cancelled := by
  cases turn_cases hrun with
  | limit now hterm =>
    constructor
    · intro hmem
      simp at hmem
    · rintro ⟨⟩
      cases decideTermination_preStep hterm
  | cancelled now _ _ => simp
  | attempted now _ ha =>
    simp only [List.mem_append, cancelCheck_not_mem_opening, ha.cancelCheck_not_mem, or_false,
      false_iff]
    rintro rfl
    obtain hreason | hreason := ha.reason <;> cases hreason
  | failed now e _ ha =>
    simp [cancelCheck_not_mem_opening, ha.cancelCheck_not_mem]

/-- A run returns CANCELLED exactly when it saw the flag. -/
theorem run_cancelled_iff {fuel : ℕ} {reason : TerminationReason}
    (hrun : Runs (h.run fuel task) t (some (.ok reason))) :
    (⟨.cancelCheck, true⟩ : Ev) ∈ t ↔ reason = .cancelled := by
  obtain ⟨start, s, ts, last, rfl, hit, hlast⟩ := run_returns hrun
  have hbefore : (⟨.cancelCheck, true⟩ : Ev) ∉ ⟨.monotonic, start⟩ :: ts.flatten := by
    intro hmem
    obtain habs | hmem := List.mem_cons.mp hmem
    · cases habs
    · obtain ⟨u, hu, hcancel⟩ := List.mem_flatten.mp hmem
      obtain ⟨_, _, _, _, hstep⟩ := hit.mem hu
      cases (turn_cancelled_iff hstep).mp hcancel
  rw [← List.cons_append, List.mem_append, or_iff_right hbefore, turn_cancelled_iff hlast,
    Sum.inr.injEq]

/-- Only a run that looks at nothing raises. -/
theorem run_raised {fuel : ℕ} {e : Exn} (hrun : Runs (h.run fuel task) t (some (.error e))) :
    t = [] := by
  unfold run at hrun
  by_cases hwindow : h.config.limits.noProgressRepeatLimit < 0
  · rw [if_pos hwindow] at hrun
    exact (runs_pure.mp hrun).1
  · rw [if_neg hwindow] at hrun
    obtain ⟨start, t, rfl, hrest⟩ := runs_perform_bind.mp hrun
    obtain ⟨t₁, r, t₂, rfl, hloop, hret⟩ := runs_bind.mp hrest
    obtain ⟨rfl, hout⟩ := runs_pure.mp hret
    cases r <;> cases hout

end Cancelled

end HarnessCore

/-! ## The loop behind a runner -/

section Runner
variable {row : TaskRow} {tr : List RunnerEv} {out : Except Exn Unit} {cancelFlags : List Str}

/-- Either way to run a task. -/
inductive RunsTask (cancelFlags : List Str) (row : TaskRow) (tr : List RunnerEv)
    (out : Except Exn Unit) : Prop
  | inline : Runs (runInline row.taskDescription).run tr out → RunsTask cancelFlags row tr out
  | thread : Runs (runInThread cancelFlags row.taskId row.taskDescription).run tr out →
      RunsTask cancelFlags row tr out

/-- The stages of a runner that concern the harness; some runners do not get to them. -/
structure Stages (row : TaskRow) (tr t : List RunnerEv) : Prop where
  cases : t = [] ∨ ∃ out, RunsHarness row.taskDescription t out
  behind : row.behindAll tr = row.behindAll t
  ran : ∀ r, ⟨.harnessRun row.taskDescription, r⟩ ∈ tr ↔ ⟨.harnessRun row.taskDescription, r⟩ ∈ t

theorem stages_of_runs (hrun : RunsTask cancelFlags row tr out) : ∃ t, Stages row tr t := by
  cases hrun with
  | inline hrun => exact ⟨tr, .inr ⟨out, runHarness_cases hrun⟩, rfl, fun _ => Iff.rfl⟩
  | thread hrun =>
    obtain ⟨e, hopen, rfl⟩ | ⟨_, _, t, rfl, hopen, hrest⟩ := runs_except_bind.mp hrun
    · obtain rfl := runs_perform.mp hopen
      exact ⟨[], .inl rfl, rfl, fun r => by simp⟩
    · obtain rfl := runs_perform.mp hopen
      obtain ⟨t, rfl, hbody⟩ := finallyClose_cases hrest
      have hbehind : row.behindAll ([⟨.openDb, .ok ()⟩] ++ (t ++ [⟨.close, ()⟩])) =
          row.behindAll t := by
        rw [← List.append_assoc, behindAll_close]
        rfl
      refine ⟨t, ?_, hbehind, fun r => by simp⟩
      by_cases hflag : row.taskId ∈ cancelFlags
      · rw [if_neg (not_not.mpr hflag)] at hbody
        exact .inr ⟨out, runHarness_cases hbody⟩
      · rw [if_pos hflag] at hbody
        exact .inl (runs_pure.mp hbody).1

end Runner

section Outcome
variable {config : ServiceConfig} {relpath : Str → Str → Str} {workspace : Str} {h : HarnessCore}
  {fuel : ℕ}

/-- The steps of the loop that a runner ran, over the assembled service; there are none if
it did not get to the loop. -/
structure LoopBehind (config : ServiceConfig) (relpath : Str → Str → Str) (workspace : Str)
    (h : HarnessCore) (fuel : ℕ) (description : Str) (tr : List RunnerEv) (steps : List HostStep) :
    Prop where
  linked : ∀ f ∈ steps, Linked (config.assembled relpath workspace h.sha256) f
  ran : ∀ r, ⟨.harnessRun description, r⟩ ∈ tr →
    Runs (h.run fuel description) (steps.map Frame.event) (some r)
  idle : (∀ r, ⟨.harnessRun description, r⟩ ∉ tr) → steps = []

/-- What a row says, at `row'`, of the steps of the loop. -/
structure RowTells (config : ServiceConfig) (workspace : Str) (row row' : TaskRow)
    (steps : List HostStep) : Prop where
  written : row' = row ∨ row'.Settled
  completed : row'.state = .completed ↔
    row'.Settled ∧ ∃ f ∈ steps, TestsPassed config workspace f
  cancelled : row'.state = .cancelled ↔
    row'.Settled ∧ ⟨.cancelCheck, true⟩ ∈ steps.map Frame.event

/-- A row that was not written says nothing. -/
theorem tells_running {row : TaskRow} (hrunning : row.state = .running) (steps : List HostStep) :
    RowTells config workspace row row steps := by
  constructor
  · exact .inl rfl
  · simp [TaskRow.Settled, hrunning, TaskState.terminal]
  · simp [TaskRow.Settled, hrunning, TaskState.terminal]

theorem terminationToState_completed (reason : TerminationReason) :
    terminationToState reason = .completed ↔ reason = .completed := by
  unfold terminationToState
  split_ifs <;> simp_all

theorem terminationToState_cancelled (reason : TerminationReason) :
    terminationToState reason = .cancelled ↔ reason = .cancelled := by
  unfold terminationToState
  split_ifs <;> simp_all

/-- The reason that the runner writes is that of the loop; a loop that raised took no step. -/
theorem guardedReason_iff {description : Str} {steps : List HostStep}
    {r : Except Exn TerminationReason}
    (hlinked : ∀ f ∈ steps, Linked (config.assembled relpath workspace h.sha256) f)
    (hruns : Runs (h.run fuel description) (steps.map Frame.event) (some r)) :
    (guardedReason r = .completed ↔ ∃ f ∈ steps, TestsPassed config workspace f) ∧
      (guardedReason r = .cancelled ↔ ⟨.cancelCheck, true⟩ ∈ steps.map Frame.event) := by
  cases r with
  | error e =>
    obtain rfl := List.map_eq_nil_iff.mp (HarnessCore.run_raised hruns)
    simp [guardedReason]
  | ok reason =>
    exact ⟨reason_completed_iff hruns hlinked, (HarnessCore.run_cancelled_iff hruns).symm⟩

/-- What the row of a task says when its runner is done, however the stages came out: it is
settled or as it was. A settled row says COMPLETED exactly if the command of the tests ended
with exit code 0 in the workspace, and CANCELLED exactly if the loop saw the flag. -/
theorem task_row_of_run (config : ServiceConfig) (relpath : Str → Str → Str) (workspace : Str)
    (h : HarnessCore) (fuel : ℕ) (cancelFlags : List Str) (row : TaskRow)
    (hrunning : row.state = .running) (tr : List RunnerEv) (out : Except Exn Unit)
    (hrun : RunsTask cancelFlags row tr out) (steps : List HostStep)
    (hloop : LoopBehind config relpath workspace h fuel row.taskDescription tr steps) :
    RowTells config workspace row (row.behindAll tr) steps := by
  obtain ⟨t, hcases, hbehind, hran⟩ := stages_of_runs hrun
  rw [hbehind]
  obtain rfl | ⟨_, hstages⟩ := hcases
  · exact tells_running hrunning steps
  · cases hstages with
    | factoryRaised e => exact tells_running hrunning steps
    | projectionRaised r e => exact tells_running hrunning steps
    | finished r stepCount =>
      have hruns := hloop.ran r ((hran r).mpr (by simp))
      obtain ⟨hcompleted, hcancelled⟩ := guardedReason_iff hloop.linked hruns
      have hsettled : (row.behindAll [⟨.harnessFactory, .ok ()⟩,
          ⟨.harnessRun row.taskDescription, r⟩, ⟨.projectSteps, .ok stepCount⟩,
          updated (guardedReason r) stepCount]).Settled :=
        ⟨terminal_terminationToState _, rfl⟩
      constructor
      · exact .inr hsettled
      · rw [and_iff_right hsettled, ← hcompleted]
        exact terminationToState_completed _
      · rw [and_iff_right hsettled, ← hcancelled]
        exact terminationToState_cancelled _

end Outcome

/-! ## A task whose tests pass -/

/-- The stages of a thread whose loop is the run that finishes. -/
def passingStages : List RunnerEv :=
  [⟨.openDb, .ok ()⟩, ⟨.harnessFactory, .ok ()⟩, ⟨.harnessRun "fix the bug", .ok .completed⟩,
    ⟨.projectSteps, .ok 1⟩, updated .completed 1, ⟨.close, ()⟩]

def passingRow : TaskRow := { startedRow with taskDescription := "fix the bug" }

theorem passingStages_loop : LoopBehind {} (fun fp _ => fp) "/ws" HarnessCore.finishingHarness 2
    "fix the bug" passingStages passingRun where
  linked := passingRun_linked
  ran r hr := by
    obtain rfl : r = .ok .completed := by simpa [passingStages, updated] using hr
    exact HarnessCore.finishingRun_runs
  idle hno := absurd (by simp [passingStages]) (hno (.ok .completed))

theorem task_row_of_run_passing :
    RowTells {} "/ws" passingRow (passingRow.behindAll passingStages) passingRun :=
  task_row_of_run {} (fun fp _ => fp) "/ws" HarnessCore.finishingHarness 2 ["t1"] passingRow rfl
    passingStages (.ok ())
    (.thread (.call (.call (.call (.call (.call (.call (.ret _)))))))) passingRun
    passingStages_loop

end AegisCode
