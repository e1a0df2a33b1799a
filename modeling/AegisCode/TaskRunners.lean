import AegisCode.Harness

/-!
# The runners of a task

`_run_inline` and `_run_in_thread` as programs over the stages of a run. Each stage may
raise; only `harness.run` is guarded. The row of the task is written once, at the end.
-/
namespace AegisCode

open Program Prog

/-! ## Rows of the tasks table -/

inductive TaskState where
  | running
  | completed
  | cancelled
  | failed
  deriving DecidableEq, Repr

/-- `_TERMINAL_STATES`. -/
def TaskState.terminal (state : TaskState) : Bool := state ≠ .running

structure TaskRow where
  taskId : Str
  workspacePath : Str
  workspaceHash : Str
  taskDescription : Str
  state : TaskState := .running
  terminationReason : Option TerminationReason := none
  stepCount : ℕ := 0

/-- `_termination_to_state`. -/
def terminationToState (reason : TerminationReason) : TaskState :=
  if reason = .completed then .completed
  else if reason = .cancelled then .cancelled
  else .failed

theorem terminal_terminationToState (reason : TerminationReason) :
    (terminationToState reason).terminal = true := by
  unfold terminationToState
  split_ifs <;> rfl

/-! ## The stages of a run -/

inductive RunnerCall where
  | openDb
  | harnessFactory
  | harnessRun (description : Str)
  | projectSteps
  | updateState (state : TaskState) (reason : TerminationReason) (stepCount : ℕ)
  | close

@[reducible] def RunnerResp : RunnerCall → Type
  | .openDb => Except Exn Unit
  | .harnessFactory => Except Exn Unit
  | .harnessRun _ => Except Exn TerminationReason
  | .projectSteps => Except Exn ℕ
  | .updateState _ _ _ => Unit
  | .close => Unit

/-- A stage of a run with its outcome. -/
abbrev RunnerEv := Event RunnerCall RunnerResp

abbrev Running := ExceptT Exn (Prog RunnerCall RunnerResp)

/-- `try: reason = harness.run(description) except Exception`. -/
def guardedReason : Except Exn TerminationReason → TerminationReason
  | .ok reason => reason
  | .error _ => .internalError

/-- What both runners do with a harness. -/
def runHarness (description : Str) : Running Unit := do
  ExceptT.mk (perform RunnerCall.harnessFactory)
  let reason := guardedReason (← ExceptT.lift (perform (RunnerCall.harnessRun description)))
  let stepCount ← ExceptT.mk (perform RunnerCall.projectSteps)
  ExceptT.lift (perform (RunnerCall.updateState (terminationToState reason) reason stepCount))

/-- `_run_inline`. -/
def runInline (description : Str) : Running Unit := runHarness description

/-- `try: ... finally: thread_conn.close()`. -/
def finallyClose (body : Running Unit) : Running Unit := ExceptT.mk do
  let out ← body.run
  perform RunnerCall.close
  return out

/-- `_run_in_thread`, which takes its cancellation flag from the ones of the service. -/
def runInThread (cancelFlags : List Str) (taskId description : Str) : Running Unit := do
  ExceptT.mk (perform RunnerCall.openDb)
  finallyClose do
    if taskId ∉ cancelFlags then throw ⟨.keyError, Str.repr taskId⟩
    runHarness description

/-! ## The row behind a run -/

/-- The row behind a stage: `update_state` writes the state, the reason and the count. -/
def TaskRow.behind (row : TaskRow) : RunnerEv → TaskRow
  | ⟨.updateState state reason stepCount, _⟩ =>
    { row with state := state, terminationReason := some reason, stepCount := stepCount }
  | _ => row

def TaskRow.behindAll (row : TaskRow) (tr : List RunnerEv) : TaskRow := tr.foldl .behind row

/-- The row is that of a run that came to its end. -/
def TaskRow.Settled (row : TaskRow) : Prop :=
  row.state.terminal = true ∧ row.terminationReason.isSome = true

instance (row : TaskRow) : Decidable row.Settled := inferInstanceAs (Decidable (_ ∧ _))

/-- The stage did not raise, or it is the guarded one. -/
def Smooth : RunnerEv → Prop
  | ⟨.openDb, .error _⟩ => False
  | ⟨.harnessFactory, .error _⟩ => False
  | ⟨.projectSteps, .error _⟩ => False
  | _ => True

/-- The last stage, which writes the row. -/
def updated (reason : TerminationReason) (stepCount : ℕ) : RunnerEv :=
  ⟨.updateState (terminationToState reason) reason stepCount, ()⟩

section Runs
variable {tr : List RunnerEv} {out : Except Exn Unit} {row : TaskRow} {description : Str}

/-- The stages that a run with a harness can come by. -/
inductive RunsHarness (description : Str) : List RunnerEv → Except Exn Unit → Prop
  | factoryRaised (e : Exn) : RunsHarness description [⟨.harnessFactory, .error e⟩] (.error e)
  | projectionRaised (r : Except Exn TerminationReason) (e : Exn) :
      RunsHarness description
        [⟨.harnessFactory, .ok ()⟩, ⟨.harnessRun description, r⟩, ⟨.projectSteps, .error e⟩]
        (.error e)
  | finished (r : Except Exn TerminationReason) (stepCount : ℕ) :
      RunsHarness description
        [⟨.harnessFactory, .ok ()⟩, ⟨.harnessRun description, r⟩, ⟨.projectSteps, .ok stepCount⟩,
          updated (guardedReason r) stepCount]
        (.ok ())

theorem runHarness_cases (hrun : Runs (runHarness description).run tr out) :
    RunsHarness description tr out := by
  obtain ⟨e, hfactory, rfl⟩ | ⟨_, _, t, rfl, hfactory, hrest⟩ := runs_except_bind.mp hrun
  · obtain rfl := runs_perform.mp hfactory
    exact .factoryRaised e
  · obtain rfl := runs_perform.mp hfactory
    obtain ⟨_, r, t, rfl, hran, hprojection⟩ := runs_lift_bind.mp hrest
    obtain rfl := runs_perform.mp hran
    obtain ⟨e, hproject, rfl⟩ | ⟨_, stepCount, t, rfl, hproject, hupdate⟩ :=
      runs_except_bind.mp hprojection
    · obtain rfl := runs_perform.mp hproject
      exact .projectionRaised r e
    · obtain rfl := runs_perform.mp hproject
      obtain ⟨_, rfl, hlast⟩ := runs_lift.mp hupdate
      obtain rfl := runs_perform.mp hlast
      exact .finished r stepCount

/-- The row is settled when the factory and the projection went through. -/
theorem RunsHarness.settled_iff (hx : RunsHarness description tr out)
    (hrunning : row.state = .running) :
    (row.behindAll tr).Settled ↔ ∀ e ∈ tr, Smooth e := by
  cases hx with
  | factoryRaised e =>
    simp [TaskRow.behindAll, TaskRow.behind, TaskRow.Settled, Smooth, hrunning, TaskState.terminal]
  | projectionRaised r e =>
    simp [TaskRow.behindAll, TaskRow.behind, TaskRow.Settled, Smooth, hrunning, TaskState.terminal]
  | finished r stepCount =>
    simp [TaskRow.behindAll, TaskRow.behind, TaskRow.Settled, Smooth, updated,
      terminal_terminationToState]

theorem finallyClose_cases {body : Running Unit} (hrun : Runs (finallyClose body).run tr out) :
    ∃ t, tr = t ++ [⟨.close, ()⟩] ∧ Runs body.run t out := by
  obtain ⟨t, r, t', rfl, hbody, hclose⟩ := runs_bind.mp hrun
  obtain ⟨_, t', rfl, hret⟩ := runs_perform_bind.mp hclose
  obtain ⟨rfl, rfl⟩ := runs_pure.mp hret
  exact ⟨t, rfl, hbody⟩

theorem behindAll_close (row : TaskRow) (t : List RunnerEv) :
    row.behindAll (t ++ [⟨.close, ()⟩]) = row.behindAll t := by
  rw [TaskRow.behindAll, List.foldl_append]
  rfl

/-- A thread settles its row when its connection opens, its flag is there, and the
stages of the run that are not guarded go through. -/
theorem runInThread_settled_iff {cancelFlags : List Str} (hrunning : row.state = .running)
    (hrun : Runs (runInThread cancelFlags row.taskId description).run tr out) :
    (row.behindAll tr).Settled ↔ row.taskId ∈ cancelFlags ∧ ∀ e ∈ tr, Smooth e := by
  obtain ⟨e, hopen, rfl⟩ | ⟨_, _, t, rfl, hopen, hrest⟩ := runs_except_bind.mp hrun
  · obtain rfl := runs_perform.mp hopen
    simp [TaskRow.behindAll, TaskRow.behind, TaskRow.Settled, Smooth, hrunning, TaskState.terminal]
  · obtain rfl := runs_perform.mp hopen
    obtain ⟨t, rfl, hbody⟩ := finallyClose_cases hrest
    have hopened : row.behindAll ([⟨.openDb, .ok ()⟩] ++ (t ++ [⟨.close, ()⟩])) =
        row.behindAll t := by
      rw [← List.append_assoc, behindAll_close]
      rfl
    have hends : (∀ e ∈ [⟨.openDb, .ok ()⟩] ++ (t ++ [⟨.close, ()⟩]), Smooth e) ↔
        ∀ e ∈ t, Smooth e := by
      simp only [List.forall_mem_append, List.forall_mem_singleton]
      exact ⟨fun h => h.2.1, fun h => ⟨trivial, h, trivial⟩⟩
    rw [hopened, hends]
    by_cases hflag : row.taskId ∈ cancelFlags
    · rw [if_neg (not_not.mpr hflag)] at hbody
      rw [(runHarness_cases hbody).settled_iff hrunning, and_iff_right hflag]
    · rw [if_pos hflag] at hbody
      obtain ⟨rfl, rfl⟩ := runs_pure.mp hbody
      simp [TaskRow.behindAll, TaskRow.Settled, hrunning, TaskState.terminal, hflag]

end Runs

/-- When a runner is done with a running task, in whatever way, the row of the task is
settled exactly when the stages outside the guard went through: the connection of the
thread and its flag, the factory of the harness, and the projection of the steps. -/
theorem runner_settles_iff (cancelFlags : List Str) (row : TaskRow)
    (hrunning : row.state = .running) :
    (∀ tr out, Runs (runInline row.taskDescription).run tr out →
      ((row.behindAll tr).Settled ↔ ∀ e ∈ tr, Smooth e)) ∧
    ∀ tr out, Runs (runInThread cancelFlags row.taskId row.taskDescription).run tr out →
      ((row.behindAll tr).Settled ↔ row.taskId ∈ cancelFlags ∧ ∀ e ∈ tr, Smooth e) := by
  constructor
  · intro tr out hrun
    exact (runHarness_cases hrun).settled_iff hrunning
  · intro tr out hrun
    exact runInThread_settled_iff hrunning hrun

/-! ## A task left running -/

def startedRow : TaskRow where
  taskId := "t1"
  workspacePath := "/workspace"
  workspaceHash := "9f86d081884c7d65"
  taskDescription := "fix the tests"

def unregistered : Exn := ⟨.keyError, "'/workspace'"⟩

/-- The factory does not know the workspace. -/
def unbuiltRun : List RunnerEv := [⟨.harnessFactory, .error unregistered⟩]

theorem unbuiltRun_runs :
    Runs (runInline startedRow.taskDescription).run unbuiltRun (.error unregistered) :=
  .call (.ret _)

theorem runner_settles_iff_unbuilt :
    (startedRow.behindAll unbuiltRun).Settled ↔ ∀ e ∈ unbuiltRun, Smooth e :=
  (runner_settles_iff [] startedRow rfl).1 _ _ unbuiltRun_runs

/-- A harness that cannot be built leaves its task running. -/
theorem unbuilt_task_left_running :
    ¬ ∀ (row : TaskRow) (tr : List RunnerEv) (out : Except Exn Unit), row.state = .running →
      Runs (runInline row.taskDescription).run tr out → (row.behindAll tr).Settled := by
  intro h
  exact absurd (h startedRow unbuiltRun _ rfl unbuiltRun_runs) (by decide)

end AegisCode
