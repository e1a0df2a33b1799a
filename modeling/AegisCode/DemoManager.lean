import AegisCode.DemoView
import AegisCode.Projection
import AegisCode.ThreadPool
import AegisCode.WorkspaceAdmission

/-!
# The demo manager

`start_run`, `get_run` and the run threads as programs over the dictionaries of the
manager, the temporary directories and the tables. Each call is one step on the shared
state, so that two reads of the dictionaries are two steps.
-/
namespace AegisCode

/-- The text in the column. -/
def TaskState.value : TaskState → Str
  | .running => "RUNNING"
  | .completed => "COMPLETED"
  | .cancelled => "CANCELLED"
  | .failed => "FAILED"

namespace Demo

open Program Prog ThreadPool
open Json (Decoder)

/-! ## The shared state -/

/-- A model with a script; `ref` tells one object from another. -/
structure MockLLM where
  ref : ℕ
  script : List Str

/-- What a harness is built from; without a scenario it is the fallback. -/
structure DemoHarness where
  taskId : Str
  workspace : Str
  scenario : Option DemoScenario
  llm : MockLLM

/-- The dictionaries of the manager, which workspaces are there, the tables, and the
harness that each runner holds. Of the past it keeps which thread made a directory, for
which workspace each model was made, and which thread runs a task. -/
structure DemoState where
  runMeta : Str → Option RunMeta
  wsToScenario : Str → Option Str
  wsLlms : Str → Option MockLLM
  isdir : Str → Bool
  tasks : Str → Option TaskRow
  auditEvents : List StoredEvent
  harnesses : Str → Option DemoHarness
  maker : Str → Option ℕ
  llms : List Str
  runner : Str → Option ℕ

/-- A manager without runs, on a table of the events of other tasks. -/
def DemoState.fresh (isdir : Str → Bool) (auditEvents : List StoredEvent) : DemoState where
  runMeta _ := none
  wsToScenario _ := none
  wsLlms _ := none
  isdir := isdir
  tasks _ := none
  auditEvents := auditEvents
  harnesses _ := none
  maker _ := none
  llms := []
  runner _ := none

/-- What a single reader of the state finds in the tables. -/
def DemoState.tables (s : DemoState) : RunTables where
  runMeta := s.runMeta
  tasks taskId := (s.tasks taskId).map fun row => row.state.value
  auditEvents := s.auditEvents

/-! ## The calls -/

inductive DemoCall where
  | metas
  | metaOf (runId : Str)
  | recordMeta (runId : Str) (runMeta : RunMeta)
  | scenarioOf (workspace : Str)
  | setScenario (workspace scenarioId : Str)
  | popScenario (workspace : Str)
  | llmOf (workspace : Str)
  | newLlm (workspace : Str) (script : List Str)
  | setLlm (workspace : Str) (llm : MockLLM)
  | popLlm (workspace : Str)
  | mkdtemp
  | materialize (fixture : Option Str) (workspace : Str)
  | isdir (path : Str)
  | rmtree (path : Str)
  | getTask (taskId : Str)
  | getEvents (taskId : Str) (since : ℤ)
  | build (harness : DemoHarness)
  | harnessOf (taskId : Str)
  | service (c : TaskCall)
  | runner (taskId : Str) (c : RunnerCall)
  | harness (taskId : Str) (c : Call)
  | exhausted

@[reducible] def DemoResp : DemoCall → Type
  | .metas => List (Str × RunMeta)
  | .metaOf _ => Option RunMeta
  | .recordMeta _ _ => Unit
  | .scenarioOf _ => Option Str
  | .setScenario _ _ => Unit
  | .popScenario _ => Unit
  | .llmOf _ => Option MockLLM
  | .newLlm _ _ => MockLLM
  | .setLlm _ _ => Unit
  | .popLlm _ => Unit
  | .mkdtemp => Except Exn Str
  | .materialize _ _ => Except Exn Unit
  | .isdir _ => Bool
  | .rmtree _ => Unit
  | .getTask _ => Option TaskRow
  | .getEvents _ _ => List StoredEvent
  | .build _ => Except Exn Unit
  | .harnessOf _ => Option DemoHarness
  | .service c => TaskResp c
  | .runner _ c => RunnerResp c
  | .harness _ c => Resp c
  | .exhausted => Empty

abbrev DemoProg := Prog DemoCall DemoResp

/-- What the methods of the manager raise. -/
inductive DemoError where
  | unknownScenario (scenarioId : Str)
  | keyError (key : Str)
  | admission (e : AdmissionError)
  | raised (e : Exn)

abbrev Managing := ExceptT DemoError DemoProg

/-- A part that raises an exception of its own. -/
def raising {ε α : Type} (wrap : ε → DemoError) (x : ExceptT ε DemoProg α) : Managing α :=
  ExceptT.mk (Except.mapError wrap <$> x.run)

/-- How the manager is set up: what its service has, and which loop is built of what a
harness is built from. -/
structure DemoSetup where
  decoder : Decoder
  sync : Bool
  digest : Digest
  config : AegisConfig
  core : DemoHarness → HarnessCore
  fuel : ℕ

/-! ## Cleaning up -/

def removeTree (workspace : Str) : DemoProg Unit :=
  if workspace = [] then return ()
  else do
    if ← perform (DemoCall.isdir workspace) then perform (DemoCall.rmtree workspace)
    else return ()

/-- `_cleanup_workspace`. -/
def cleanupWorkspace (workspace : Str) : DemoProg Unit := do
  removeTree workspace
  perform (DemoCall.popScenario workspace)
  perform (DemoCall.popLlm workspace)

/-- The sweep of one run. -/
def sweepRun (runId workspace : Str) : DemoProg Unit :=
  if workspace = [] then return ()
  else do
    if ← perform (DemoCall.isdir workspace) then
      match ← perform (DemoCall.getTask runId) with
      | none => return ()
      | some row => if row.state.terminal then cleanupWorkspace workspace else return ()
    else return ()

def sweepRuns : List (Str × RunMeta) → DemoProg Unit
  | [] => return ()
  | run :: runs => do
    sweepRun run.1 run.2.workspace
    sweepRuns runs

/-- `_sweep_orphaned_runs`, over the entries as they are at one time. -/
def sweepOrphanedRuns : DemoProg Unit := do
  sweepRuns (← perform DemoCall.metas)

/-! ## The runners -/

/-- `_harness_factory`. The fallback gets a model of its own, with an empty script. -/
def harnessFactory (taskId workspace : Str) : DemoProg (Except Exn Unit) := do
  match ← perform (DemoCall.scenarioOf workspace) with
  | none =>
    let llm ← perform (DemoCall.newLlm workspace [])
    perform (DemoCall.build ⟨taskId, workspace, none, llm⟩)
  | some scenarioId =>
    match getScenario scenarioId with
    | none => return .error ⟨.keyError, Str.repr scenarioId⟩
    | some scenario =>
      match ← perform (DemoCall.llmOf workspace) with
      | none => return .error ⟨.keyError, Str.repr workspace⟩
      | some llm => perform (DemoCall.build ⟨taskId, workspace, some scenario, llm⟩)

variable (u : DemoSetup)

/-- The loop of a harness writes its events under the task of the harness. -/
def DemoSetup.loopOf (h : DemoHarness) : HarnessCore := { u.core h with taskId := h.taskId }

/-- The calls of a loop, as those of the runner of the task. -/
def harnessImpl (taskId : Str) (c : Call) : DemoProg (Resp c) :=
  perform (DemoCall.harness taskId c)

/-- `harness.run(description)`. A run whose budget is used up goes no further. -/
def runLoop (taskId description : Str) : DemoProg (Except Exn TerminationReason) := do
  match ← perform (DemoCall.harnessOf taskId) with
  | none => return .error ⟨.other, "harness"⟩
  | some h =>
    match ← interpret (harnessImpl taskId) ((u.loopOf h).run u.fuel description) with
    | some out => return out
    | none => nomatch ← perform DemoCall.exhausted

/-- The stages of a runner. -/
def runnerImpl (taskId workspace : Str) : (c : RunnerCall) → DemoProg (RunnerResp c)
  | .openDb => perform (DemoCall.runner taskId .openDb)
  | .harnessFactory => harnessFactory taskId workspace
  | .harnessRun description => runLoop u taskId description
  | .projectSteps => perform (DemoCall.runner taskId .projectSteps)
  | .updateState state reason stepCount =>
    perform (DemoCall.runner taskId (.updateState state reason stepCount))
  | .close => perform (DemoCall.runner taskId .close)

/-- The calls of `create_task`; without threads it is the runner itself. -/
def taskImpl : (c : TaskCall) → DemoProg (TaskResp c)
  | .filesystem => perform (DemoCall.service .filesystem)
  | .insert workspacePath workspaceHash taskDescription =>
    perform (DemoCall.service (.insert workspacePath workspaceHash taskDescription))
  | .registerFlag taskId => perform (DemoCall.service (.registerFlag taskId))
  | .setFlag taskId => perform (DemoCall.service (.setFlag taskId))
  | .startThread taskId workspace description =>
    perform (DemoCall.service (.startThread taskId workspace description))
  | .runInline taskId workspace description =>
    interpret (runnerImpl u taskId workspace) (runInline description).run

/-! ## The methods -/

/-- The part of `start_run` behind the temporary directory. -/
def launchRun (scenario : DemoScenario) (scenarioId workspace : Str) : Managing Str := do
  raising .raised (ExceptT.mk (perform (DemoCall.materialize scenario.fixture workspace)))
  ExceptT.lift (perform (DemoCall.setScenario workspace scenarioId))
  let llm ← ExceptT.lift (perform (DemoCall.newLlm workspace scenario.mockScript))
  ExceptT.lift (perform (DemoCall.setLlm workspace llm))
  let runId ← raising .admission (interpretE (taskImpl u)
    (createTask u.digest u.config u.sync (.str workspace) scenarioId false))
  ExceptT.lift (perform (DemoCall.recordMeta runId ⟨scenarioId, workspace⟩))
  return runId

/-- `start_run`. -/
def startRun (scenarioId : Str) : Managing Str := do
  match getScenario scenarioId with
  | none => throw (.unknownScenario scenarioId)
  | some scenario =>
    ExceptT.lift sweepOrphanedRuns
    let workspace ← raising .raised (ExceptT.mk (perform DemoCall.mkdtemp))
    launchRun u scenario scenarioId workspace

/-- `get_run`. -/
def getRunProgram (runId : Str) : Managing RunView := do
  match ← ExceptT.lift (perform (DemoCall.metaOf runId)) with
  | none => throw (.keyError runId)
  | some runMeta =>
    match getScenario runMeta.scenarioId with
    | none => throw (.unknownScenario runMeta.scenarioId)
    | some scenario =>
      match ← ExceptT.lift (perform (DemoCall.getTask runId)) with
      | none => throw (.keyError runId)
      | some row =>
        let events ← ExceptT.lift (perform (DemoCall.getEvents runId 0))
        let view := viewOf u.decoder scenario runMeta.scenarioId row.state.value events
        if view.done then
          ExceptT.lift (cleanupWorkspace runMeta.workspace)
        return view

/-! ## The threads -/

inductive Job where
  | startRun (scenarioId : Str)
  | getRun (runId : Str)
  | run (taskId workspace description : Str)

inductive Answer where
  | started (out : Except DemoError Str)
  | view (out : Except DemoError RunView)
  | over (out : Except Exn Unit)

/-- The program of a job. `create_task` has set the flag of the task before its thread. -/
def code : Job → DemoProg Answer
  | .startRun scenarioId => do return .started (← (startRun u scenarioId).run)
  | .getRun runId => do return .view (← (getRunProgram u runId).run)
  | .run taskId workspace description => do
    return .over (← interpret (runnerImpl u taskId workspace)
      (runInThread [taskId] taskId description).run)

def serviceAnswers (i n : ℕ) (s : DemoState) : (c : TaskCall) → TaskResp c → DemoState → Prop
  | .filesystem, _, s' => s' = s
  | .insert workspacePath workspaceHash taskDescription, taskId, s' => s.tasks taskId = none ∧
      s' = { s with
        tasks := Function.update s.tasks taskId
          (some { taskId, workspacePath, workspaceHash, taskDescription })
        runner := Function.update s.runner taskId (some i) }
  | .registerFlag _, _, s' => s' = s
  | .setFlag _, _, s' => s' = s
  | .startThread taskId _ _, _, s' =>
      s' = { s with runner := Function.update s.runner taskId (some n) }
  | .runInline _ _ _, _, _ => False

def runnerAnswers (s : DemoState) (taskId : Str) : (c : RunnerCall) → RunnerResp c → DemoState → Prop
  | .openDb, _, s' => s' = s
  | .harnessFactory, _, _ => False
  | .harnessRun _, _, _ => False
  | .projectSteps, _, s' => s' = s
  | .updateState state reason stepCount, _, s' =>
      s' = { s with
        tasks := Function.update s.tasks taskId ((s.tasks taskId).map fun row =>
          row.behind ⟨.updateState state reason stepCount, ()⟩) }
  | .close, _, s' => s' = s

/-- Only the audit log writes what others read; the rest of a turn may answer anything. -/
def harnessAnswers (s : DemoState) : (c : Call) → Resp c → DemoState → Prop
  | .append taskId stepIndex eventType _, _, s' => ∃ e : StoredEvent, e.taskId = taskId ∧
      e.stepIndex = some (stepIndex : ℤ) ∧ e.eventType = some eventType.str ∧
      s' = { s with auditEvents := s.auditEvents ++ [e] }
  | _, _, s' => s' = s

/-- What a call of thread `i` of `n` does. The name that `mkdtemp` returns was never
returned before; `rmtree` ignores its errors. -/
def answers (i n : ℕ) (s : DemoState) : (c : DemoCall) → DemoResp c → DemoState → Prop
  | .metas, r, s' => s' = s ∧ ∀ runId m, (runId, m) ∈ r ↔ s.runMeta runId = some m
  | .metaOf runId, r, s' => s' = s ∧ r = s.runMeta runId
  | .recordMeta runId m, _, s' =>
      s' = { s with runMeta := Function.update s.runMeta runId (some m) }
  | .scenarioOf workspace, r, s' => s' = s ∧ r = s.wsToScenario workspace
  | .setScenario workspace scenarioId, _, s' =>
      s' = { s with wsToScenario := Function.update s.wsToScenario workspace (some scenarioId) }
  | .popScenario workspace, _, s' =>
      s' = { s with wsToScenario := Function.update s.wsToScenario workspace none }
  | .llmOf workspace, r, s' => s' = s ∧ r = s.wsLlms workspace
  | .newLlm workspace script, r, s' =>
      r = ⟨s.llms.length, script⟩ ∧ s' = { s with llms := s.llms ++ [workspace] }
  | .setLlm workspace llm, _, s' =>
      s' = { s with wsLlms := Function.update s.wsLlms workspace (some llm) }
  | .popLlm workspace, _, s' =>
      s' = { s with wsLlms := Function.update s.wsLlms workspace none }
  | .mkdtemp, .error _, s' => s' = s
  | .mkdtemp, .ok workspace, s' => s.maker workspace = none ∧ workspace ≠ [] ∧
      s' = { s with
        isdir := Function.update s.isdir workspace true
        maker := Function.update s.maker workspace (some i) }
  | .materialize _ _, _, s' => s' = s
  | .isdir path, r, s' => s' = s ∧ r = s.isdir path
  | .rmtree path, _, s' => s' = s ∨ s' = { s with isdir := Function.update s.isdir path false }
  | .getTask taskId, r, s' => s' = s ∧ r = s.tasks taskId
  | .getEvents taskId since, r, s' => s' = s ∧ r = listSince s.auditEvents taskId since
  | .build _, .error _, s' => s' = s
  | .build h, .ok _, s' => s' = { s with harnesses := Function.update s.harnesses h.taskId (some h) }
  | .harnessOf taskId, r, s' => s' = s ∧ r = s.harnesses taskId
  | .service c, r, s' => serviceAnswers i n s c r s'
  | .runner taskId c, r, s' => runnerAnswers s taskId c r s'
  | .harness _ c, r, s' => harnessAnswers s c r s'

/-- The job that a call starts. -/
def starts : (c : DemoCall) → DemoResp c → Option Job
  | .service (.startThread taskId workspace description), _ =>
      some (.run taskId workspace description)
  | _, _ => none

/-- The methods may be called at any time; a run thread is only started by `create_task`. -/
def enters : Job → Prop
  | .run _ _ _ => False
  | _ => True

def demoSystem : System DemoCall DemoResp Job DemoState Answer where
  code := code u
  answers := answers
  starts := starts
  enters := enters

end Demo

end AegisCode
