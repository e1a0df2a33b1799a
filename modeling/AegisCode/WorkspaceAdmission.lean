import AegisCode.Dispatcher
import AegisCode.TaskRunners

/-!
# The admission of workspaces

`create_task` as a program over the filesystem it looks at and the tables it writes. A
workspace is admitted when it resolves into the allowed base, name by name.
-/
namespace AegisCode

open Program Prog Posix

/-! ## The calls -/

inductive TaskCall where
  | filesystem
  | insert (workspacePath workspaceHash taskDescription : Str)
  | registerFlag (taskId : Str)
  | setFlag (taskId : Str)
  | startThread (taskId workspace description : Str)
  | runInline (taskId workspace description : Str)

@[reducible] def TaskResp : TaskCall → Type
  | .filesystem => FileSystem
  | .insert _ _ _ => Str
  | .registerFlag _ => Unit
  | .setFlag _ => Unit
  | .startThread _ _ _ => Unit
  | .runInline _ _ _ => Except Exn Unit

abbrev TaskEv := Event TaskCall TaskResp

/-- `WorkspaceNotAllowedError`, or an exception of another class. -/
inductive AdmissionError where
  | workspaceNotAllowed (text : Str)
  | raised (e : Exn)

abbrev Creating := ExceptT AdmissionError (Prog TaskCall TaskResp)

/-! ## The code -/

def nonString : AdmissionError := .workspaceNotAllowed "workspace must be a non-empty string"

def outsideBase (workspace : Str) : AdmissionError :=
  .workspaceNotAllowed ("workspace ".toList ++ Str.repr workspace ++
    " is outside the allowed base".toList)

/-- `_validate_workspace` on a string; both realpaths stand before its `try`. -/
def validateString (fs : FileSystem) (workspace allowedBase : Str) : Except AdmissionError Unit :=
  if realpathRaises fs allowedBase || realpathRaises fs workspace then .error (.raised embeddedNul)
  else if commonpath (fs.realpath workspace) (fs.realpath allowedBase) ≠ fs.realpath allowedBase then
    .error (outsideBase workspace)
  else .ok ()

/-- `_validate_workspace`, with the string that it let through. -/
def validateWorkspace (workspace : Json) (allowedBase : Str) : Creating Str :=
  match workspace with
  | .str workspace =>
    if workspace = [] then throw nonString
    else do
      let fs ← ExceptT.lift (perform TaskCall.filesystem)
      ExceptT.mk (.ret (validateString fs workspace allowedBase))
      return workspace
  | _ => throw nonString

/-- `_workspace_hash`. -/
def workspaceHash (H : Digest) (workspace : Str) : Str := (H.hexdigest workspace).take 16

/-- `_allowed_base`. -/
def Workspace.base (ws : Workspace) : Str :=
  match ws.allowedBase with
  | some base => if base = [] then ws.root else base
  | none => ws.root

/-- The start of the run, on this thread or on one of its own. -/
def startRun (sync : Bool) (taskId workspace description : Str) : Creating Str :=
  if sync then do
    match ← ExceptT.lift (perform (TaskCall.runInline taskId workspace description)) with
    | .ok _ => return taskId
    | .error e => throw (.raised e)
  else do
    ExceptT.lift (perform (TaskCall.startThread taskId workspace description))
    return taskId

/-- The part of `create_task` behind the validation. -/
def launch (H : Digest) (sync : Bool) (workspace description : Str) (preCancel : Bool) :
    Creating Str := do
  let taskId ← ExceptT.lift
    (perform (TaskCall.insert workspace (workspaceHash H workspace) description))
  ExceptT.lift (perform (TaskCall.registerFlag taskId))
  if preCancel then
    ExceptT.lift (perform (TaskCall.setFlag taskId))
  startRun sync taskId workspace description

/-- `create_task`. -/
def createTask (H : Digest) (config : AegisConfig) (sync : Bool) (workspace : Json)
    (description : Str) (preCancel : Bool) : Creating Str := do
  let workspace ← validateWorkspace workspace config.workspace.base
  launch H sync workspace description preCancel

/-! ## What it leaves -/

/-- The tasks table and the cancel flags. -/
structure TaskTables where
  tasks : List TaskRow
  cancelFlags : List (Str × Bool)

def TaskTables.behind (tables : TaskTables) : TaskEv → TaskTables
  | ⟨.insert workspacePath workspaceHash taskDescription, taskId⟩ =>
    { tables with tasks := tables.tasks ++ [{ taskId := taskId
                                              workspacePath := workspacePath
                                              workspaceHash := workspaceHash
                                              taskDescription := taskDescription }] }
  | ⟨.registerFlag taskId, _⟩ =>
    { tables with cancelFlags := tables.cancelFlags ++ [(taskId, false)] }
  | ⟨.setFlag taskId, _⟩ =>
    { tables with cancelFlags := tables.cancelFlags.map fun flag =>
        if flag.1 = taskId then (taskId, true) else flag }
  | _ => tables

/-- The run that the call starts. -/
def startedRun (e : TaskEv) : Option Str :=
  match e.call with
  | .startThread taskId _ _ => some taskId
  | .runInline taskId _ _ => some taskId
  | _ => none

/-- The call looks at the filesystem. -/
def isLook (e : TaskEv) : Bool :=
  match e.call with
  | .filesystem => true
  | _ => false

/-- One row is inserted for the workspace, and one run is started, that of the row. What
the run writes later is its own. -/
def Launches (H : Digest) (workspace : Json) (description : Str) (tr : List TaskEv) : Prop :=
  ∃ s taskId, workspace = .str s ∧ tr.filterMap startedRun = [taskId] ∧
    ∀ tables : TaskTables, (tr.foldl TaskTables.behind tables).tasks = tables.tasks ++
      [{ taskId := taskId, workspacePath := s, workspaceHash := workspaceHash H s
         taskDescription := description }]

/-- The workspace is a non-empty string with a real path, which lies in that of the base. -/
def Admitted (fs : FileSystem) (base : Str) (workspace : Json) : Prop :=
  ∃ s, workspace = .str s ∧ s ≠ [] ∧ realpathRaises fs base = false ∧
    realpathRaises fs s = false ∧ Inside fs base s

/-- Admission as it is asked for: a workspace is launched exactly when it is admitted,
and a refusal has its own class and comes before every call but looks. -/
structure AdmitsExactly (H : Digest) (fs : FileSystem) (base : Str) (workspace : Json)
    (description : Str) (tr : List TaskEv) (out : Except AdmissionError Str) : Prop where
  launches_iff : Launches H workspace description tr ↔ Admitted fs base workspace
  refused : ¬ Admitted fs base workspace → (∃ text, out = .error (.workspaceNotAllowed text)) ∧
    (∀ e ∈ tr, isLook e = true) ∧ ∀ tables : TaskTables, tr.foldl TaskTables.behind tables = tables

/-- One of the realpaths raises, on a path with a NUL. -/
def RealpathRaises (fs : FileSystem) (base : Str) (workspace : Json) : Prop :=
  ∃ s, workspace = .str s ∧ s ≠ [] ∧ (realpathRaises fs base || realpathRaises fs s) = true

/-! ## The runs -/

section Runs
variable {H : Digest} {fs : FileSystem} {workspace : Json} {base description : Str}
  {tr : List TaskEv}

theorem validateWorkspace_cases {out : Except AdmissionError Str}
    (hrun : Runs (validateWorkspace workspace base).run tr out) :
    (tr = [] ∧ out = .error nonString ∧ ∀ s, workspace = .str s → s = []) ∨
      ∃ s fs, workspace = .str s ∧ s ≠ [] ∧ tr = [⟨.filesystem, fs⟩] ∧
        out = (validateString fs s base).map fun _ => s := by
  unfold validateWorkspace at hrun
  split at hrun
  · rename_i s
    by_cases hempty : s = []
    · rw [if_pos hempty] at hrun
      obtain ⟨rfl, rfl⟩ := runs_pure.mp hrun
      refine .inl ⟨rfl, rfl, ?_⟩
      intro s' hs'
      rw [← Json.str.inj hs', hempty]
    · rw [if_neg hempty] at hrun
      obtain ⟨fs, t, rfl, hvalid⟩ := runs_lift_perform_bind.mp hrun
      obtain ⟨r, hret, rfl⟩ := runs_map.mp hvalid
      obtain ⟨rfl, rfl⟩ := runs_ret.mp hret
      exact .inr ⟨s, fs, rfl, hempty, rfl, rfl⟩
  · rename_i hnostr
    obtain ⟨rfl, rfl⟩ := runs_pure.mp hrun
    exact .inl ⟨rfl, rfl, fun s hs => absurd hs (hnostr s)⟩

theorem validateString_ok_iff {s : Str} : validateString fs s base = .ok () ↔
    (realpathRaises fs base || realpathRaises fs s) = false ∧ Inside fs base s := by
  unfold validateString
  rw [← commonpath_realpath]
  by_cases hraises : (realpathRaises fs base || realpathRaises fs s) = true
  · simp [hraises]
  · rw [if_neg hraises]
    by_cases hin : commonpath (fs.realpath s) (fs.realpath base) = fs.realpath base
    · simpa [hin] using hraises
    · simp [hin]

theorem startRun_cases {sync : Bool} {taskId s : Str} {out : Except AdmissionError Str}
    (hrun : Runs (startRun sync taskId s description).run tr out) :
    tr.filterMap startedRun = [taskId] ∧
      ∀ tables : TaskTables, tr.foldl TaskTables.behind tables = tables := by
  unfold startRun at hrun
  cases sync with
  | true =>
    obtain ⟨r, t, rfl, hrest⟩ := runs_lift_perform_bind.mp hrun
    cases r with
    | ok _ =>
      obtain ⟨rfl, rfl⟩ := runs_pure.mp hrest
      exact ⟨rfl, fun _ => rfl⟩
    | error e =>
      obtain ⟨rfl, rfl⟩ := runs_pure.mp hrest
      exact ⟨rfl, fun _ => rfl⟩
  | false =>
    obtain ⟨_, t, rfl, hrest⟩ := runs_lift_perform_bind.mp hrun
    obtain ⟨rfl, rfl⟩ := runs_pure.mp hrest
    exact ⟨rfl, fun _ => rfl⟩

theorem launch_cases {sync preCancel : Bool} {s : Str} {out : Except AdmissionError Str}
    (hrun : Runs (launch H sync s description preCancel).run tr out) :
    Launches H (.str s) description tr := by
  obtain ⟨taskId, t, rfl, hinserted⟩ := runs_lift_perform_bind.mp hrun
  obtain ⟨_, t, rfl, hregistered⟩ := runs_lift_perform_bind.mp hinserted
  refine ⟨s, taskId, rfl, ?_⟩
  cases preCancel with
  | true =>
    obtain ⟨_, t, rfl, hset⟩ := runs_lift_perform_bind.mp hregistered
    obtain ⟨hstarted, hkept⟩ := startRun_cases hset
    refine ⟨hstarted, fun tables => ?_⟩
    simp only [List.foldl_cons, hkept]
    rfl
  | false =>
    obtain ⟨hstarted, hkept⟩ := startRun_cases hregistered
    refine ⟨hstarted, fun tables => ?_⟩
    simp only [List.foldl_cons, hkept]
    rfl

theorem not_launches_of_looks (hlooks : ∀ e ∈ tr, isLook e = true) :
    ¬ Launches H workspace description tr := by
  rintro ⟨s, taskId, _, hstarted, _⟩
  have hmem : taskId ∈ tr.filterMap startedRun := by
    rw [hstarted]
    exact List.mem_singleton_self taskId
  obtain ⟨⟨c, r⟩, he, hstart⟩ := List.mem_filterMap.mp hmem
  have hlook := hlooks _ he
  cases c with
  | filesystem => cases hstart
  | _ => cases hlook

/-- A look ahead of a launch belongs to it. -/
theorem launches_behind_look (hlaunch : Launches H workspace description tr) :
    Launches H workspace description ([⟨.filesystem, fs⟩] ++ tr) := by
  obtain ⟨s, taskId, hs, hstarted, htables⟩ := hlaunch
  exact ⟨s, taskId, hs, hstarted, htables⟩

theorem foldl_behind_of_looks (hlooks : ∀ e ∈ tr, isLook e = true) (tables : TaskTables) :
    tr.foldl TaskTables.behind tables = tables := by
  induction tr with
  | nil => rfl
  | cons e tr ih =>
    obtain ⟨he, htr⟩ := List.forall_mem_cons.mp hlooks
    obtain ⟨c, r⟩ := e
    cases c with
    | filesystem => exact ih htr
    | _ => cases he

/-- A refusal behind looks is exact where nothing was to be admitted. -/
theorem refusal_exact {text : Str} (hlooks : ∀ e ∈ tr, isLook e = true)
    (hnot : ¬ Admitted fs base workspace) :
    AdmitsExactly H fs base workspace description tr (.error (.workspaceNotAllowed text)) :=
  ⟨iff_of_false (not_launches_of_looks hlooks) hnot,
    fun _ => ⟨⟨text, rfl⟩, hlooks, foldl_behind_of_looks hlooks⟩⟩

end Runs

/-- `create_task` admits exactly what it should when no realpath raises: it looks at the
filesystem only at one moment, when it is `fs`. -/
theorem createTask_admits_iff (H : Digest) (fs : FileSystem) (config : AegisConfig)
    (sync : Bool) (workspace : Json) (description : Str) (preCancel : Bool) (tr : List TaskEv)
    (out : Except AdmissionError Str)
    (hrun : Runs (createTask H config sync workspace description preCancel).run tr out)
    (hfs : ∀ fs', (⟨.filesystem, fs'⟩ : TaskEv) ∈ tr → fs' = fs) :
    AdmitsExactly H fs config.workspace.base workspace description tr out ↔
      ¬ RealpathRaises fs config.workspace.base workspace := by
  obtain ⟨e, hvalid, rfl⟩ | ⟨t₁, s', t₂, rfl, hvalid, hlaunch⟩ := runs_except_bind.mp hrun
  · obtain ⟨rfl, heq, hempty⟩ | ⟨s, fs', rfl, hne, rfl, heq⟩ := validateWorkspace_cases hvalid
    · -- there is no string to resolve
      obtain rfl := Except.error.inj heq
      refine iff_of_true ?_ fun ⟨s, hs, hne, _⟩ => hne (hempty s hs)
      exact refusal_exact (fun _ he => absurd he List.not_mem_nil)
        fun ⟨s, hs, hne, _⟩ => hne (hempty s hs)
    · obtain rfl := hfs fs' (List.mem_singleton_self _)
      have hlooks : ∀ e ∈ [(⟨.filesystem, fs'⟩ : TaskEv)], isLook e = true :=
        List.forall_mem_singleton.mpr rfl
      unfold validateString at heq
      by_cases hraises : (realpathRaises fs' config.workspace.base || realpathRaises fs' s) = true
      · -- the exception is not the class of a refusal
        rw [if_pos hraises] at heq
        obtain rfl := Except.error.inj heq
        refine iff_of_false (fun hexact => ?_) (not_not.mpr ⟨s, rfl, hne, hraises⟩)
        have hnot : ¬ Admitted fs' config.workspace.base (.str s) := by
          rintro ⟨s', hs', _, hbase, hs, _⟩
          obtain rfl := Json.str.inj hs'
          simp [hbase, hs] at hraises
        obtain ⟨⟨text, habs⟩, _⟩ := hexact.refused hnot
        cases habs
      · rw [if_neg hraises] at heq
        have hcalm : ¬ RealpathRaises fs' config.workspace.base (.str s) := by
          rintro ⟨s', hs', _, h⟩
          obtain rfl := Json.str.inj hs'
          exact hraises h
        split_ifs at heq with hout
        · obtain rfl := Except.error.inj heq
          refine iff_of_true (refusal_exact hlooks ?_) hcalm
          rintro ⟨s', hs', _, _, _, hin⟩
          obtain rfl := Json.str.inj hs'
          exact hout (commonpath_realpath.mpr hin)
        · cases heq
  · obtain ⟨_, habs, _⟩ | ⟨s, fs', rfl, hne, rfl, heq⟩ := validateWorkspace_cases hvalid
    · cases habs
    · obtain rfl := hfs fs' (List.mem_append_left _ (List.mem_singleton_self _))
      have hvalidated : validateString fs' s config.workspace.base = .ok () ∧ s' = s := by
        cases hout : validateString fs' s config.workspace.base with
        | error e =>
          rw [hout] at heq
          cases heq
        | ok _ =>
          rw [hout] at heq
          exact ⟨rfl, Except.ok.inj heq⟩
      obtain ⟨hok, rfl⟩ := hvalidated
      obtain ⟨hcalm, hin⟩ := validateString_ok_iff.mp hok
      have hadmitted : Admitted fs' config.workspace.base (.str s') :=
        ⟨s', rfl, hne, (Bool.or_eq_false_iff.mp hcalm).1, (Bool.or_eq_false_iff.mp hcalm).2, hin⟩
      refine iff_of_true ⟨iff_of_true (launches_behind_look (launch_cases hlaunch)) hadmitted,
        fun hnot => absurd hadmitted hnot⟩ ?_
      rintro ⟨s, hs, _, h⟩
      obtain rfl := Json.str.inj hs
      rw [hcalm] at h
      cases h

/-! ## A workspace that is no path -/

def baseConfig : AegisConfig := { workspace := { root := "/x/ws" } }

/-- The digests do not matter for an admission. -/
def anyDigest : Digest where
  hexdigest _ := List.replicate 64 '0'
  length_hexdigest _ := List.length_replicate

def nulWorkspace : Str := "/x/ws/a\x00b"

/-- The request with a NUL in its workspace: one look, then the exception. -/
theorem nulWorkspace_runs :
    Runs (createTask anyDigest baseConfig false (.str nulWorkspace) "task" false).run
      [⟨.filesystem, bareWorkspace⟩] (.error (.raised embeddedNul)) := by
  have hraises : validateString bareWorkspace nulWorkspace baseConfig.workspace.base =
      .error (.raised embeddedNul) := if_pos (by decide)
  refine runs_except_bind.mpr (.inl ⟨_, ?_, rfl⟩)
  refine runs_lift_perform_bind.mpr ⟨bareWorkspace, [], rfl, ?_⟩
  rw [hraises]
  exact .ret _

theorem sees_bareWorkspace {fs' : FileSystem}
    (h : (⟨.filesystem, fs'⟩ : TaskEv) ∈ [(⟨.filesystem, bareWorkspace⟩ : TaskEv)]) :
    fs' = bareWorkspace := by
  cases List.mem_singleton.mp h
  rfl

theorem createTask_admits_iff_nul :
    AdmitsExactly anyDigest bareWorkspace baseConfig.workspace.base (.str nulWorkspace) "task"
        [⟨.filesystem, bareWorkspace⟩] (.error (.raised embeddedNul)) ↔
      ¬ RealpathRaises bareWorkspace baseConfig.workspace.base (.str nulWorkspace) :=
  createTask_admits_iff _ _ _ _ _ _ _ _ _ nulWorkspace_runs fun _ h => sees_bareWorkspace h

/-- A workspace with a NUL is refused with an exception of the wrong class. -/
theorem nul_workspace_raises :
    ¬ ∀ (H : Digest) (fs : FileSystem) (config : AegisConfig) (sync : Bool) (workspace : Json)
      (description : Str) (preCancel : Bool) (tr : List TaskEv) (out : Except AdmissionError Str),
      Runs (createTask H config sync workspace description preCancel).run tr out →
      (∀ fs', (⟨.filesystem, fs'⟩ : TaskEv) ∈ tr → fs' = fs) →
      AdmitsExactly H fs config.workspace.base workspace description tr out := by
  intro h
  have hexact := h _ _ _ _ _ _ _ _ _ nulWorkspace_runs fun _ h => sees_bareWorkspace h
  have hnot : ¬ Admitted bareWorkspace baseConfig.workspace.base (.str nulWorkspace) := by
    rintro ⟨s, hs, _, _, hcalm, _⟩
    obtain rfl := Json.str.inj hs
    revert hcalm
    decide
  obtain ⟨⟨text, habs⟩, _⟩ := hexact.refused hnot
  cases habs

end AegisCode
