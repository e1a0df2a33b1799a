import AegisCode.DispatchErrors
import AegisCode.FileEffects
import AegisCode.Traces
import AegisCode.WriteAllowlist

/-!
# Runs on one filesystem

The loop, the dispatcher and the file tools over one filesystem that goes from call to
call. Others may change it between two calls, and while a process is running. What the
file tools leave alone outside the workspace, every run leaves alone, provided that the
others do.
-/
namespace AegisCode

open Program Prog Posix

/-! ## Where a write lands -/

namespace Posix.FileSystem
variable {fs : FileSystem}

theorem walk_append_eq {readlink : Path → Option Str} {follow : Path → Str → Path × Bool}
    {path q : Path} {ns ms : List Str} (h : walk readlink follow path (ns ++ ms) = (q, true)) :
    ∃ p, walk readlink follow path ns = (p, true) ∧ walk readlink follow p ms = (q, true) := by
  induction ns generalizing path with
  | nil => exact ⟨path, rfl, h⟩
  | cons name ns ih =>
    obtain ⟨p, hstep, hrest⟩ := walk_cons_eq h
    obtain ⟨r, hr, hq⟩ := ih hrest
    exact ⟨r, by rw [walk_cons hstep, hr], hq⟩

/-- What begins with the names of a path is resolved by resolving the path first. -/
theorem resolution_prefix {a s : Str} {q : Path} {ms : List Str} (hbase : fs.base s = fs.base a)
    (hnames : names s = names a ++ ms) (h : fs.resolution s = (q, true)) :
    (fs.resolution a).2 = true := by
  obtain ⟨follow, hwalk⟩ := joinRealpath_walk fs fs.linkCount []
  unfold resolution at h ⊢
  rw [hnames, hbase, hwalk] at h
  obtain ⟨p, hp, -⟩ := walk_append_eq h
  rw [hwalk, hp]

theorem resolution_of_join {a b : Str} {q : Path} (hb : isabs b = false)
    (h : fs.resolution (join a b) = (q, true)) : (fs.resolution a).2 = true :=
  resolution_prefix (by rw [base, base, isabs_join hb]) (names_join hb) h

theorem resolution_dirname {s : Str} {q : Path} (hs : isabs s = true)
    (h : fs.resolution s = (q, true)) : (fs.resolution (dirname s)).2 = true := by
  refine resolution_prefix ?_ (names_eq s) h
  rw [base, base, if_pos hs, if_pos (isabs_dirname hs)]

end Posix.FileSystem

section Fence
variable {fs : FileSystem} {ctx : TaskContext} {d : Dispatcher} {action : Action} {path : Str}
  {p : Path}

/-- The fence and the tool resolve the path alike. -/
theorem resolution_joinedPath (h : fs.resolution (ctx.resolve path) = (p, true)) :
    fs.resolution (joinedPath fs ctx.workspaceRoot path) = (p, true) := by
  unfold TaskContext.resolve at h
  unfold joinedPath
  by_cases habs : isabs path = true
  · rwa [if_pos habs] at h ⊢
  · rw [if_neg habs] at h ⊢
    have hrel : isabs path = false := by simpa using habs
    rw [FileSystem.resolution_join_realpath hrel (FileSystem.resolution_of_join hrel h), h]

/-- What the fence looks at resolves to where the path itself does. -/
theorem resolve_realTarget_of_resolution {s : Str} (habs : isabs s = true)
    (h : fs.resolution s = (p, true)) : fs.resolve (realTarget fs s) = p := by
  unfold realTarget
  split_ifs
  · rw [resolve_realpath (congrArg Prod.snd h), FileSystem.resolve_eq h]
  · rw [FileSystem.resolve, FileSystem.resolution_behindParent habs
      (FileSystem.resolution_dirname habs h), h]
    rfl

/-- An accepted path of a file tool lies in the workspace. -/
theorem inside_of_accepts (hacc : d.Accepts fs action ctx) (htool : action.tool ∈ fileTools)
    (hws : ctx.workspaceRoot ≠ []) (hpath : action.arguments.get? "path" = some (.str path))
    (hres : fs.resolution (ctx.resolve path) = (p, true)) :
    fs.resolve ctx.workspaceRoot <+: p := by
  have hroot : d.root ctx = ctx.workspaceRoot := if_neg hws
  have hall := (fenced_of_accepts hacc).path htool _ hpath
  rw [checkPath_str, hroot] at hall
  by_cases hne : path = []
  · rw [if_pos hne] at hall
    cases hall
  · rw [if_neg hne] at hall
    obtain ⟨-, hin, -⟩ := fencePath_allowed_iff.mp hall
    unfold Inside at hin
    rwa [resolve_realTarget_of_resolution (isabs_joinedPath ..) (resolution_joinedPath hres)] at hin

end Fence

/-! ## The file tools on a filesystem -/

section Tools
variable {strerror : Str → Str} {fs : FileSystem} {ctx : TaskContext} {arguments : Dict}

/-- What a call of `write_file` did: it left the files alone and did not succeed, or it
wrote one file. -/
inductive WriteDone (fs : FileSystem) (ctx : TaskContext) (arguments : Dict) (r : ToolRun) : Prop
  | failed : r.written = [] → FileSystem.Spares (fun _ => True) fs r.fs →
      (∀ result, r.result = .ok result → result.status ≠ .success) → WriteDone fs ctx arguments r
  | wrote {path content : Str} {p : Path} {result : ToolResult} :
      arguments.get? "path" = some (.str path) →
      arguments.get? "content" = some (.str content) →
      (encodeUtf8 content).length ≤ ctx.writeMaxBytes →
      r.written = [p] → fs.resolution (ctx.resolve path) = (p, true) →
      (fs.node p = none ∨ ∃ old, fs.node p = some (.file old)) →
      r.fs.locate (ctx.resolve path) = some p →
      r.fs.node p = some (.file (encodeUtf8 content)) → FileSystem.Spares (· ≠ p) fs r.fs →
      r.result = .ok result → result.status = .success → WriteDone fs ctx arguments r

theorem WriteDone.unchanged {r : ToolRun} (hwritten : r.written = []) (hfs : r.fs = fs)
    (hresult : ∀ result, r.result = .ok result → result.status ≠ .success) :
    WriteDone fs ctx arguments r :=
  .failed hwritten (by rw [hfs]; exact .refl _ fs) hresult

/-- `write_file` up to the bytes that its file gets. -/
def writeBytes (fs : FileSystem) (ctx : TaskContext) (path : Str) (bytes : List UInt8) :
    Option (Path × FileSystem) :=
  let made := FileSystem.makedirs ((parentDir ctx path).length + 1) fs (parentDir ctx path)
  match made.2 with
  | .error _ => none
  | .ok _ => made.1.writeFile (ctx.resolve path) bytes

theorem writeBytes_done {fs' : FileSystem} {path : Str} {p : Path} {bytes : List UInt8}
    (h : writeBytes fs ctx path bytes = some (p, fs')) :
    fs.resolution (ctx.resolve path) = (p, true) ∧
      (fs.node p = none ∨ ∃ old, fs.node p = some (.file old)) ∧
      fs'.locate (ctx.resolve path) = some p ∧ fs'.node p = some (.file bytes) ∧
      FileSystem.Spares (· ≠ p) fs fs' ∧ FileSystem.Extends fs fs' := by
  unfold writeBytes at h
  dsimp only at h
  generalize parentDir ctx path = dir at h
  have hspares := (FileSystem.dirRule_spares fun _ => True).makedirs (dir.length + 1) fs dir
  have hextends := FileSystem.dirRule_extends.makedirs (dir.length + 1) fs dir
  generalize FileSystem.makedirs _ fs dir = made at h hspares hextends
  obtain ⟨fs₁, r⟩ := made
  cases r with
  | error e => cases h
  | ok _ =>
    change fs₁.writeFile (ctx.resolve path) bytes = some (p, fs') at h
    obtain ⟨hloc, -, hnode⟩ := FileSystem.writeFile_spec h
    have hwritten := FileSystem.extends_writeFile h
    refine ⟨?_, ?_, hwritten.locate hloc, hnode, ?_, hextends.trans hwritten⟩
    · rw [← hextends.links.resolution]
      exact FileSystem.resolution_of_locate hloc
    · obtain hnone | ⟨old, hold⟩ := FileSystem.node_of_writeFile h
      · obtain heq | ⟨hbefore, -⟩ := hspares p trivial
        · exact .inl (heq ▸ hnone)
        · exact .inl hbefore
      · exact .inr ⟨old, (hspares.node_file trivial).mp hold⟩
    · exact (hspares.mono fun _ _ => trivial).trans (FileSystem.spares_writeFile h)

theorem writeText_done {path content : Str} (hpath : arguments.get? "path" = some (.str path))
    (hcontent : arguments.get? "content" = some (.str content))
    (hsize : (encodeUtf8 content).length ≤ ctx.writeMaxBytes) :
    WriteDone fs ctx arguments (writeText strerror fs ctx path content) ∧
      FileSystem.Extends fs (writeText strerror fs ctx path content).fs := by
  have hspares := (FileSystem.dirRule_spares fun _ => True).makedirs
    ((parentDir ctx path).length + 1) fs (parentDir ctx path)
  have hextends := FileSystem.dirRule_extends.makedirs
    ((parentDir ctx path).length + 1) fs (parentDir ctx path)
  have hfailed : ∀ result : ToolResult, (Except.ok (toolError "write_file"
      (cannot strerror "write" path (ctx.resolve path))) : Except Exn ToolResult) = .ok result →
      result.status ≠ .success := by
    rintro result ⟨⟩
    exact Status.noConfusion
  unfold writeText
  dsimp only
  cases hmade : FileSystem.makedirs ((parentDir ctx path).length + 1) fs (parentDir ctx path) with
  | mk fs₁ r =>
    rw [hmade] at hspares hextends
    cases r with
    | error e => exact ⟨.failed rfl hspares hfailed, hextends⟩
    | ok _ =>
      cases hwrite : fs₁.writeFile (ctx.resolve path) (encodeUtf8 content) with
      | none =>
        exact ⟨.failed rfl hspares hfailed, hextends⟩
      | some r =>
        obtain ⟨p, fs₂⟩ := r
        have hbytes : writeBytes fs ctx path (encodeUtf8 content) = some (p, fs₂) := by
          rw [writeBytes, hmade]
          exact hwrite
        obtain ⟨hres, hold, hloc, hnode, hrest, hall⟩ := writeBytes_done hbytes
        exact ⟨.wrote hpath hcontent hsize rfl hres hold hloc hnode hrest rfl rfl, hall⟩

theorem writeFileTool_done (strerror : Str → Str) (fs : FileSystem) (ctx : TaskContext)
    (arguments : Dict) : WriteDone fs ctx arguments (writeFileTool strerror fs ctx arguments) ∧
      FileSystem.Extends fs (writeFileTool strerror fs ctx arguments).fs := by
  have herror : ∀ e, WriteDone fs ctx arguments { fs := fs, result := .error e } :=
    fun e => .unchanged rfl rfl fun result habs => by cases habs
  unfold writeFileTool
  split
  · exact ⟨herror _, .refl fs⟩
  · exact ⟨herror _, .refl fs⟩
  · rename_i path content hpath hcontent
    by_cases hsize : ((encodeUtf8 content).length : ℤ) > ctx.writeMaxBytes
    · rw [if_pos hsize]
      refine ⟨.unchanged rfl rfl ?_, .refl fs⟩
      rintro result ⟨⟩
      exact Status.noConfusion
    · rw [if_neg hsize]
      cases path with
      | str path => exact writeText_done hpath hcontent (not_lt.mp hsize)
      | _ => exact ⟨herror _, .refl fs⟩
  · exact ⟨herror _, .refl fs⟩

/-- What an error of the operating system leaves behind a `write_file`: some of the
directories, or a beginning of the content in the file that was opened. -/
inductive Stopped (fs : FileSystem) (ctx : TaskContext) (path content : Str) : FileSystem → Prop
  | making (n : ℕ) :
      Stopped fs ctx path content (FileSystem.makedirs ((parentDir ctx path).length + 1) fs
        ((fun s => (splitLast s).1)^[n] (parentDir ctx path))).1
  | writing {p : Path} {fs' : FileSystem} (n : ℕ) :
      writeBytes fs ctx path ((encodeUtf8 content).take n) = some (p, fs') →
      Stopped fs ctx path content fs'

/-- What `write_file` may change, in whatever way it ends: it makes directories, or it
writes where its path leads as well. -/
inductive Touches (fs : FileSystem) (ctx : TaskContext) (arguments : Dict) (fs' : FileSystem) : Prop
  | nothing : FileSystem.Spares (fun _ => True) fs fs' → FileSystem.Extends fs fs' →
      Touches fs ctx arguments fs'
  | file {path : Str} {p : Path} {bytes : List UInt8} :
      arguments.get? "path" = some (.str path) → fs.resolution (ctx.resolve path) = (p, true) →
      fs'.locate (ctx.resolve path) = some p → fs'.node p = some (.file bytes) →
      FileSystem.Spares (· ≠ p) fs fs' → FileSystem.Extends fs fs' → Touches fs ctx arguments fs'

theorem writeFileTool_touches (strerror : Str → Str) (fs : FileSystem) (ctx : TaskContext)
    (arguments : Dict) : Touches fs ctx arguments (writeFileTool strerror fs ctx arguments).fs := by
  obtain ⟨hdone, hextends⟩ := writeFileTool_done strerror fs ctx arguments
  cases hdone with
  | failed _ hspares _ => exact .nothing hspares hextends
  | wrote hpath _ _ _ hres _ hloc hnode hspares _ _ =>
    exact .file hpath hres hloc hnode hspares hextends

theorem Stopped.extends {fs' : FileSystem} {path content : Str}
    (h : Stopped fs ctx path content fs') : FileSystem.Extends fs fs' := by
  cases h with
  | making n => exact FileSystem.dirRule_extends.makedirs _ _ _
  | writing n hbytes => exact (writeBytes_done hbytes).2.2.2.2.2

theorem Stopped.touches {fs' : FileSystem} {path content : Str}
    (h : Stopped fs ctx path content fs') (hpath : arguments.get? "path" = some (.str path)) :
    Touches fs ctx arguments fs' := by
  have hextends := h.extends
  cases h with
  | making n =>
    exact .nothing ((FileSystem.dirRule_spares fun _ => True).makedirs _ _ _) hextends
  | writing n hbytes =>
    obtain ⟨hres, -, hloc, hnode, hspares, -⟩ := writeBytes_done hbytes
    exact .file hpath hres hloc hnode hspares hextends

theorem fs_readFileTool : (readFileTool strerror fs ctx arguments).fs = fs := by
  unfold readFileTool
  split
  · rfl
  · split <;> rfl
  · rfl

theorem fs_listFilesTool : (listFilesTool strerror fs ctx arguments).fs = fs := by
  unfold listFilesTool
  split
  · split <;> rfl
  · rfl

theorem fs_searchTextTool : (searchTextTool fs ctx arguments).fs = fs := by
  unfold searchTextTool
  split <;> rfl

/-- `tool.run(arguments, ctx)` of the tools that start no process. -/
def fileTool (strerror : Str → Str) (fs : FileSystem) (ctx : TaskContext) (arguments : Dict) :
    ToolSet.Tool → Option ToolRun
  | .writeFile => some (writeFileTool strerror fs ctx arguments)
  | .readFile => some (readFileTool strerror fs ctx arguments)
  | .listFiles => some (listFilesTool strerror fs ctx arguments)
  | .searchText => some (searchTextTool fs ctx arguments)
  | .finish => some { fs := fs, result := .ok {
      tool := "finish", status := .success, summary := "agent requested finish"
      artifacts := [("finish", .bool true)] } }
  | .runCommand | .runTests => none

/-- No file tool but `write_file` changes anything. -/
theorem fs_fileTool {tool : ToolSet.Tool} {r : ToolRun}
    (h : fileTool strerror fs ctx arguments tool = some r) (hwrite : tool ≠ .writeFile) :
    r.fs = fs := by
  cases tool with
  | writeFile => exact absurd rfl hwrite
  | readFile => exact (Option.some.inj h) ▸ fs_readFileTool
  | listFiles => exact (Option.some.inj h) ▸ fs_listFilesTool
  | searchText => exact (Option.some.inj h) ▸ fs_searchTextTool
  | finish => exact (Option.some.inj h) ▸ rfl
  | runCommand => cases h
  | runTests => cases h

end Tools

/-! ## One filesystem for a whole run -/

section Disk
variable (strerror : Str → Str) (ctx : TaskContext) (Other : FileSystem → FileSystem → Prop)

/-- The calls of the dispatcher on one filesystem: a look shows it, a file tool works on
it, where the operating system may stop a `write_file`, and while a process runs others may
change it. -/
inductive OnDisk : FileSystem → Dispatcher.Ev → FileSystem → Prop
  | look (fs : FileSystem) : OnDisk fs ⟨.filesystem, fs⟩ fs
  | tool {fs : FileSystem} {name : Str} {tool : ToolSet.Tool} {arguments : Dict} {r : ToolRun} :
      ToolSet.toolNamed name = some tool → fileTool strerror fs ctx arguments tool = some r →
      OnDisk fs ⟨.run name arguments, r.result.map fun result => (result, arguments)⟩ r.fs
  | stopped {fs fs' : FileSystem} {name path content : Str} {arguments : Dict} (reason : Str) :
      ToolSet.toolNamed name = some .writeFile →
      arguments.get? "path" = some (.str path) →
      arguments.get? "content" = some (.str content) →
      (encodeUtf8 content).length ≤ ctx.writeMaxBytes → Stopped fs ctx path content fs' →
      OnDisk fs ⟨.run name arguments, .ok (toolError "write_file"
        ("cannot write ".toList ++ path ++ ": ".toList ++ reason), arguments)⟩ fs'
  | process {fs fs' : FileSystem} {name : Str} {tool : ToolSet.Tool} {arguments : Dict}
      {answer : Except Exn (ToolResult × Dict)} :
      ToolSet.toolNamed name = some tool → fileTool strerror fs ctx arguments tool = none →
      Other fs fs' → OnDisk fs ⟨.run name arguments, answer⟩ fs'

/-- A step of the loop: others change the filesystem, and then the dispatcher works on it. -/
def StepOnDisk (fs : FileSystem) (f : Step) (fs' : FileSystem) : Prop :=
  ∃ fs₁, Other fs fs₁ ∧ Trace (OnDisk strerror ctx Other) fs₁ f.inner fs'

end Disk

/-- A tool runs behind a look at which the fence lets it through. -/
inductive BehindFence (d : Dispatcher) (ctx : TaskContext) : List Dispatcher.Ev → Prop
  | idle : BehindFence d ctx []
  | looked (fs : FileSystem) : BehindFence d ctx [⟨.filesystem, fs⟩]
  | ran {fs : FileSystem} {action : Action} (answer : Except Exn (ToolResult × Dict)) :
      d.Accepts fs action ctx →
      BehindFence d ctx [⟨.filesystem, fs⟩, ⟨.run action.tool action.arguments, answer⟩]

section Steps
variable {strerror : Str → Str} {H : Digest} {d : Dispatcher} {ctx : TaskContext} {f : Step}
  {Other : FileSystem → FileSystem → Prop} {fs fs' : FileSystem}

theorem behindFence_of_runsTool {fs : FileSystem} {action : Action} {t : List Dispatcher.Ev}
    {out : Except Exn (ToolResult × Action)} (hacc : d.Accepts fs action ctx)
    (ht : Dispatcher.RunsTool action t out) : BehindFence d ctx (⟨.filesystem, fs⟩ :: t) := by
  cases ht with
  | returned result arguments => exact .ran _ hacc
  | raised e => exact .ran _ hacc

theorem behindFence_of_linked (h : Linked (implementation H d ctx) f) :
    BehindFence d ctx f.inner := by
  obtain ⟨⟨call, answer⟩, inner⟩ := f
  cases call with
  | dispatch action =>
    cases Dispatcher.dispatch_cases h with
    | unknown _ => exact .idle
    | executed hacc _ _ _ ht => exact behindFence_of_runsTool hacc ht
    | _ => exact .looked _
  | executeApproved action fp =>
    obtain ⟨_, hnil, _⟩ | ⟨_, hexec⟩ := Dispatcher.executeApproved_cases h
    · obtain rfl : inner = [] := hnil
      exact .idle
    · cases hexec with
      | unknown _ => exact .idle
      | executed hacc ht => exact behindFence_of_runsTool hacc ht
      | _ => exact .looked _
  | _ =>
    obtain rfl : inner = [] := h
    exact .idle

/-- What the accepted writes and the others establish holds around the calls of a step. -/
theorem rel_step {R : FileSystem → FileSystem → Prop} (hrefl : R fs fs)
    (hwrite : ∀ action : Action, d.Accepts fs action ctx → action.tool = "write_file" →
      ∀ fs', Touches fs ctx action.arguments fs' → R fs fs')
    (hother : ∀ fs', Other fs fs' → R fs fs') {inner : List Dispatcher.Ev}
    (hfence : BehindFence d ctx inner) (hdisk : Trace (OnDisk strerror ctx Other) fs inner fs') :
    R fs fs' := by
  cases hfence with
  | idle =>
    obtain rfl := trace_nil.mp hdisk
    exact hrefl
  | looked fs₁ =>
    obtain ⟨fs₂, hlook, hend⟩ := trace_cons.mp hdisk
    obtain rfl := trace_nil.mp hend
    cases hlook
    exact hrefl
  | @ran fs₁ action answer hacc =>
    obtain ⟨fs₂, hlook, hrest⟩ := trace_cons.mp hdisk
    obtain ⟨fs₃, hrun, hend⟩ := trace_cons.mp hrest
    obtain rfl := trace_nil.mp hend
    cases hlook
    generalize hev : (⟨.run action.tool action.arguments, answer⟩ : Dispatcher.Ev) = e at hrun
    cases hrun with
    | look => cases hev
    | @tool name tool arguments r hname hr =>
      cases hev
      by_cases hkind : tool = .writeFile
      · subst hkind
        obtain rfl := Option.some.inj hr
        exact hwrite action hacc (ToolSet.name_of_toolNamed hname).symm _
          (writeFileTool_touches ..)
      · rw [fs_fileTool hr hkind]
        exact hrefl
    | stopped reason hname hpath _ _ hstopped =>
      cases hev
      exact hwrite action hacc (ToolSet.name_of_toolNamed hname).symm _ (hstopped.touches hpath)
    | process _ _ hchange => exact hother _ hchange

end Steps

/-! ## Nothing outside the workspace -/

/-- The root leads where it led, and outside the workspace there are at most new
directories. -/
structure Confined (root : Str) (fs fs' : FileSystem) : Prop where
  resolve : fs'.resolve root = fs.resolve root
  outside : FileSystem.Spares (fun p => ¬ fs.resolve root <+: p) fs fs'

section Confinement
variable {strerror : Str → Str} {ctx : TaskContext} {Other : FileSystem → FileSystem → Prop}
  {d : Dispatcher} {fs fs' fs'' : FileSystem} {root : Str}

theorem Confined.refl (root : Str) (fs : FileSystem) : Confined root fs fs := ⟨rfl, .refl _ fs⟩

theorem Confined.trans (h : Confined root fs fs') (h' : Confined root fs' fs'') :
    Confined root fs fs'' :=
  ⟨h'.resolve.trans h.resolve,
    h.outside.trans (h'.outside.mono fun _ hp => by rwa [h.resolve])⟩

/-- An accepted write stays in the workspace, but for the directories it makes. -/
theorem confined_of_touches {action : Action} (hacc : d.Accepts fs action ctx)
    (htool : action.tool = "write_file") (hws : ctx.workspaceRoot ≠ [])
    (h : Touches fs ctx action.arguments fs') : Confined ctx.workspaceRoot fs fs' := by
  cases h with
  | nothing hspares hextends =>
    exact ⟨hextends.links.resolve _, hspares.mono fun _ _ => trivial⟩
  | file hpath hres _ _ hspares hextends =>
    have hin := inside_of_accepts hacc (by rw [htool]; decide) hws hpath hres
    refine ⟨hextends.links.resolve _, hspares.mono fun q hq => ?_⟩
    rintro rfl
    exact hq hin

/-- In every run of the loop over the dispatcher, on one filesystem, no file outside the
workspace is created or changed, as long as the others keep to the workspace too. -/
theorem run_confined (strerror : Str → Str) (ctx : TaskContext)
    (Other : FileSystem → FileSystem → Prop) (d : Dispatcher) (h : HarnessCore)
    (hws : ctx.workspaceRoot ≠ [])
    (hother : ∀ fs fs', Other fs fs' → Confined ctx.workspaceRoot fs fs')
    (frames : List Step) (hlinked : ∀ f ∈ frames, Linked (implementation h.sha256 d ctx) f)
    (fs fs' : FileSystem) (hdisk : Trace (StepOnDisk strerror ctx Other) fs frames fs') :
    Confined ctx.workspaceRoot fs fs' := by
  refine hdisk.rel (Confined.refl _) Confined.trans fun fs f fs' hf hstep => ?_
  obtain ⟨fs₁, hchange, hinner⟩ := hstep
  exact (hother _ _ hchange).trans
    (rel_step (Confined.refl _ _) (fun _ hacc htool _ => confined_of_touches hacc htool hws)
      (hother _) (behindFence_of_linked (hlinked f hf)) hinner)

end Confinement

/-! ## The approved write on its filesystem -/

def writtenWorkspace : FileSystem :=
  (writeFileTool id gateWorkspace gateContext writeAction.arguments).fs

theorem writingRun_onDisk : Trace (StepOnDisk id gateContext fun fs fs' => fs' = fs)
    gateWorkspace writingRun writtenWorkspace := by
  have hidle : ∀ fs e, StepOnDisk id gateContext (fun fs fs' => fs' = fs) fs ⟨e, []⟩ fs :=
    fun fs e => ⟨fs, rfl, .nil⟩
  have hlook : StepOnDisk id gateContext (fun fs fs' => fs' = fs) gateWorkspace
      ⟨⟨.dispatch writeAction, .ok (writeVerdict, none, writeAction)⟩,
        [⟨.filesystem, gateWorkspace⟩]⟩ gateWorkspace :=
    ⟨_, rfl, .cons (.look _) .nil⟩
  have hnamed : ToolSet.toolNamed "write_file" = some .writeFile := rfl
  have hwrite : StepOnDisk id gateContext (fun fs fs' => fs' = fs) gateWorkspace
      ⟨⟨.executeApproved writeAction (fingerprint writingHarness.sha256 writeAction),
        .ok (writeResult, writeAction)⟩, [⟨.filesystem, gateWorkspace⟩,
          ⟨.run "write_file" writeAction.arguments, .ok (writeResult, writeAction.arguments)⟩]⟩
      writtenWorkspace :=
    ⟨_, rfl, .cons (.look _) (.cons (.tool hnamed rfl) .nil)⟩
  exact .cons (hidle _ _) (.cons (hidle _ _) (.cons (hidle _ _) (.cons (hidle _ _) (.cons hlook
    (.cons (hidle _ _) (.cons (hidle _ _) (.cons hwrite (.cons (hidle _ _) (.cons (hidle _ _)
      (.cons (hidle _ _) (.cons (hidle _ _) (.cons (hidle _ _) .nil))))))))))))

theorem run_confined_writing :
    Confined gateContext.workspaceRoot gateWorkspace writtenWorkspace :=
  run_confined id gateContext (fun fs fs' => fs' = fs) askingDispatcher writingHarness (by decide)
    (by rintro fs fs' rfl; exact .refl _ _) writingRun writingRun_linked _ _ writingRun_onDisk

/-- An accepted path that leaves the workspace and comes back makes a directory outside. -/
example : (checkPath gateWorkspace (.str "a/../../b/../ws/c") "/ws" []).allowed = true ∧
    (writeFileTool id gateWorkspace gateContext [("path", .str "a/../../b/../ws/c"),
      ("content", .str "x")]).fs.node ["b"] = some .dir := by
  decide

end AegisCode
