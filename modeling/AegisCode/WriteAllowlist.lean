import AegisCode.Dispatcher
import AegisCode.FileTools

/-!
# Writes without approval

A write is allowed without approval by the spelling of its path; where it lands
is decided by the filesystem. The two agree exactly when the path, resolved
before the call, passes the containment test of the fence for an allowlisted
directory.
-/
namespace AegisCode

open Program Prog Posix

/-! ## Where a write lands -/

section Tool
variable {strerror : Str → Str} {fs : FileSystem} {ctx : TaskContext} {p : Path}

theorem writeText_written {path content : Str}
    (h : p ∈ (writeText strerror fs ctx path content).written) :
    fs.resolution (ctx.resolve path) = (p, true) ∧
      FileSystem.SameLinks fs (writeText strerror fs ctx path content).fs := by
  unfold writeText at h ⊢
  dsimp only at h ⊢
  have hdirs := FileSystem.sameLinks_makedirs ((parentDir ctx path).length + 1) fs
    (parentDir ctx path)
  generalize FileSystem.makedirs _ fs _ = made at h hdirs ⊢
  obtain ⟨fs₁, r⟩ := made
  cases r with
  | error e => exact absurd h List.not_mem_nil
  | ok _ =>
    cases hwrite : fs₁.writeFile (ctx.resolve path) (encodeUtf8 content) with
    | none =>
      simp only [hwrite] at h
      exact absurd h List.not_mem_nil
    | some r =>
      obtain ⟨q, fs₂⟩ := r
      simp only [hwrite] at h ⊢
      obtain rfl := List.mem_singleton.mp h
      obtain ⟨hloc, hlinks, _⟩ := FileSystem.writeFile_spec hwrite
      refine ⟨?_, hdirs.trans hlinks⟩
      rw [← hdirs.resolution]
      exact FileSystem.resolution_of_locate hloc

/-- A file that `write_file` writes lies where its path resolved to before the
call, and the call leaves all paths resolving as they did. -/
theorem writeFileTool_written {arguments : Dict}
    (h : p ∈ (writeFileTool strerror fs ctx arguments).written) :
    ∃ path, arguments.get? "path" = some (.str path) ∧
      fs.resolution (ctx.resolve path) = (p, true) ∧
      FileSystem.SameLinks fs (writeFileTool strerror fs ctx arguments).fs := by
  unfold writeFileTool at h ⊢
  split at h
  · exact absurd h List.not_mem_nil
  · exact absurd h List.not_mem_nil
  · rename_i path content hpath hcontent
    split_ifs at h with hsize
    · exact absurd h List.not_mem_nil
    · cases path with
      | str path =>
        obtain ⟨hres, hlinks⟩ := writeText_written h
        refine ⟨path, hpath, hres, ?_⟩
        rw [if_neg hsize]
        exact hlinks
      | _ => exact absurd h List.not_mem_nil
  · exact absurd h List.not_mem_nil

end Tool

/-- The location lies in one of the allowlisted directories of the workspace. -/
def InAllowlist (fs : FileSystem) (ctx : TaskContext) (dirs : List Str) (p : Path) : Prop :=
  ∃ d ∈ dirs, fs.resolve (ctx.resolve d) <+: p

instance (fs : FileSystem) (ctx : TaskContext) (dirs : List Str) (p : Path) :
    Decidable (InAllowlist fs ctx dirs p) :=
  inferInstanceAs (Decidable (∃ d ∈ dirs, _))

/-- The path passes the containment test of the fence for one of the directories. -/
def ContainedIn (fs : FileSystem) (ctx : TaskContext) (dirs : List Str) (path : Str) : Prop :=
  ∃ d ∈ dirs, commonpath (fs.realpath (ctx.resolve path)) (fs.realpath (ctx.resolve d)) =
    fs.realpath (ctx.resolve d)

theorem endsDir_withSeparator (d : Str) : endsDir (withSeparator d) = true := by
  unfold withSeparator endsDir
  by_cases h : d.getLast? = some '/'
  · rw [if_pos h, h]
    rfl
  · rw [if_neg h]
    simp

theorem names_withSeparator (d : Str) : names (withSeparator d) = names d := by
  unfold withSeparator
  by_cases h : d.getLast? = some '/'
  · rw [if_pos h]
  · rw [if_neg h, names_append_sep]

theorem isabs_withSeparator {d : Str} (hne : d ≠ []) (rest : Str) :
    isabs (withSeparator d ++ rest) = isabs d := by
  obtain ⟨c, d, rfl⟩ := List.exists_cons_of_ne_nil hne
  unfold withSeparator
  by_cases h : (c :: d).getLast? = some '/'
  · rw [if_pos h]
    simp [isabs, Str.startsWith, List.isPrefixOf]
  · rw [if_neg h]
    simp [isabs, Str.startsWith, List.isPrefixOf]

/-- A path that continues an allowlisted directory is resolved from there. -/
theorem resolution_withSeparator {fs : FileSystem} {ctx : TaskContext} {d : Str} {q : Path}
    (hne : d ≠ []) (hd : fs.resolution (ctx.resolve d) = (q, true)) (rest : Str) :
    fs.resolution (ctx.resolve (withSeparator d ++ rest)) =
      fs.joinRealpath fs.linkCount [] q (names rest) := by
  have habs := isabs_withSeparator hne rest
  have hbase : fs.base (ctx.resolve (withSeparator d ++ rest)) = fs.base (ctx.resolve d) := by
    unfold TaskContext.resolve
    by_cases h : isabs d = true
    · rw [if_pos h, if_pos (habs.trans h), FileSystem.base, FileSystem.base, habs]
    · have h' : isabs (withSeparator d ++ rest) = false := by rw [habs]; simpa using h
      rw [if_neg h, if_neg (by simp [h']), FileSystem.base, FileSystem.base, isabs_join h',
        isabs_join (by simpa using h)]
  have hnames : names (ctx.resolve (withSeparator d ++ rest)) =
      names (ctx.resolve d) ++ names rest := by
    have hsplit : names (withSeparator d ++ rest) = names d ++ names rest := by
      rw [names_append rest (.inr (endsDir_withSeparator d)), names_withSeparator]
    unfold TaskContext.resolve
    by_cases h : isabs d = true
    · rw [if_pos h, if_pos (habs.trans h), hsplit]
    · have h' : isabs (withSeparator d ++ rest) = false := by rw [habs]; simpa using h
      rw [if_neg h, if_neg (by simp [h']), names_join h', names_join (by simpa using h), hsplit,
        List.append_assoc]
  unfold FileSystem.resolution at hd ⊢
  rw [hbase, hnames, FileSystem.joinRealpath_append hd]

/-- Behind an allowlisted directory, a path without special names and symlinks
is contained in it. -/
theorem containedIn_of_plain {fs : FileSystem} {ctx : TaskContext} {dirs : List Str} {d : Str}
    {q : Path} {rest : Str} (hmem : d ∈ dirs) (hne : d ≠ [])
    (hd : fs.resolution (ctx.resolve d) = (q, true)) (hnames : Proper (names rest))
    (hfree : LinkFree fs.readlink (q ++ names rest)) :
    ContainedIn fs ctx dirs (withSeparator d ++ rest) := by
  obtain ⟨follow, hwalk⟩ := FileSystem.joinRealpath_walk fs fs.linkCount []
  have hres : fs.resolution (ctx.resolve (withSeparator d ++ rest)) = (q ++ names rest, true) := by
    rw [resolution_withSeparator hne hd, hwalk, walk_of_linkFree hnames hfree]
  refine ⟨d, hmem, commonpath_realpath.mpr ?_⟩
  unfold Inside
  rw [FileSystem.resolve_eq hd, FileSystem.resolve_eq hres]
  exact List.prefix_append _ _

/-- Without approval, a write lands in an allowlisted directory exactly when its
path, which starts with one, is contained in one before the call. -/
theorem allowed_write_inside_iff (config : AegisConfig) (registry : List Str) (action : Action)
    (ctx : TaskContext) (tr : List Dispatcher.Ev)
    (out : Except Exn (GovernanceVerdict × Option ToolResult × Action)) (arguments : Dict)
    (answer : Except Exn (ToolResult × Dict)) (strerror : Str → Str) (fs : FileSystem) (p : Path)
    (hdefault : config.governance.defaultDecisions.write = .requireApproval)
    (hrun : Runs ((buildDispatcher config registry).dispatch action ctx).run tr out)
    (hexec : (⟨.run "write_file" arguments, answer⟩ : Dispatcher.Ev) ∈ tr)
    (hwritten : p ∈ (writeFileTool strerror fs ctx arguments).written) :
    InAllowlist (writeFileTool strerror fs ctx arguments).fs ctx
        config.governance.writeAllowlistDirs p ↔
      ∃ path, arguments.get? "path" = some (.str path) ∧
        (∃ d ∈ config.governance.writeAllowlistDirs, withSeparator d <+: path) ∧
        ContainedIn fs ctx config.governance.writeAllowlistDirs path := by
  obtain ⟨path, hpath, hres, hlinks⟩ := writeFileTool_written hwritten
  obtain ⟨htool, rfl, _, verdict, _, _, heval, hdec⟩ :=
    (Dispatcher.dispatch_cases hrun).of_run hexec rfl
  have hspelled : ∃ d ∈ config.governance.writeAllowlistDirs, withSeparator d <+: path := by
    have hjudge : judgeWrite config (.str path) = .ok verdict := by
      change buildDefaultFn config action ctx = .ok verdict at heval
      rw [buildDefaultFn_write htool.symm, hpath] at heval
      exact heval
    have hno : verdict.decision ≠ .requireApproval := by
      obtain hdec | hdec := hdec <;> simp [hdec]
    obtain ⟨_, p', d, heq, hd, hstart⟩ := startsWith_of_judgeWrite hdefault hjudge hno
    obtain rfl := Json.str.inj heq
    exact ⟨d, hd, Str.startsWith_iff.mp hstart⟩
  have hiff : ∀ d,
      (writeFileTool strerror fs ctx action.arguments).fs.resolve (ctx.resolve d) <+: p ↔
      commonpath (fs.realpath (ctx.resolve path)) (fs.realpath (ctx.resolve d)) =
        fs.realpath (ctx.resolve d) := by
    intro d
    rw [commonpath_realpath, Inside, FileSystem.resolve_eq hres, hlinks.resolve]
  constructor
  · rintro ⟨d, hd, hin⟩
    exact ⟨path, hpath, hspelled, d, hd, (hiff d).mp hin⟩
  · rintro ⟨path', hpath', _, d, hd, hin⟩
    obtain rfl := Json.str.inj (Option.some.inj (hpath.symm.trans hpath'))
    exact ⟨d, hd, (hiff d).mpr hin⟩

/-! ## A path that leaves its directory again -/

def sourceWorkspace : FileSystem where
  entries := [(["ws"], .dir), (["ws", "src"], .dir)]
  cwd := []
  proper := by decide
  nodup := by decide
  closed := by decide
  cwd_dir := by decide

def writeContext : TaskContext := { workspaceRoot := "/ws" }

def writeTo (path : Str) : Action :=
  { tool := "write_file", arguments := [("path", .str path), ("content", .str "x = 1")] }

/-- The trace of a write that the dispatcher executed. -/
def writeTrace (path : Str) : List Dispatcher.Ev :=
  [⟨.filesystem, sourceWorkspace⟩, ⟨.run "write_file" (writeTo path).arguments,
    .ok ({ tool := "write_file", status := .success, summary := "wrote ".toList ++ path },
      (writeTo path).arguments)⟩]

theorem writeTrace_evil_runs : ∃ out,
    Runs ((buildDispatcher {} ["write_file"]).dispatch (writeTo "src/../evil.py") writeContext).run
      (writeTrace "src/../evil.py") out :=
  ⟨_, .call (.call (.ret _))⟩

theorem evil_written : (["ws".toList, "evil.py".toList] : Path) ∈
    (writeFileTool id sourceWorkspace writeContext (writeTo "src/../evil.py").arguments).written := by
  decide

theorem allowed_write_inside_iff_evil :
    InAllowlist (writeFileTool id sourceWorkspace writeContext
        (writeTo "src/../evil.py").arguments).fs writeContext ["src/", "tests/"]
        ["ws", "evil.py"] ↔
      ∃ path, (writeTo "src/../evil.py").arguments.get? "path" = some (.str path) ∧
        (∃ d ∈ ["src/".toList, "tests/".toList], withSeparator d <+: path) ∧
        ContainedIn sourceWorkspace writeContext ["src/", "tests/"] path := by
  obtain ⟨out, hrun⟩ := writeTrace_evil_runs
  exact allowed_write_inside_iff {} _ _ writeContext _ out _ _ id sourceWorkspace _ rfl hrun
    (List.mem_cons_of_mem _ (List.mem_cons_self ..)) evil_written

/-- `..` leads an allowed write out of the allowlisted directories. -/
theorem allowed_write_escapes :
    ¬ ∀ (config : AegisConfig) (registry : List Str) (action : Action) (ctx : TaskContext)
      (tr : List Dispatcher.Ev) (out : Except Exn (GovernanceVerdict × Option ToolResult × Action))
      (arguments : Dict) (answer : Except Exn (ToolResult × Dict)) (strerror : Str → Str)
      (fs : FileSystem) (p : Path),
      config.governance.defaultDecisions.write = .requireApproval →
      Runs ((buildDispatcher config registry).dispatch action ctx).run tr out →
      (⟨.run "write_file" arguments, answer⟩ : Dispatcher.Ev) ∈ tr →
      p ∈ (writeFileTool strerror fs ctx arguments).written →
      InAllowlist (writeFileTool strerror fs ctx arguments).fs ctx
        config.governance.writeAllowlistDirs p := by
  intro h
  obtain ⟨out, hrun⟩ := writeTrace_evil_runs
  have hin := h {} _ _ writeContext _ out _ _ id sourceWorkspace _ rfl hrun
    (List.mem_cons_of_mem _ (List.mem_cons_self ..)) evil_written
  revert hin
  decide

end AegisCode
