import AegisCode.Dispatcher
import AegisCode.FileTools

/-!
# What the read-only tools open

`read_file` opens what the fence accepted, and `list_files` opens nothing. The
search opens whatever the tree of the workspace leads to, and is contained
exactly when the tree is.
-/
namespace AegisCode

open Program Prog Posix

/-- The location lies in the workspace, and no pattern hits it. -/
def Contained (fs : FileSystem) (root : Str) (patterns : List Str) (p : Path) : Prop :=
  fs.resolve root <+: p ∧ ∀ pat ∈ patterns, hitsSensitive (render p) pat = false

instance (fs : FileSystem) (root : Str) (patterns : List Str) (p : Path) :
    Decidable (Contained fs root patterns p) :=
  inferInstanceAs (Decidable (_ ∧ ∀ pat ∈ patterns, _))

/-- The tool behind a read-only name. -/
def readonlyTool (strerror : Str → Str) (fs : FileSystem) (ctx : TaskContext) (tool : Str)
    (arguments : Dict) : ToolRun :=
  if tool = "read_file" then readFileTool strerror fs ctx arguments
  else if tool = "list_files" then listFilesTool strerror fs ctx arguments
  else searchTextTool fs ctx arguments

/-! ## read_file -/

section Read
variable {fs : FileSystem} {root : Str} {patterns : List Str} {ctx : TaskContext} {p : Path}

/-- The fence finds a path where the tool finds it. -/
theorem locate_joinedPath {path : Str} (hws : ctx.workspaceRoot ≠ []) (hne : path ≠ [])
    (hloc : fs.locate (ctx.resolve path) = some p) :
    fs.locate (joinedPath fs ctx.workspaceRoot path) = some p := by
  unfold TaskContext.resolve at hloc
  unfold joinedPath
  by_cases habs : isabs path = true
  · rw [if_pos habs] at hloc ⊢
    exact hloc
  · rw [if_neg habs] at hloc ⊢
    have habs : isabs path = false := by simpa using habs
    obtain ⟨w, hw⟩ := FileSystem.dirAt_of_locate_join hws hne habs hloc
    have hreal : fs.realpath ctx.workspaceRoot = render w := by
      rw [FileSystem.realpath, FileSystem.resolve_eq
        (FileSystem.resolution_of_locate (FileSystem.dirAt_iff.mp hw).1)]
    rw [hw.locate_join hne habs] at hloc
    rw [hreal, (FileSystem.dirAt_render hw.dir).locate_join hne habs, hloc]

/-- A file that the fence accepted is contained. -/
theorem contained_of_allowed {path : Str}
    (hall : (fencePath fs path root patterns).allowed = true)
    (hloc : fs.locate (joinedPath fs root path) = some p) {content : List UInt8}
    (hnode : fs.node p = some (.file content)) : Contained fs root patterns p := by
  have hpresent : Present fs (joinedPath fs root path) := by
    right
    simp [FileSystem.pathExists, FileSystem.stat, hloc, hnode]
  have hres := FileSystem.resolution_of_locate hloc
  have hreal : realTarget fs (joinedPath fs root path) = render p := by
    rw [realTarget_of_present hpresent, FileSystem.realpath, FileSystem.resolve_eq hres]
  obtain ⟨_, hin, hsens⟩ := fencePath_allowed_iff.mp hall
  rw [hreal] at hin
  constructor
  · unfold Inside at hin
    rwa [FileSystem.resolve_eq
      (FileSystem.resolution_render (FileSystem.resolution_resolved hres))] at hin
  · intro pat hpat
    by_contra hhit
    exact hsens ⟨pat, hpat, .inr (by rw [hreal]; simpa using hhit)⟩

theorem readBytes_eq {s : Str} {data : List UInt8} :
    fs.readBytes s = some (p, data) ↔ fs.locate s = some p ∧ fs.node p = some (.file data) := by
  unfold FileSystem.readBytes
  constructor
  · intro h
    obtain ⟨q, hloc, hread⟩ := Option.bind_eq_some_iff.mp h
    split at hread
    · rename_i content hnode
      obtain ⟨rfl, rfl⟩ := Prod.mk.inj (Option.some.inj hread)
      exact ⟨hloc, hnode⟩
    · cases hread
  · rintro ⟨hloc, hnode⟩
    simp [hloc, hnode]

theorem contained_of_readFileTool {d : Dispatcher} {action : Action} {strerror : Str → Str}
    (hacc : d.Accepts fs action ctx) (htool : action.tool = "read_file")
    (hws : ctx.workspaceRoot ≠ [])
    (hp : p ∈ (readFileTool strerror fs ctx action.arguments).opened) :
    Contained fs ctx.workspaceRoot d.pc.sensitivePatterns p := by
  unfold readFileTool at hp
  split at hp
  · exact absurd hp List.not_mem_nil
  · rename_i path hpath
    split at hp
    · exact absurd hp List.not_mem_nil
    · rename_i q raw hread
      obtain rfl := List.mem_singleton.mp hp
      obtain ⟨hloc, hnode⟩ := readBytes_eq.mp hread
      have hroot : d.root ctx = ctx.workspaceRoot := if_neg hws
      have hall := (fenced_of_accepts hacc).path (by rw [htool]; decide) _ hpath
      rw [checkPath_str, hroot] at hall
      by_cases hne : path = []
      · rw [if_pos hne] at hall
        cases hall
      · rw [if_neg hne] at hall
        exact contained_of_allowed hall (locate_joinedPath hws hne hloc) hnode
  · exact absurd hp List.not_mem_nil

end Read

theorem opened_listFilesTool (strerror : Str → Str) (fs : FileSystem) (ctx : TaskContext)
    (arguments : Dict) : (listFilesTool strerror fs ctx arguments).opened = [] := by
  unfold listFilesTool
  split
  · split <;> rfl
  · rfl

/-! ## search_text -/

/-- The files that the search gets to. A query that is no string ends it at the
first text with a line. -/
def searched (fs : FileSystem) (base : Str) (query : Json) : List Str → List Str
  | [] => []
  | fp :: fps =>
    match fs.readBytes fp with
    | none => fp :: searched fs base query fps
    | some (_, data) =>
      match fileHits fs base fp query data with
      | .error _ => [fp]
      | .ok _ => fp :: searched fs base query fps

section Search
variable {fs : FileSystem} {base : Str} {query : Json} {p : Path}

theorem searched_str (fs : FileSystem) (base q : Str) (fps : List Str) :
    searched fs base (.str q) fps = fps := by
  induction fps with
  | nil => rfl
  | cons fp fps ih =>
    unfold searched
    rw [ih]
    split
    · rfl
    · rfl

theorem mem_searchFiles {fps : List Str} :
    p ∈ (searchFiles fs base query fps).1 ↔
      ∃ fp ∈ searched fs base query fps, ∃ data, fs.readBytes fp = some (p, data) := by
  induction fps with
  | nil => simp [searchFiles, searched]
  | cons fp fps ih =>
    unfold searchFiles searched
    match hread : fs.readBytes fp with
    | none => simp [ih, hread]
    | some (q, data) =>
      dsimp only
      match hhits : fileHits fs base fp query data with
      | .error e => simp [hread, eq_comm]
      | .ok hits => simp [ih, hread, eq_comm]

/-- Whatever can be read through the entries below the workspace is contained. -/
def TreeContained (fs : FileSystem) (root : Str) (patterns : List Str) : Prop :=
  ∀ w, fs.locate (join root ".") = some w → fs.node w = some .dir →
    ∀ q m, w <+: q → fs.node q = some m → m ≠ .dir →
      ∀ p data, fs.readBytes (render q) = some (p, data) → Contained fs root patterns p

/-- What the search reads is contained: for a string query the whole tree, for
any other query the files before the one that raises. -/
def SearchContained (fs : FileSystem) (ctx : TaskContext) (patterns : List Str) : Json → Prop
  | .str _ => TreeContained fs ctx.workspaceRoot patterns
  | query => ∀ fp ∈ searched fs (ctx.resolve ".") query (workspaceFiles fs ctx), ∀ p data,
      fs.readBytes fp = some (p, data) → Contained fs ctx.workspaceRoot patterns p

/-- The walk over the workspace reads the entries of its tree, however deep. -/
theorem readable_workspaceFiles {ctx : TaskContext} {data : List UInt8} :
    (∃ fp ∈ workspaceFiles fs ctx, fs.readBytes fp = some (p, data)) ↔
      ∃ w, fs.locate (join ctx.workspaceRoot ".") = some w ∧ fs.node w = some .dir ∧
        ∃ q m, w <+: q ∧ fs.node q = some m ∧ m ≠ .dir ∧
          fs.readBytes (render q) = some (p, data) := by
  have hresolve : ctx.resolve "." = join ctx.workspaceRoot "." := rfl
  unfold workspaceFiles
  rw [hresolve]
  constructor
  · rintro ⟨fp, hfp, hread⟩
    cases hlist : fs.listdir (join ctx.workspaceRoot ".") with
    | none =>
      rw [FileSystem.walkFiles, hlist] at hfp
      exact absurd hfp List.not_mem_nil
    | some ns =>
      obtain ⟨w, hloc, hdir⟩ := FileSystem.dir_of_listdir hlist
      obtain ⟨q, m, hwq, hnode, hm, _, hread⟩ := (FileSystem.readable_walkFiles
        (FileSystem.dirAt_iff.mpr ⟨hloc, hdir⟩)).mp ⟨fp, hfp, hread⟩
      exact ⟨w, hloc, hdir, q, m, hwq, hnode, hm, hread⟩
  · rintro ⟨w, hloc, hdir, q, m, hwq, hnode, hm, hread⟩
    have hlen : q.length ≤ w.length + (fs.entries.length + 1) := by
      have := FileSystem.length_le_of_node hnode
      omega
    exact (FileSystem.readable_walkFiles (FileSystem.dirAt_iff.mpr ⟨hloc, hdir⟩)).mpr
      ⟨q, m, hwq, hnode, hm, hlen, hread⟩

theorem contained_searchTextTool_iff {ctx : TaskContext} {patterns : List Str} {arguments : Dict} :
    (∀ p ∈ (searchTextTool fs ctx arguments).opened,
        Contained fs ctx.workspaceRoot patterns p) ↔
      ∀ query, arguments.get? "query" = some query → SearchContained fs ctx patterns query := by
  unfold searchTextTool
  cases hquery : arguments.get? "query" with
  | none => simp
  | some query =>
    have hopened : (∀ p ∈ (searchFiles fs (ctx.resolve ".") query (workspaceFiles fs ctx)).1,
          Contained fs ctx.workspaceRoot patterns p) ↔
        ∀ fp ∈ searched fs (ctx.resolve ".") query (workspaceFiles fs ctx), ∀ p data,
          fs.readBytes fp = some (p, data) → Contained fs ctx.workspaceRoot patterns p := by
      constructor
      · intro h fp hfp p data hread
        exact h p (mem_searchFiles.mpr ⟨fp, hfp, data, hread⟩)
      · intro h p hp
        obtain ⟨fp, hfp, data, hread⟩ := mem_searchFiles.mp hp
        exact h fp hfp p data hread
    simp only [Option.some.injEq, forall_eq']
    cases query with
    | str q =>
      rw [hopened, searched_str]
      constructor
      · intro h w hloc hdir n m hwn hnode hm p data hread
        obtain ⟨fp, hfp, hread⟩ :=
          readable_workspaceFiles.mpr ⟨w, hloc, hdir, n, m, hwn, hnode, hm, hread⟩
        exact h fp hfp p data hread
      · intro h fp hfp p data hread
        obtain ⟨w, hloc, hdir, n, m, hwn, hnode, hm, hread⟩ :=
          readable_workspaceFiles.mp ⟨fp, hfp, hread⟩
        exact h w hloc hdir n m hwn hnode hm p data hread
    | _ => exact hopened

end Search

/-! ## Dispatched reads -/

/-- What a dispatched read-only tool opens is contained exactly when a search, if
the action is one, finds a contained workspace: `fs` is the filesystem during
the dispatch. -/
theorem dispatched_read_contained_iff (strerror : Str → Str) (d : Dispatcher) (action : Action)
    (ctx : TaskContext) (fs : FileSystem) (tr : List Dispatcher.Ev)
    (out : Except Exn (GovernanceVerdict × Option ToolResult × Action)) (tool : Str)
    (arguments : Dict) (answer : Except Exn (ToolResult × Dict))
    (hws : ctx.workspaceRoot ≠ [])
    (hrun : Runs (d.dispatch action ctx).run tr out)
    (hfs : ∀ fs', (⟨.filesystem, fs'⟩ : Dispatcher.Ev) ∈ tr → fs' = fs)
    (hexec : (⟨.run tool arguments, answer⟩ : Dispatcher.Ev) ∈ tr) (htool : tool ∈ readonlyTools) :
    (∀ p ∈ (readonlyTool strerror fs ctx tool arguments).opened,
        Contained fs ctx.workspaceRoot d.pc.sensitivePatterns p) ↔
      (tool = "search_text" → ∀ query, arguments.get? "query" = some query →
        SearchContained fs ctx d.pc.sensitivePatterns query) := by
  obtain ⟨rfl, rfl, fs', _, hmem, hacc, _⟩ := (Dispatcher.dispatch_cases hrun).of_run hexec rfl
  obtain rfl := hfs fs' hmem
  unfold readonlyTool
  by_cases hread : action.tool = "read_file"
  · rw [if_pos hread, hread]
    constructor
    · intro _ habs
      exact absurd habs (by decide)
    · intro _ p hp
      exact contained_of_readFileTool hacc hread hws hp
  · rw [if_neg hread]
    by_cases hlist : action.tool = "list_files"
    · rw [if_pos hlist, hlist, opened_listFilesTool]
      constructor
      · intro _ habs
        exact absurd habs (by decide)
      · intro _ p hp
        exact absurd hp List.not_mem_nil
    · have hsearch : action.tool = "search_text" := by
        obtain h | h | h : action.tool = "read_file" ∨ action.tool = "list_files" ∨
            action.tool = "search_text" := by simpa [readonlyTools] using htool
        · exact absurd h hread
        · exact absurd h hlist
        · exact h
      rw [if_neg hlist, contained_searchTextTool_iff]
      exact ⟨fun h _ => h, fun h => h hsearch⟩

/-! ## A search that reads a secret -/

/-- The workspace holds a secret. -/
def secretWorkspace : FileSystem where
  entries := [(["ws"], .dir), (["ws", ".env"], .file [])]
  cwd := []
  proper := by decide
  nodup := by decide
  closed := by decide
  cwd_dir := by decide

def searchDispatcher : Dispatcher := buildDispatcher {} ["search_text"]

def searchContext : TaskContext := { workspaceRoot := "/ws" }

def searchAction : Action := { tool := "search_text", arguments := [("query", .str "KEY")] }

def searchTrace : List Dispatcher.Ev :=
  [⟨.filesystem, secretWorkspace⟩, ⟨.run "search_text" searchAction.arguments,
    .ok ({ tool := "search_text", status := .success, summary := "0 matches" },
      searchAction.arguments)⟩]

theorem searchTrace_runs : ∃ out,
    Runs (searchDispatcher.dispatch searchAction searchContext).run searchTrace out :=
  ⟨_, .call (.call (.ret _))⟩

theorem searchTrace_filesystem {fs' : FileSystem}
    (h : (⟨.filesystem, fs'⟩ : Dispatcher.Ev) ∈ searchTrace) : fs' = secretWorkspace := by
  obtain h | h := List.mem_cons.mp h
  · cases h
    rfl
  · cases List.mem_singleton.mp h

theorem dispatched_read_contained_iff_secret :
    (∀ p ∈ (readonlyTool id secretWorkspace searchContext "search_text"
          searchAction.arguments).opened,
        Contained secretWorkspace "/ws" searchDispatcher.pc.sensitivePatterns p) ↔
      ("search_text".toList = "search_text".toList → ∀ query,
        searchAction.arguments.get? "query" = some query →
        SearchContained secretWorkspace searchContext searchDispatcher.pc.sensitivePatterns
          query) := by
  obtain ⟨out, hrun⟩ := searchTrace_runs
  exact dispatched_read_contained_iff id searchDispatcher _ searchContext secretWorkspace _ out _ _ _
    (by decide) hrun (fun _ h => searchTrace_filesystem h)
    (List.mem_cons_of_mem _ (List.mem_cons_self ..)) (by decide)

/-- The search carries no path, so no fence keeps it from a secret. -/
theorem dispatched_search_reads_secret :
    ¬ ∀ (strerror : Str → Str) (d : Dispatcher) (action : Action) (ctx : TaskContext)
      (fs : FileSystem) (tr : List Dispatcher.Ev)
      (out : Except Exn (GovernanceVerdict × Option ToolResult × Action)) (tool : Str)
      (arguments : Dict) (answer : Except Exn (ToolResult × Dict)),
      ctx.workspaceRoot ≠ [] →
      Runs (d.dispatch action ctx).run tr out →
      (∀ fs', (⟨.filesystem, fs'⟩ : Dispatcher.Ev) ∈ tr → fs' = fs) →
      (⟨.run tool arguments, answer⟩ : Dispatcher.Ev) ∈ tr → tool ∈ readonlyTools →
      ∀ p ∈ (readonlyTool strerror fs ctx tool arguments).opened,
        Contained fs ctx.workspaceRoot d.pc.sensitivePatterns p := by
  intro h
  obtain ⟨out, hrun⟩ := searchTrace_runs
  have hin := h id searchDispatcher _ searchContext secretWorkspace _ out _ _ _ (by decide) hrun
    (fun _ h => searchTrace_filesystem h) (List.mem_cons_of_mem _ (List.mem_cons_self ..))
    (by decide) ["ws", ".env"] (by decide)
  revert hin
  decide

end AegisCode
