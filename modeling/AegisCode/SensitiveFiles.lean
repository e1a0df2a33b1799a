import AegisCode.WorkspaceRuns

/-!
# Sensitive files

In a workspace without symlinks the path that the fence looks at is the location that is
written. So no run writes a file whose location a sensitive pattern hits.
-/
namespace AegisCode

open Program Prog Posix

/-! ## The last name of a path -/

namespace Posix

theorem endsDir_iff_basename {s : Str} (hs : s ≠ []) : endsDir s = true ↔ basename s = [] := by
  constructor
  · intro hend
    by_contra hne
    have hsplit := head_append_basename s
    rw [← hsplit, FileSystem.endsDir_append hne] at hend
    have hlast : (basename s).getLast? = some '/' := by simpa [endsDir] using hend
    exact not_mem_basename s (List.mem_of_getLast? hlast)
  · intro hnil
    have hsplit := head_append_basename s
    rw [hnil, List.append_nil] at hsplit
    obtain h | h := head_eq_nil_or s
    · exact absurd (hsplit ▸ h) hs
    · rwa [hsplit] at h

theorem getLast?_components {s : Str} (hs : s ≠ []) :
    (components s).getLast? = some (if basename s = [] then ".".toList else basename s) := by
  unfold components
  by_cases hnil : basename s = []
  · rw [if_pos ((endsDir_iff_basename hs).mpr hnil), if_pos hnil, List.getLast?_concat]
  · have hend : ¬ endsDir s = true := fun h => hnil ((endsDir_iff_basename hs).mp h)
    rw [if_neg hend, if_neg hnil, List.append_nil, names_eq, names_of_not_mem (not_mem_basename s),
      if_neg hnil, List.getLast?_concat]

theorem endsDir_render {q : Path} (hq : Proper q) (hne : q ≠ []) : endsDir (render q) = false := by
  obtain ⟨init, name, rfl⟩ := (List.eq_nil_or_concat' q).resolve_left hne
  have hname := hq name (by simp)
  have hlast : render (init ++ [name]) = (init.flatMap fun n => '/' :: n) ++ ['/'] ++ name := by
    unfold render
    simp
  rw [hlast, FileSystem.endsDir_append hname.1]
  by_contra hno
  have hsep : name.getLast? = some '/' := by simpa [endsDir] using hno
  exact hname.2.2.2 (List.mem_of_getLast? hsep)

theorem join_render {q : Path} {name : Str} (hq : Proper q) (hname : ProperName name) :
    join (render q) name = render (q ++ [name]) := by
  have habs := FileSystem.isabs_of_properName hname
  unfold join
  rw [if_neg (by simp [habs])]
  by_cases hne : q = []
  · subst hne
    simp [render, endsDir]
  · rw [endsDir_render hq hne, if_neg]
    · simp [render, hne]
    · rintro (hnil | hend)
      · have := isabs_render q
        rw [hnil] at this
        cases this
      · cases hend

end Posix

namespace Posix.FileSystem
variable {fs : FileSystem} {p : Path} {s : Str}

theorem traverseLinks_up {n : ℕ} {active : List Path} {w q : Path}
    (h : fs.traverseLinks n active w ["..".toList] = some q) : fs.node q = some .dir := by
  obtain ⟨enter, henter⟩ := traverseLinks_traverse fs n active
  rw [henter] at h
  unfold traverse at h
  rw [List.foldlM_cons, enterName] at h
  by_cases hdir : fs.node w = some .dir
  · have hq : w.dropLast = q := by simpa [hdir] using h
    rw [← hq]
    exact node_dropLast hdir
  · simp [hdir] at h

/-- A path that ends in a special name is that of a directory. -/
theorem dir_of_locate {name : Str} (hlast : (components s).getLast? = some name)
    (hname : name = "." ∨ name = "..") (h : fs.locate s = some p) : fs.node p = some .dir := by
  obtain ⟨init, hinit⟩ := List.getLast?_eq_some_iff.mp hlast
  unfold locate at h
  split_ifs at h
  rw [hinit, traverseLinks_append] at h
  obtain ⟨q, -, hend⟩ := Option.bind_eq_some_iff.mp h
  obtain rfl | rfl := hname
  · obtain ⟨hdir, rfl⟩ := traverseLinks_dot.mp hend
    exact hdir
  · exact traverseLinks_up hend

end Posix.FileSystem

/-! ## What the fence looks at -/

section Fence
variable {fs fs' : FileSystem} {ctx : TaskContext} {root path : Str} {p : Path}

/-- The fence and the tool look at the same last name. -/
theorem basename_eq_of_special (hne : path ≠ [])
    (h : basename (joinedPath fs ctx.workspaceRoot path) ∈ ["".toList, ".".toList, "..".toList]) :
    ∃ name : Str, (components (ctx.resolve path)).getLast? = some name ∧
      (name = "." ∨ name = "..") := by
  have hjoined : joinedPath fs ctx.workspaceRoot path ≠ [] := by
    intro hnil
    have habs := isabs_joinedPath fs ctx.workspaceRoot path
    rw [hnil] at habs
    cases habs
  have hlast : (components (joinedPath fs ctx.workspaceRoot path)).getLast? =
      (components (ctx.resolve path)).getLast? := by
    unfold joinedPath TaskContext.resolve
    by_cases habs : isabs path = true
    · rw [if_pos habs, if_pos habs]
    · have hrel : isabs path = false := by simpa using habs
      have hcomponents : components path ≠ [] := by
        unfold components
        simp [FileSystem.names_ne_nil hne hrel]
      rw [if_neg habs, if_neg habs, FileSystem.components_join hne hrel,
        FileSystem.components_join hne hrel, List.getLast?_append_of_ne_nil _ hcomponents,
        List.getLast?_append_of_ne_nil _ hcomponents]
  rw [← hlast, getLast?_components hjoined]
  refine ⟨_, rfl, ?_⟩
  obtain hnil | hdot | hup : _ ∨ _ ∨ _ := by simpa using h
  · rw [if_pos hnil]
    exact .inl rfl
  · rw [hdot, if_neg (by decide)]
    exact .inl rfl
  · rw [hup, if_neg (by decide)]
    exact .inr rfl

/-- In a workspace without symlinks the fence looks at the location itself. -/
theorem realTarget_eq_render {s : Str} (habs : isabs s = true)
    (hres : fs.resolution s = (p, true)) (hname : ProperName (basename s))
    (hlinks : ∀ q, fs.resolve root <+: q → fs.readlink q = none)
    (hdir : Present fs s ∨ Inside fs root (dirname s)) : realTarget fs s = render p := by
  by_cases hpresent : Present fs s
  · rw [realTarget_of_present hpresent, FileSystem.realpath, FileSystem.resolve_eq hres]
  · have hin := hdir.resolve_left hpresent
    have hok := FileSystem.resolution_dirname habs hres
    have hdirname : fs.resolution (dirname s) = ((fs.resolution (dirname s)).1, true) :=
      Prod.ext rfl hok
    generalize (fs.resolution (dirname s)).1 = q at hdirname
    unfold Inside at hin
    rw [FileSystem.resolve_eq hdirname] at hin
    have hlink : fs.readlink (q ++ [basename s]) = none :=
      hlinks _ (hin.trans (List.prefix_append _ _))
    have hp : p = q ++ [basename s] := by
      obtain ⟨follow, hwalk⟩ := FileSystem.joinRealpath_walk fs fs.linkCount []
      rw [FileSystem.resolution_split habs hdirname, names_of_not_mem hname.2.2.2,
        if_neg hname.1, hwalk, walk_singleton, walkName, if_neg hname.2.1,
        if_neg hname.2.2.1, hlink] at hres
      exact (congrArg Prod.fst hres).symm
    have hbehind : realTarget fs s = fs.behindParent s := by
      unfold realTarget
      exact if_neg (by simpa [Present] using hpresent)
    rw [hbehind, FileSystem.behindParent, FileSystem.realpath, FileSystem.resolve_eq hdirname,
      join_render (FileSystem.resolution_resolved hdirname).proper hname, hp]

/-- What an accepted `write_file` wrote is hit by no pattern. -/
theorem not_hit_of_accepts {d : Dispatcher} {action : Action} {content : List UInt8}
    (hacc : d.Accepts fs action ctx) (htool : action.tool ∈ fileTools)
    (hws : ctx.workspaceRoot ≠ []) (hpath : action.arguments.get? "path" = some (.str path))
    (hres : fs.resolution (ctx.resolve path) = (p, true))
    (hloc : fs'.locate (ctx.resolve path) = some p) (hnode : fs'.node p = some (.file content))
    (hlinks : ∀ q, fs.resolve ctx.workspaceRoot <+: q → fs.readlink q = none) :
    matchesSensitive (render p) d.pc.sensitivePatterns = false := by
  have hroot : d.root ctx = ctx.workspaceRoot := if_neg hws
  have hall := (fenced_of_accepts hacc).path htool _ hpath
  rw [checkPath_str, hroot] at hall
  by_cases hne : path = []
  · rw [if_pos hne] at hall
    cases hall
  · rw [if_neg hne] at hall
    obtain ⟨hdir, -, hsens⟩ := fencePath_allowed_iff.mp hall
    have hname : ProperName (basename (joinedPath fs ctx.workspaceRoot path)) := by
      have hspecial : basename (joinedPath fs ctx.workspaceRoot path) ∉
          ["".toList, ".".toList, "..".toList] := by
        intro h
        obtain ⟨name, hlast, hspecial⟩ := basename_eq_of_special hne h
        rw [FileSystem.dir_of_locate hlast hspecial hloc] at hnode
        cases hnode
      obtain ⟨hnil, hdot, hup⟩ : _ ∧ _ ∧ _ := by simpa using hspecial
      exact ⟨hnil, hdot, hup, not_mem_basename _⟩
    have hreal := realTarget_eq_render (isabs_joinedPath ..) (resolution_joinedPath hres) hname
      hlinks hdir
    refine Bool.eq_false_iff.mpr fun hhit => hsens ?_
    rw [sensitive_iff, hreal, hhit, Bool.or_true]

end Fence

/-! ## Runs -/

/-- No symlink lies in the workspace. -/
def LinkFreeBelow (root : Str) (fs : FileSystem) : Prop :=
  ∀ q, fs.resolve root <+: q → fs.readlink q = none

/-- The root leads where it led, the workspace has no symlink, and no file of it that a
pattern hits was created or changed. -/
structure Shielded (root : Str) (patterns : List Str) (fs fs' : FileSystem) : Prop where
  resolve : fs'.resolve root = fs.resolve root
  linkFree : LinkFreeBelow root fs'
  guarded : FileSystem.Spares
    (fun p => fs.resolve root <+: p ∧ matchesSensitive (render p) patterns = true) fs fs'

section Runs
variable {strerror : Str → Str} {ctx : TaskContext} {Other : FileSystem → FileSystem → Prop}
  {d : Dispatcher} {fs fs' fs'' : FileSystem} {root : Str} {patterns : List Str}

theorem Shielded.refl (h : LinkFreeBelow root fs) : Shielded root patterns fs fs :=
  ⟨rfl, h, .refl _ fs⟩

theorem Shielded.trans (h : Shielded root patterns fs fs') (h' : Shielded root patterns fs' fs'') :
    Shielded root patterns fs fs'' :=
  ⟨h'.resolve.trans h.resolve, h'.linkFree,
    h.guarded.trans (h'.guarded.mono fun _ hp => by rwa [h.resolve])⟩

theorem LinkFreeBelow.of_extends (h : LinkFreeBelow root fs) (he : FileSystem.Extends fs fs') :
    LinkFreeBelow root fs' := by
  intro q hq
  rw [he.links.readlink]
  exact h q (by rwa [← he.links.resolve])

theorem shielded_of_touches {action : Action} (hacc : d.Accepts fs action ctx)
    (htool : action.tool = "write_file") (hws : ctx.workspaceRoot ≠ [])
    (hfree : LinkFreeBelow ctx.workspaceRoot fs) (h : Touches fs ctx action.arguments fs') :
    Shielded ctx.workspaceRoot d.pc.sensitivePatterns fs fs' := by
  have hfile : action.tool ∈ fileTools := by
    rw [htool]
    decide
  cases h with
  | nothing hspares hextends =>
    exact ⟨hextends.links.resolve _, hfree.of_extends hextends, hspares.mono fun _ _ => trivial⟩
  | file hpath hres hloc hnode hspares hextends =>
    refine ⟨hextends.links.resolve _, hfree.of_extends hextends, hspares.mono fun q hq => ?_⟩
    rintro rfl
    have hhit := hq.2
    rw [not_hit_of_accepts hacc hfile hws hpath hres hloc hnode hfree] at hhit
    cases hhit

/-- In every run of the loop over the dispatcher, in a workspace without symlinks and on one
filesystem, no file of the workspace is created or changed where a sensitive pattern hits, as
long as the others do not do so, make no symlink and leave the root where it leads. -/
theorem run_shielded (strerror : Str → Str) (ctx : TaskContext)
    (Other : FileSystem → FileSystem → Prop) (d : Dispatcher) (h : HarnessCore)
    (hws : ctx.workspaceRoot ≠ [])
    (hother : ∀ fs fs', LinkFreeBelow ctx.workspaceRoot fs → Other fs fs' →
      Shielded ctx.workspaceRoot d.pc.sensitivePatterns fs fs')
    (frames : List Step) (hlinked : ∀ f ∈ frames, Linked (implementation h.sha256 d ctx) f)
    (fs fs' : FileSystem) (hfree : LinkFreeBelow ctx.workspaceRoot fs)
    (hdisk : Trace (StepOnDisk strerror ctx Other) fs frames fs') :
    Shielded ctx.workspaceRoot d.pc.sensitivePatterns fs fs' := by
  let R : FileSystem → FileSystem → Prop := fun fs fs' =>
    LinkFreeBelow ctx.workspaceRoot fs → Shielded ctx.workspaceRoot d.pc.sensitivePatterns fs fs'
  have htrans : ∀ {s s' s''}, R s s' → R s' s'' → R s s'' :=
    fun h h' hs => (h hs).trans (h' (h hs).linkFree)
  refine hdisk.rel (R := R) (fun _ => Shielded.refl) htrans (fun s f s' hf hstep => ?_) hfree
  obtain ⟨s₁, hchange, hinner⟩ := hstep
  refine htrans (fun hs => hother _ _ hs hchange) ?_
  exact rel_step (R := R) (Shielded.refl) (fun action hacc htool fs' htouches hs =>
    shielded_of_touches hacc htool hws hs htouches) (fun _ hchange hs => hother _ _ hs hchange)
    (behindFence_of_linked (hlinked f hf)) hinner

theorem linkFreeBelow_of_entries (h : ∀ e ∈ fs.entries, e.2.target = none) :
    LinkFreeBelow root fs := by
  intro q _
  by_cases hq : q = []
  · rw [hq]
    exact FileSystem.readlink_of_dir FileSystem.node_nil
  · unfold FileSystem.readlink
    cases hnode : fs.node q with
    | none => rfl
    | some n => exact h _ (FileSystem.mem_of_node hq hnode)

end Runs

/-! ## The approved write in a workspace without symlinks -/

theorem run_shielded_writing : Shielded gateContext.workspaceRoot
    askingDispatcher.pc.sensitivePatterns gateWorkspace writtenWorkspace :=
  run_shielded id gateContext (fun fs fs' => fs' = fs) askingDispatcher writingHarness (by decide)
    (by rintro fs fs' hfree rfl; exact .refl hfree) writingRun writingRun_linked _ _
    (linkFreeBelow_of_entries (by decide)) writingRun_onDisk

def linkedSecret : FileSystem where
  entries := [(["ws"], .dir), (["ws", "link"], .link ".env")]
  cwd := []
  proper := by decide
  nodup := by decide
  closed := by decide
  cwd_dir := by decide

/-- A symlink behind a missing directory is not looked at: the file that it leads to is
written although a pattern hits it. -/
example : (checkPath linkedSecret (.str "a/../link") "/ws" [".env".toList]).allowed = true ∧
    (writeFileTool id linkedSecret gateContext [("path", .str "a/../link"),
      ("content", .str "x")]).written = [["ws".toList, ".env".toList]] := by
  decide +kernel

end AegisCode
