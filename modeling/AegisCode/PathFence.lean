import AegisCode.FileSystem
import AegisCode.Json

/-!
# The path fence

`check_path`, over the filesystem at the moment of the call, and the shell
patterns of `fnmatch` it blocks sensitive files with.
-/
namespace AegisCode

open Posix

/-! ## Shell patterns -/

/-- One item of a shell pattern; a class lists its ranges. -/
inductive Glob where
  | star
  | any
  | lit (c : Char)
  | cls (negated : Bool) (ranges : List (Char × Char))

/-- The ranges of a class, single characters included. -/
def classRanges : Str → List (Char × Char)
  | a :: '-' :: b :: rest => (a, b) :: classRanges rest
  | a :: rest => (a, a) :: classRanges rest
  | [] => []

/-- What stands between `[` and the `]` that closes it, and what follows; a `]`
in the first place does not close the class. -/
def classBody (s : Str) : Option (Bool × Str × Str) :=
  let (negated, s) := if Str.startsWith s "!" then (true, s.drop 1) else (false, s)
  let (first, s) := if Str.startsWith s "]" then (s.take 1, s.drop 1) else ([], s)
  match s.span (· ≠ ']') with
  | (_, []) => none
  | (body, _ :: rest) => some (negated, first ++ body, rest)

/-- `fnmatch.translate`, read off at most `n` items. -/
def parseGlob : ℕ → Str → List Glob
  | 0, _ => []
  | _, [] => []
  | n + 1, '*' :: rest => .star :: parseGlob n rest
  | n + 1, '?' :: rest => .any :: parseGlob n rest
  | n + 1, '[' :: rest =>
    match classBody rest with
    | some (negated, body, rest) => .cls negated (classRanges body) :: parseGlob n rest
    | none => .lit '[' :: parseGlob n rest
  | n + 1, c :: rest => .lit c :: parseGlob n rest

def Glob.accepts : Glob → Char → Bool
  | .star, _ => false
  | .any, _ => true
  | .lit c, d => c = d
  | .cls negated ranges, d => xor negated (ranges.any fun r => r.1 ≤ d ∧ d ≤ r.2)

def matchGlob : List Glob → Str → Bool
  | [], s => s.isEmpty
  | .star :: gs, s => s.tails.any (matchGlob gs)
  | g :: gs, c :: s => g.accepts c && matchGlob gs s
  | _ :: _, [] => false

/-- `fnmatch.fnmatch` on POSIX, where the case of a name counts. -/
def fnmatch (name pat : Str) : Bool := matchGlob (parseGlob pat.length pat) name

/-! ## The fence -/

structure PathVerdict where
  allowed : Bool
  reason : Str

/-- One pattern on a path: it fnmatches the last name, or is one of the segments. -/
def hitsSensitive (p pat : Str) : Bool :=
  fnmatch (basename p) pat || pat.rdropWhile (· = '/') ∈ split p

/-- `_matches_sensitive`. -/
def matchesSensitive (p : Str) (patterns : List Str) : Bool := patterns.any (hitsSensitive p)

def commonPrefix : Path → Path → Path
  | a :: p, b :: q => if a = b then a :: commonPrefix p q else []
  | _, _ => []

/-- `os.path.commonpath` of two absolute paths. -/
def commonpath (a b : Str) : Str :=
  render (commonPrefix ((names a).filter (· ≠ ".".toList)) ((names b).filter (· ≠ ".".toList)))

/-- The path, joined to the resolved root when it is relative. -/
def joinedPath (fs : FileSystem) (workspaceRoot path : Str) : Str :=
  if isabs path then path else join (fs.realpath workspaceRoot) path

/-- The path `real` that `check_path` computes from the joined path. -/
def realTarget (fs : FileSystem) (joined : Str) : Str :=
  if fs.islink joined || fs.pathExists joined then fs.realpath joined
  else fs.behindParent joined

/-- The verdict on a string, with every realpath taken in `fs`. -/
def fencePath (fs : FileSystem) (path workspaceRoot : Str) (patterns : List Str) : PathVerdict :=
  let root := fs.realpath workspaceRoot
  let joined := joinedPath fs workspaceRoot path
  let real := realTarget fs joined
  -- a new file: its parent is fenced before the path itself
  if !(fs.islink joined || fs.pathExists joined) ∧
      commonpath (fs.realpath (dirname joined)) root ≠ root then
    ⟨false, "parent dir outside workspace"⟩
  else if commonpath (fs.realpath real) root ≠ root then
    ⟨false, "path escapes workspace (traversal/symlink)"⟩
  else if matchesSensitive path patterns || matchesSensitive real patterns then
    match patterns.find? fun pat => hitsSensitive path pat || hitsSensitive real pat with
    | some pat => ⟨false, "sensitive file blocked: ".toList ++ pat⟩
    | none => ⟨true, "ok"⟩
  else ⟨true, "ok"⟩

/-- `check_path`. -/
def checkPath (fs : FileSystem) (path : Json) (workspaceRoot : Str) (patterns : List Str) :
    PathVerdict :=
  match path with
  | .str path =>
    if path = [] then ⟨false, "empty or non-string path"⟩
    else fencePath fs path workspaceRoot patterns
  | _ => ⟨false, "empty or non-string path"⟩

/-! ## Containment -/

theorem commonPrefix_eq_iff {p q : Path} : commonPrefix p q = q ↔ q <+: p := by
  induction p generalizing q with
  | nil => cases q <;> simp [commonPrefix]
  | cons a p ih =>
    cases q with
    | nil => simp [commonPrefix]
    | cons b q =>
      by_cases hab : a = b
      · simp [commonPrefix, hab, ih, List.cons_prefix_cons]
      · simp [commonPrefix, hab, List.cons_prefix_cons, Ne.symm hab]

theorem render_inj {p q : Path} (hp : Proper p) (hq : Proper q) : render p = render q ↔ p = q := by
  constructor
  · intro h
    rw [← names_render hp, h, names_render hq]
  · intro h
    rw [h]

theorem filter_names_render {p : Path} (hp : Proper p) :
    (names (render p)).filter (· ≠ ".".toList) = p := by
  rw [names_render hp]
  exact List.filter_eq_self.mpr fun name h => by simpa using (hp name h).2.1

theorem proper_commonPrefix {p q : Path} (hp : Proper p) : Proper (commonPrefix p q) := by
  induction p generalizing q with
  | nil => exact hp
  | cons a p ih =>
    cases q with
    | nil => exact fun _ h => absurd h List.not_mem_nil
    | cons b q =>
      by_cases hab : a = b
      · rw [commonPrefix, if_pos hab]
        intro name h
        obtain rfl | h := List.mem_cons.mp h
        · exact hp _ (List.mem_cons_self ..)
        · exact ih (fun x hx => hp x (List.mem_cons_of_mem _ hx)) name h
      · rw [commonPrefix, if_neg hab]
        exact fun _ h => absurd h List.not_mem_nil

/-- The common path of two locations is the second one exactly when it lies above. -/
theorem commonpath_eq_iff {p q : Path} (hp : Proper p) (hq : Proper q) :
    commonpath (render p) (render q) = render q ↔ q <+: p := by
  unfold commonpath
  rw [filter_names_render hp, filter_names_render hq, render_inj (proper_commonPrefix hp) hq,
    commonPrefix_eq_iff]

/-- The path resolves into the directory that the root resolves to. -/
def Inside (fs : FileSystem) (root path : Str) : Prop := fs.resolve root <+: fs.resolve path

instance (fs : FileSystem) (root path : Str) : Decidable (Inside fs root path) :=
  inferInstanceAs (Decidable (_ <+: _))

theorem commonpath_realpath {fs : FileSystem} {root path : Str} :
    commonpath (fs.realpath path) (fs.realpath root) = fs.realpath root ↔ Inside fs root path :=
  commonpath_eq_iff (fs.proper_resolve path) (fs.proper_resolve root)

/-- A pattern hits the path as it is written or as the fence resolves it. -/
def Sensitive (fs : FileSystem) (root path : Str) (patterns : List Str) : Prop :=
  ∃ pat ∈ patterns,
    hitsSensitive path pat = true ∨ hitsSensitive (realTarget fs (joinedPath fs root path)) pat = true

instance (fs : FileSystem) (root path : Str) (patterns : List Str) :
    Decidable (Sensitive fs root path patterns) :=
  inferInstanceAs (Decidable (∃ pat ∈ patterns, _ ∨ _))

/-- The path is there already, if only as a symlink. -/
def Present (fs : FileSystem) (path : Str) : Prop := fs.islink path = true ∨ fs.pathExists path = true

instance (fs : FileSystem) (path : Str) : Decidable (Present fs path) :=
  inferInstanceAs (Decidable (_ ∨ _))

theorem sensitive_iff {fs : FileSystem} {root path : Str} {patterns : List Str} :
    Sensitive fs root path patterns ↔
      (matchesSensitive path patterns ||
        matchesSensitive (realTarget fs (joinedPath fs root path)) patterns) = true := by
  simp only [Sensitive, matchesSensitive, Bool.or_eq_true, List.any_eq_true]
  constructor
  · rintro ⟨pat, hmem, hhit | hhit⟩
    · exact .inl ⟨pat, hmem, hhit⟩
    · exact .inr ⟨pat, hmem, hhit⟩
  · rintro (⟨pat, hmem, hhit⟩ | ⟨pat, hmem, hhit⟩)
    · exact ⟨pat, hmem, .inl hhit⟩
    · exact ⟨pat, hmem, .inr hhit⟩

/-- Once a pattern hits, the loop that looks for it finds one. -/
theorem find_hit_isSome {fs : FileSystem} {root path : Str} {patterns : List Str}
    (h : Sensitive fs root path patterns) :
    (patterns.find? fun pat => hitsSensitive path pat ||
      hitsSensitive (realTarget fs (joinedPath fs root path)) pat).isSome := by
  rw [List.find?_isSome]
  obtain ⟨pat, hmem, hhit⟩ := h
  exact ⟨pat, hmem, by simpa using hhit⟩

theorem resolve_realpath {fs : FileSystem} {path : Str} (hok : (fs.resolution path).2 = true) :
    fs.resolve (fs.realpath path) = fs.resolve path := by
  have hpath : fs.resolution path = ((fs.resolution path).1, true) := Prod.ext rfl hok
  rw [FileSystem.realpath, FileSystem.resolve_eq hpath]
  exact FileSystem.resolve_eq (FileSystem.resolution_render (FileSystem.resolution_resolved hpath))

theorem realTarget_of_present {fs : FileSystem} {path : Str} (h : Present fs path) :
    realTarget fs path = fs.realpath path := by
  unfold realTarget
  exact if_pos (by simpa [Present] using h)

/-- What the fence lets through, on any filesystem. -/
theorem fencePath_allowed_iff {fs : FileSystem} {path root : Str} {patterns : List Str} :
    (fencePath fs path root patterns).allowed = true ↔
      (Present fs (joinedPath fs root path) ∨ Inside fs root (dirname (joinedPath fs root path))) ∧
      Inside fs root (realTarget fs (joinedPath fs root path)) ∧
      ¬ Sensitive fs root path patterns := by
  rw [← commonpath_realpath, ← commonpath_realpath]
  unfold fencePath
  dsimp only
  by_cases hparent : !(fs.islink (joinedPath fs root path) ||
      fs.pathExists (joinedPath fs root path)) ∧
      commonpath (fs.realpath (dirname (joinedPath fs root path))) (fs.realpath root) ≠
        fs.realpath root
  · rw [if_pos hparent]
    obtain ⟨hnew, hout⟩ := hparent
    simp only [Bool.false_eq_true, false_iff]
    rintro ⟨hold | hin, _⟩
    · rcases hold with hlink | hexists
      · simp [hlink] at hnew
      · simp [hexists] at hnew
    · exact hout hin
  · rw [if_neg hparent]
    have hdir : Present fs (joinedPath fs root path) ∨
        commonpath (fs.realpath (dirname (joinedPath fs root path))) (fs.realpath root) =
          fs.realpath root := by
      by_contra hno
      push Not at hno
      refine hparent ⟨?_, hno.2⟩
      have hnew := hno.1
      simp only [Present, not_or, Bool.not_eq_true] at hnew
      simp [hnew.1, hnew.2]
    by_cases hreal : commonpath (fs.realpath (realTarget fs (joinedPath fs root path)))
        (fs.realpath root) = fs.realpath root
    · rw [if_neg (not_not.mpr hreal)]
      by_cases hsens : Sensitive fs root path patterns
      · rw [if_pos (sensitive_iff.mp hsens)]
        obtain ⟨pat, hpat⟩ := Option.isSome_iff_exists.mp (find_hit_isSome hsens)
        rw [hpat]
        simp [hsens]
      · rw [if_neg (fun h => hsens (sensitive_iff.mpr h))]
        simp [hdir, hreal, hsens]
    · rw [if_pos hreal]
      simp [hreal]

theorem isabs_joinedPath (fs : FileSystem) (root path : Str) :
    isabs (joinedPath fs root path) = true := by
  unfold joinedPath
  by_cases habs : isabs path = true
  · rw [if_pos habs, habs]
  · rw [if_neg habs, isabs_join (by simpa using habs), FileSystem.realpath, isabs_render]

/-- Where nothing goes in cycles, what the fence resolves is the path itself. -/
theorem resolve_realTarget {fs : FileSystem} (hcycles : fs.NoSymlinkCycles) {path : Str}
    (habs : isabs path = true) : fs.resolve (realTarget fs path) = fs.resolve path := by
  unfold realTarget
  split_ifs
  · have hok : fs.resolution path = ((fs.resolution path).1, true) :=
      Prod.ext rfl (FileSystem.resolution_ok hcycles path)
    rw [FileSystem.realpath, FileSystem.resolve_eq hok]
    exact FileSystem.resolve_eq
      (FileSystem.resolution_render (FileSystem.resolution_resolved hok))
  · rw [FileSystem.resolve, FileSystem.resolution_behindParent habs
      (FileSystem.resolution_ok hcycles _), FileSystem.resolve]

theorem checkPath_str (fs : FileSystem) (path root : Str) (patterns : List Str) :
    checkPath fs (.str path) root patterns =
      if path = [] then ⟨false, "empty or non-string path"⟩
      else fencePath fs path root patterns := rfl

/-- What the fence accepts on a filesystem without symlink cycles: a path that
resolves into the workspace, in a directory that does too unless the path is
already there, which no pattern hits. -/
theorem checkPath_allowed_iff (fs : FileSystem) (root path : Str) (patterns : List Str)
    (hcycles : fs.NoSymlinkCycles) :
    (checkPath fs (.str path) root patterns).allowed = true ↔
      path ≠ [] ∧ Inside fs root (joinedPath fs root path) ∧
      (Present fs (joinedPath fs root path) ∨ Inside fs root (dirname (joinedPath fs root path))) ∧
      ¬ Sensitive fs root path patterns := by
  have hreal : Inside fs root (realTarget fs (joinedPath fs root path)) ↔
      Inside fs root (joinedPath fs root path) := by
    unfold Inside
    rw [resolve_realTarget hcycles (isabs_joinedPath fs root path)]
  rw [checkPath_str]
  by_cases hempty : path = []
  · simp [hempty]
  · rw [if_neg hempty, fencePath_allowed_iff, hreal]
    tauto

/-- `src/report` is a symlink to a file of the workspace. -/
def linkedWorkspace : FileSystem where
  entries := [(["ws"], .dir), (["ws", "src"], .dir), (["ws", "a"], .file []),
    (["ws", "src", "report"], .link "../a")]
  cwd := []
  proper := by decide
  nodup := by decide
  closed := by decide
  cwd_dir := by decide

theorem checkPath_allowed_iff_linkedWorkspace :
    (checkPath linkedWorkspace (.str "src/report") "/ws" ["a".toList]).allowed = true ↔
      ("src/report" : String).toList ≠ [] ∧
      Inside linkedWorkspace "/ws" (joinedPath linkedWorkspace "/ws" "src/report") ∧
      (Present linkedWorkspace (joinedPath linkedWorkspace "/ws" "src/report") ∨
        Inside linkedWorkspace "/ws" (dirname (joinedPath linkedWorkspace "/ws" "src/report"))) ∧
      ¬ Sensitive linkedWorkspace "/ws" "src/report" ["a".toList] :=
  checkPath_allowed_iff _ _ _ _ (by decide)

/-- A workspace in a directory of its own. -/
def bareWorkspace : FileSystem where
  entries := [(["x"], .dir), (["x", "ws"], .dir)]
  cwd := []
  proper := by decide
  nodup := by decide
  closed := by decide
  cwd_dir := by decide

/-- A path can leave the workspace behind a missing directory and come back: its
directory is outside although the path resolves to the workspace itself. -/
theorem checkPath_denies_return :
    ¬ ∀ (fs : FileSystem) (root path : Str) (patterns : List Str), fs.NoSymlinkCycles →
      fs.stat root = some .dir →
      ((checkPath fs (.str path) root patterns).allowed = true ↔
        path ≠ [] ∧ Inside fs root (joinedPath fs root path) ∧
          ¬ Sensitive fs root path patterns) := by
  intro h
  have hsample := h bareWorkspace "/x/ws" "missing/../../ws" [] (by decide) (by decide)
  revert hsample
  decide

end AegisCode
