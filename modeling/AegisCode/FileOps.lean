import AegisCode.FileSystem

/-!
# Operations on files

What programs do to a filesystem: they read and list what is there, create
directories and write files. No operation here touches a symlink, so that paths
keep resolving as they did.
-/
namespace AegisCode.Posix

/-- An `OSError`, as far as its class is looked at. -/
inductive OsError where
  | fileExists
  | other
  deriving DecidableEq

instance (n : Option Node) : Decidable (∃ old, n = some (.file old)) :=
  match n with
  | some (.file old) => .isTrue ⟨old, rfl⟩
  | some .dir => .isFalse (by simp)
  | some (.link _) => .isFalse (by simp)
  | none => .isFalse (by simp)

theorem lookup_replace {entries : List (Path × Node)} {p q : Path} {n : Node} :
    (entries.map fun e => if e.1 = p then (p, n) else e).lookup q =
      if q = p then (entries.lookup p).map fun _ => n else entries.lookup q := by
  induction entries with
  | nil => simp
  | cons e entries ih =>
    obtain ⟨r, m⟩ := e
    rw [List.map_cons, List.lookup_cons, List.lookup_cons, List.lookup_cons, ih]
    by_cases hq : q = p
    · subst hq
      by_cases hr : r = q
      · simp [hr]
      · simp [hr, beq_eq_false_iff_ne.mpr (Ne.symm hr)]
    · by_cases hr : r = p
      · subst hr
        simp [hq, beq_eq_false_iff_ne.mpr hq]
      · simp [hr, hq]

namespace FileSystem

/-- A directory stays one when a file gets other bytes. -/
theorem lookupNode_overwrite {fs : FileSystem} {p q : Path} {content : List UInt8}
    (h : ∃ old, fs.node p = some (.file old)) (hq : lookupNode fs.entries q = some .dir) :
    lookupNode (fs.entries.map fun e => if e.1 = p then (p, .file content) else e) q =
      some .dir := by
  obtain ⟨old, hold⟩ := h
  unfold node lookupNode at hold
  unfold lookupNode at hq ⊢
  by_cases hnil : q = []
  · rw [if_pos hnil]
  · rw [if_neg hnil] at hq ⊢
    have hne : q ≠ p := by
      rintro rfl
      rw [if_neg hnil, hq] at hold
      cases hold
    rw [lookup_replace, if_neg hne, hq]

variable (fs : FileSystem)

/-- The filesystem with one more entry, in a directory that is there. -/
def create (p : Path) (n : Node)
    (h : p ≠ [] ∧ Proper p ∧ fs.node p = none ∧ fs.node p.dropLast = some .dir) : FileSystem where
  entries := fs.entries ++ [(p, n)]
  cwd := fs.cwd
  proper := by
    intro e he
    obtain he | he := List.mem_append.mp he
    · exact fs.proper e he
    · obtain rfl := List.mem_singleton.mp he
      exact ⟨h.1, h.2.1⟩
  nodup := by
    rw [List.map_append, List.nodup_append]
    refine ⟨fs.nodup, by simp, ?_⟩
    rintro q hq r hr rfl
    obtain rfl : q = p := by simpa using hr
    obtain ⟨e, he, rfl⟩ := List.mem_map.mp hq
    have hnone := h.2.2.1
    rw [node, lookupNode, if_neg h.1, List.lookup_eq_none_iff] at hnone
    simpa using hnone e he
  closed := by
    have hkeep : ∀ q, fs.node q = some .dir → lookupNode (fs.entries ++ [(p, n)]) q = some .dir := by
      intro q hq
      unfold node lookupNode at hq
      unfold lookupNode
      by_cases hnil : q = []
      · rw [if_pos hnil]
      · rw [if_neg hnil] at hq ⊢
        rw [List.lookup_append, hq, Option.some_or]
    intro e he
    obtain he | he := List.mem_append.mp he
    · exact hkeep _ (fs.closed e he)
    · obtain rfl := List.mem_singleton.mp he
      exact hkeep _ h.2.2.2
  cwd_dir := by
    have hcwd := fs.cwd_dir
    unfold lookupNode at hcwd ⊢
    by_cases hnil : fs.cwd = []
    · rw [if_pos hnil]
    · rw [if_neg hnil] at hcwd ⊢
      rw [List.lookup_append, hcwd, Option.some_or]

/-- The filesystem with other bytes in a file. -/
def overwrite (p : Path) (content : List UInt8) (h : ∃ old, fs.node p = some (.file old)) :
    FileSystem where
  entries := fs.entries.map fun e => if e.1 = p then (p, .file content) else e
  cwd := fs.cwd
  proper := by
    intro e he
    obtain ⟨e', he', rfl⟩ := List.mem_map.mp he
    by_cases hp : e'.1 = p
    · rw [if_pos hp, ← hp]
      exact fs.proper e' he'
    · rw [if_neg hp]
      exact fs.proper e' he'
  nodup := by
    have hkeys : (fs.entries.map fun e => if e.1 = p then (p, Node.file content) else e).map
        Prod.fst = fs.entries.map Prod.fst := by
      rw [List.map_map]
      refine List.map_congr_left fun e _ => ?_
      by_cases hp : e.1 = p <;> simp [hp]
    rw [hkeys]
    exact fs.nodup
  closed := by
    intro e he
    obtain ⟨e', he', rfl⟩ := List.mem_map.mp he
    have hfst : (if e'.1 = p then (p, Node.file content) else e').1 = e'.1 := by
      by_cases hp : e'.1 = p <;> simp [hp]
    rw [hfst]
    exact lookupNode_overwrite h (fs.closed e' he')
  cwd_dir := lookupNode_overwrite h fs.cwd_dir

/-! ## System calls -/

def isdir (s : Str) : Bool := fs.stat s = some .dir

/-- Opening a path and reading it: where the file is, and its bytes. -/
def readBytes (s : Str) : Option (Path × List UInt8) :=
  (fs.locate s).bind fun p =>
    match fs.node p with
    | some (.file content) => some (p, content)
    | _ => none

/-- The names in a directory, in the order of its entries. -/
def children (dir : Path) : List Str :=
  fs.entries.filterMap fun e => if e.1.dropLast = dir then e.1.getLast? else none

/-- `os.listdir`. -/
def listdir (s : Str) : Option (List Str) :=
  (fs.locate s).bind fun p => if fs.node p = some .dir then some (fs.children p) else none

/-- An entry for a name that is not there yet. -/
def put (p : Path) (n : Node) : Option FileSystem :=
  if h : p ≠ [] ∧ Proper p ∧ fs.node p = none ∧ fs.node p.dropLast = some .dir then
    some (fs.create p n h)
  else none

/-- `os.mkdir`. A last name that is special, like the root, is there already. -/
def mkdir (s : Str) : Except OsError FileSystem :=
  match (names s).getLast? with
  | none => .error (if s = [] then .other else .fileExists)
  | some name =>
    match fs.traverseLinks fs.linkCount [] (fs.base s) (names s).dropLast with
    | none => .error .other
    | some dir =>
      if fs.node dir ≠ some .dir then .error .other
      else if name = "." ∨ name = ".." ∨ (fs.node (dir ++ [name])).isSome then .error .fileExists
      else match fs.put (dir ++ [name]) .dir with
        | some fs' => .ok fs'
        | none => .error .other

/-- The end of `os.makedirs`: a directory that is there already is no error. -/
def mkdirExistOk (s : Str) : FileSystem × Except OsError Unit :=
  match fs.mkdir s with
  | .ok fs' => (fs', .ok ())
  | .error e => if fs.isdir s then (fs, .ok ()) else (fs, .error e)

end FileSystem

/-- `os.path.split`, once more where the last name is empty. -/
def splitLast (s : Str) : Str × Str :=
  if basename s = [] then (dirname (dirname s), basename (dirname s)) else (dirname s, basename s)

namespace FileSystem

/-- `os.makedirs` with `exist_ok`, at most `n` directories deep. -/
def makedirs : ℕ → FileSystem → Str → FileSystem × Except OsError Unit
  | 0, fs, _ => (fs, .error .other)
  | n + 1, fs, s =>
    let (head, tail) := splitLast s
    if head ≠ [] ∧ tail ≠ [] ∧ !fs.pathExists head then
      let made := makedirs n fs head
      match made.2 with
      | .error .other => made
      | _ => if tail = "." then (made.1, .ok ()) else made.1.mkdirExistOk s
    else fs.mkdirExistOk s

variable (fs : FileSystem)

/-- Opening a path for writing, and writing it: where the file is. A file that is
not there is created, also behind a symlink that dangles. -/
def writeFile (s : Str) (content : List UInt8) : Option (Path × FileSystem) :=
  (fs.locate s).bind fun p =>
    if h : ∃ old, fs.node p = some (.file old) then some (p, fs.overwrite p content h)
    else (fs.put p (.file content)).map fun fs' => (p, fs')

/-! ## Symlinks stay as they are -/

/-- Both have the same symlinks, and the same working directory. -/
structure SameLinks (fs fs' : FileSystem) : Prop where
  cwd : fs'.cwd = fs.cwd
  readlink : fs'.readlink = fs.readlink
  linkCount : fs'.linkCount = fs.linkCount

variable {fs} {fs' fs'' : FileSystem}

theorem SameLinks.refl (fs : FileSystem) : SameLinks fs fs := ⟨rfl, rfl, rfl⟩

theorem SameLinks.trans (h : SameLinks fs fs') (h' : SameLinks fs' fs'') : SameLinks fs fs'' :=
  ⟨h'.cwd.trans h.cwd, h'.readlink.trans h.readlink, h'.linkCount.trans h.linkCount⟩

theorem joinRealpath_congr (h : fs'.readlink = fs.readlink) (n : ℕ) (active : List Path) :
    fs'.joinRealpath n active = fs.joinRealpath n active := by
  induction n generalizing active with
  | zero => simp only [joinRealpath, h]
  | succ n ih => simp only [joinRealpath, h, ih]

/-- Paths resolve alike. -/
theorem SameLinks.resolution (h : SameLinks fs fs') (s : Str) :
    fs'.resolution s = fs.resolution s := by
  unfold FileSystem.resolution base
  rw [joinRealpath_congr h.readlink, h.linkCount, h.cwd]

theorem SameLinks.resolve (h : SameLinks fs fs') (s : Str) : fs'.resolve s = fs.resolve s := by
  unfold FileSystem.resolve
  rw [h.resolution]

theorem node_create {p q : Path} {n : Node}
    {h : p ≠ [] ∧ Proper p ∧ fs.node p = none ∧ fs.node p.dropLast = some .dir} :
    (fs.create p n h).node q = if q = p then some n else fs.node q := by
  have hnone := h.2.2.1
  unfold node lookupNode at hnone
  rw [if_neg h.1] at hnone
  unfold node lookupNode create
  by_cases hnil : q = []
  · rw [if_pos hnil, if_neg (by rw [hnil]; exact Ne.symm h.1), if_pos hnil]
  · rw [if_neg hnil, List.lookup_append, List.lookup_cons, List.lookup_nil, if_neg hnil]
    by_cases hq : q = p
    · subst hq
      rw [hnone]
      simp
    · rw [if_neg hq]
      simp [beq_eq_false_iff_ne.mpr hq]

theorem sameLinks_create {p : Path} {n : Node} (hn : n.target = none)
    (h : p ≠ [] ∧ Proper p ∧ fs.node p = none ∧ fs.node p.dropLast = some .dir) :
    SameLinks fs (fs.create p n h) where
  cwd := rfl
  readlink := by
    funext q
    unfold FileSystem.readlink
    rw [node_create]
    by_cases hq : q = p
    · rw [if_pos hq, hq, h.2.2.1]
      exact hn
    · rw [if_neg hq]
  linkCount := by
    unfold FileSystem.linkCount create
    simp [hn]

theorem node_overwrite {p q : Path} {content : List UInt8}
    {h : ∃ old, fs.node p = some (.file old)} :
    (fs.overwrite p content h).node q = if q = p then some (.file content) else fs.node q := by
  obtain ⟨old, hold⟩ := h
  unfold node lookupNode at hold
  unfold node lookupNode overwrite
  by_cases hnil : q = []
  · rw [if_pos hnil]
    by_cases hq : q = p
    · rw [if_pos (hq ▸ hnil)] at hold
      cases hold
    · rw [if_neg hq, if_pos hnil]
  · rw [if_neg hnil, if_neg hnil, lookup_replace]
    by_cases hq : q = p
    · rw [if_pos hq, if_pos hq, ← hq]
      rw [← hq, if_neg hnil] at hold
      rw [hold]
      rfl
    · rw [if_neg hq, if_neg hq]

theorem sameLinks_overwrite {p : Path} {content : List UInt8}
    (h : ∃ old, fs.node p = some (.file old)) : SameLinks fs (fs.overwrite p content h) where
  cwd := rfl
  readlink := by
    funext q
    unfold FileSystem.readlink
    rw [node_overwrite]
    by_cases hq : q = p
    · obtain ⟨old, hold⟩ := h
      rw [if_pos hq, hq, hold]
      rfl
    · rw [if_neg hq]
  linkCount := by
    unfold FileSystem.linkCount overwrite
    rw [List.countP_map]
    refine List.countP_congr fun e he => ?_
    by_cases hp : e.1 = p
    · obtain ⟨old, hold⟩ := h
      have hne : e.1 ≠ [] := (fs.proper e he).1
      have he' : e = (p, .file old) := by
        refine List.inj_on_of_nodup_map fs.nodup he (mem_of_node (hp ▸ hne) hold) hp
      rw [Function.comp_apply, if_pos hp, he']
      rfl
    · rw [Function.comp_apply, if_neg hp]

theorem sameLinks_put {p : Path} {n : Node} (hn : n.target = none) (h : fs.put p n = some fs') :
    SameLinks fs fs' := by
  unfold put at h
  split_ifs at h with hp
  obtain rfl := Option.some.inj h
  exact sameLinks_create hn hp

theorem sameLinks_mkdir {s : Str} (h : fs.mkdir s = .ok fs') : SameLinks fs fs' := by
  unfold mkdir at h
  split at h
  · cases h
  · split at h
    · cases h
    · split_ifs at h
      split at h
      · rename_i hput
        obtain rfl := Except.ok.inj h
        exact sameLinks_put rfl hput
      · cases h

theorem sameLinks_mkdirExistOk (fs : FileSystem) (s : Str) : SameLinks fs (fs.mkdirExistOk s).1 := by
  unfold mkdirExistOk
  cases hmk : fs.mkdir s with
  | ok fs' => exact sameLinks_mkdir hmk
  | error e =>
    dsimp only
    split_ifs <;> exact .refl fs

theorem sameLinks_makedirs (n : ℕ) (fs : FileSystem) (s : Str) :
    SameLinks fs (makedirs n fs s).1 := by
  induction n generalizing fs s with
  | zero => exact .refl fs
  | succ n ih =>
    have hdir := ih fs (splitLast s).1
    unfold makedirs
    dsimp only
    by_cases hhead : (splitLast s).1 ≠ [] ∧ (splitLast s).2 ≠ [] ∧ !fs.pathExists (splitLast s).1
    · rw [if_pos hhead]
      split
      · exact hdir
      · by_cases htail : (splitLast s).2 = "."
        · rw [if_pos htail]
          exact hdir
        · rw [if_neg htail]
          exact hdir.trans (sameLinks_mkdirExistOk _ s)
    · rw [if_neg hhead]
      exact sameLinks_mkdirExistOk fs s

/-- What was opened for writing has the bytes, where the kernel found it. -/
theorem writeFile_spec {s : Str} {content : List UInt8} {p : Path}
    (h : fs.writeFile s content = some (p, fs')) :
    fs.locate s = some p ∧ SameLinks fs fs' ∧ fs'.node p = some (.file content) := by
  unfold writeFile at h
  obtain ⟨q, hloc, h⟩ := Option.bind_eq_some_iff.mp h
  by_cases hold : ∃ old, fs.node q = some (.file old)
  · rw [dif_pos hold] at h
    obtain ⟨rfl, rfl⟩ := Prod.mk.inj (Option.some.inj h)
    exact ⟨hloc, sameLinks_overwrite hold, by rw [node_overwrite, if_pos rfl]⟩
  · rw [dif_neg hold] at h
    obtain ⟨fs₁, hput, h⟩ := Option.map_eq_some_iff.mp h
    obtain ⟨rfl, rfl⟩ := Prod.mk.inj h
    refine ⟨hloc, sameLinks_put rfl hput, ?_⟩
    unfold put at hput
    split_ifs at hput
    obtain rfl := Option.some.inj hput
    rw [node_create, if_pos rfl]

end FileSystem
end AegisCode.Posix
