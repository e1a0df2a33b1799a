import AegisCode.FileOps

/-!
# What file operations change

Creating directories adds directories and changes nothing else; writing a file changes one
location. What holds between the filesystems before and after each new directory holds
between those before and after `makedirs`.
-/
namespace AegisCode.Posix.FileSystem

variable {fs fs' fs'' : FileSystem} {P Q : Path → Prop} {p q : Path} {n : Node} {s : Str}

/-- The locations of `P` are as they were, but for directories that are new. -/
def Spares (P : Path → Prop) (fs fs' : FileSystem) : Prop :=
  ∀ p, P p → fs'.node p = fs.node p ∨ (fs.node p = none ∧ fs'.node p = some .dir)

theorem Spares.refl (P : Path → Prop) (fs : FileSystem) : Spares P fs fs := fun _ _ => .inl rfl

theorem Spares.mono (hPQ : ∀ p, P p → Q p) (h : Spares Q fs fs') : Spares P fs fs' :=
  fun p hp => h p (hPQ p hp)

theorem Spares.trans (h : Spares P fs fs') (h' : Spares P fs' fs'') : Spares P fs fs'' := by
  intro p hp
  obtain heq | ⟨hnone, hdir⟩ := h p hp
  · rw [← heq]
    exact h' p hp
  · obtain heq' | ⟨hnone', _⟩ := h' p hp
    · exact .inr ⟨hnone, heq'.trans hdir⟩
    · rw [hdir] at hnone'
      cases hnone'

/-- What exists stays what it is. -/
theorem Spares.node (h : Spares P fs fs') (hp : P p) (hn : fs.node p = some n) :
    fs'.node p = some n := by
  obtain heq | ⟨hnone, _⟩ := h p hp
  · exact heq.trans hn
  · rw [hnone] at hn
    cases hn

/-- A file that is there now was there before. -/
theorem Spares.node_file (h : Spares P fs fs') (hp : P p) {content : List UInt8} :
    fs'.node p = some (.file content) ↔ fs.node p = some (.file content) := by
  obtain heq | ⟨hnone, hdir⟩ := h p hp
  · rw [heq]
  · simp [hnone, hdir]

/-! ## One entry -/

theorem node_put (h : fs.put p n = some fs') :
    fs'.node q = if q = p then some n else fs.node q := by
  unfold put at h
  split_ifs at h
  obtain rfl := Option.some.inj h
  exact node_create

theorem node_of_put (h : fs.put p n = some fs') : fs.node p = none := by
  unfold put at h
  split_ifs at h with hp
  exact hp.2.2.1

theorem spares_put_dir (h : fs.put p .dir = some fs') : Spares (fun _ => True) fs fs' := by
  intro q _
  rw [node_put h]
  by_cases hq : q = p
  · rw [if_pos hq]
    exact .inr ⟨hq ▸ node_of_put h, rfl⟩
  · rw [if_neg hq]
    exact .inl rfl

theorem node_writeFile {content : List UInt8} (h : fs.writeFile s content = some (p, fs')) :
    fs'.node q = if q = p then some (.file content) else fs.node q := by
  unfold writeFile at h
  obtain ⟨r, _, h⟩ := Option.bind_eq_some_iff.mp h
  by_cases hold : ∃ old, fs.node r = some (.file old)
  · rw [dif_pos hold] at h
    obtain ⟨rfl, rfl⟩ := Prod.mk.inj (Option.some.inj h)
    exact node_overwrite
  · rw [dif_neg hold] at h
    obtain ⟨fs₁, hput, h⟩ := Option.map_eq_some_iff.mp h
    obtain ⟨rfl, rfl⟩ := Prod.mk.inj h
    exact node_put hput

/-- Nothing but a file is overwritten. -/
theorem node_of_writeFile {content : List UInt8} (h : fs.writeFile s content = some (p, fs')) :
    fs.node p = none ∨ ∃ old, fs.node p = some (.file old) := by
  unfold writeFile at h
  obtain ⟨r, _, h⟩ := Option.bind_eq_some_iff.mp h
  by_cases hold : ∃ old, fs.node r = some (.file old)
  · rw [dif_pos hold] at h
    obtain ⟨rfl, -⟩ := Prod.mk.inj (Option.some.inj h)
    exact .inr hold
  · rw [dif_neg hold] at h
    obtain ⟨fs₁, hput, h⟩ := Option.map_eq_some_iff.mp h
    obtain ⟨rfl, -⟩ := Prod.mk.inj h
    exact .inl (node_of_put hput)

theorem spares_writeFile {content : List UInt8} (h : fs.writeFile s content = some (p, fs')) :
    Spares (· ≠ p) fs fs' := by
  intro q hq
  rw [node_writeFile h, if_neg hq]
  exact .inl rfl

/-! ## Directories -/

/-- What every new directory keeps, `makedirs` keeps. -/
structure DirRule (R : FileSystem → FileSystem → Prop) : Prop where
  refl : ∀ fs, R fs fs
  trans : ∀ {fs fs' fs''}, R fs fs' → R fs' fs'' → R fs fs''
  put : ∀ {fs fs' : FileSystem} {p}, fs.put p .dir = some fs' → R fs fs'

namespace DirRule
variable {R : FileSystem → FileSystem → Prop}

theorem mkdir (hR : DirRule R) (h : fs.mkdir s = .ok fs') : R fs fs' := by
  unfold FileSystem.mkdir at h
  split at h
  · cases h
  · split at h
    · cases h
    · split_ifs at h
      split at h
      · rename_i hput
        obtain rfl := Except.ok.inj h
        exact hR.put hput
      · cases h

theorem mkdirExistOk (hR : DirRule R) (fs : FileSystem) (s : Str) : R fs (fs.mkdirExistOk s).1 := by
  unfold FileSystem.mkdirExistOk
  cases hmk : fs.mkdir s with
  | ok fs' => exact hR.mkdir hmk
  | error e =>
    dsimp only
    split_ifs <;> exact hR.refl fs

theorem makedirs (hR : DirRule R) (n : ℕ) (fs : FileSystem) (s : Str) :
    R fs (FileSystem.makedirs n fs s).1 := by
  induction n generalizing fs s with
  | zero => exact hR.refl fs
  | succ n ih =>
    have hhead := ih fs (splitLast s).1
    unfold FileSystem.makedirs
    dsimp only
    by_cases hmissing : (splitLast s).1 ≠ [] ∧ (splitLast s).2 ≠ [] ∧
        !fs.pathExists (splitLast s).1
    · rw [if_pos hmissing]
      split
      · exact hhead
      · by_cases htail : (splitLast s).2 = "."
        · rw [if_pos htail]
          exact hhead
        · rw [if_neg htail]
          exact hR.trans hhead (hR.mkdirExistOk _ s)
    · rw [if_neg hmissing]
      exact hR.mkdirExistOk fs s

end DirRule

theorem dirRule_spares (P : Path → Prop) : DirRule (Spares P) where
  refl := Spares.refl P
  trans := Spares.trans
  put h := (spares_put_dir h).mono fun _ _ => trivial

/-! ## Paths keep leading where they led -/

/-- No symlink has changed, and no directory is gone. -/
structure Extends (fs fs' : FileSystem) : Prop where
  links : SameLinks fs fs'
  dir : ∀ {p}, fs.node p = some .dir → fs'.node p = some .dir

theorem Extends.refl (fs : FileSystem) : Extends fs fs := ⟨.refl fs, id⟩

theorem Extends.trans (h : Extends fs fs') (h' : Extends fs' fs'') : Extends fs fs'' :=
  ⟨h.links.trans h'.links, fun hp => h'.dir (h.dir hp)⟩

theorem dirRule_extends : DirRule Extends where
  refl := .refl
  trans := .trans
  put h := ⟨sameLinks_put rfl h, fun hp => (spares_put_dir h).node trivial hp⟩

theorem extends_writeFile {content : List UInt8} (h : fs.writeFile s content = some (p, fs')) :
    Extends fs fs' := by
  refine ⟨(writeFile_spec h).2.1, fun {q} hq => ?_⟩
  refine (spares_writeFile h).node (p := q) ?_ hq
  rintro rfl
  obtain hnone | ⟨old, hold⟩ := node_of_writeFile h
  · rw [hq] at hnone
    cases hnone
  · rw [hq] at hold
    cases hold

theorem Extends.enterName (h : Extends fs fs') {enter enter' : Path → Str → Option Path}
    (henter : ∀ l target r, enter l target = some r → enter' l target = some r) {name : Str}
    (hp : Posix.enterName fs.node enter p name = some q) :
    Posix.enterName fs'.node enter' p name = some q := by
  unfold Posix.enterName at hp ⊢
  by_cases hdir : fs.node p = some .dir
  · rw [if_neg (not_not.mpr hdir)] at hp
    rw [if_neg (not_not.mpr (h.dir hdir))]
    split_ifs at hp ⊢
    · exact hp
    · exact hp
    · have hlink : (fs'.node (p ++ [name])).bind Node.target =
          (fs.node (p ++ [name])).bind Node.target := congrFun h.links.readlink _
      rw [hlink]
      cases htarget : (fs.node (p ++ [name])).bind Node.target with
      | none => rwa [htarget] at hp
      | some target =>
        rw [htarget] at hp
        exact henter _ _ _ hp
  · rw [if_pos hdir] at hp
    cases hp

theorem Extends.traverse (h : Extends fs fs') {enter enter' : Path → Str → Option Path}
    (henter : ∀ l target r, enter l target = some r → enter' l target = some r) {ns : List Str}
    (hp : Posix.traverse fs.node enter p ns = some q) :
    Posix.traverse fs'.node enter' p ns = some q := by
  unfold Posix.traverse at hp ⊢
  induction ns generalizing p with
  | nil => exact hp
  | cons name ns ih =>
    rw [List.foldlM_cons] at hp ⊢
    obtain ⟨r, hstep, hrest⟩ := Option.bind_eq_some_iff.mp hp
    exact Option.bind_eq_some_iff.mpr ⟨r, h.enterName henter hstep, ih hrest⟩

theorem Extends.traverseLinks (h : Extends fs fs') {m : ℕ} {active : List Path} {ns : List Str}
    (hp : fs.traverseLinks m active p ns = some q) :
    fs'.traverseLinks m active p ns = some q := by
  induction m generalizing active p q ns with
  | zero => exact h.traverse (fun _ _ _ he => by cases he) hp
  | succ m ih =>
    refine h.traverse (fun l target r he => ?_) hp
    by_cases hactive : l ∈ active
    · rw [if_pos hactive] at he
      cases he
    · rw [if_neg hactive] at he ⊢
      exact ih he

/-- What the kernel found it still finds. -/
theorem Extends.locate (h : Extends fs fs') (hp : fs.locate s = some p) :
    fs'.locate s = some p := by
  unfold FileSystem.locate at hp ⊢
  split_ifs at hp ⊢
  rw [h.links.linkCount, base, h.links.cwd]
  exact h.traverseLinks hp

end AegisCode.Posix.FileSystem
