import AegisCode.Text
import Mathlib.Data.List.DropRight

/-!
# Paths

Path strings and their names, after the functions of `os.path` on POSIX. A
location is the list of names that leads to it from the root.
-/
namespace AegisCode.Posix

/-- A location: names from the root, none of them special. -/
abbrev Path := List Str

/-- A name that denotes an entry of a directory. -/
def ProperName (name : Str) : Prop := name ≠ [] ∧ name ≠ "." ∧ name ≠ ".." ∧ '/' ∉ name

instance (name : Str) : Decidable (ProperName name) := inferInstanceAs (Decidable (_ ∧ _))

/-- A list of names that denotes a location. -/
def Proper (p : Path) : Prop := ∀ name ∈ p, ProperName name

instance (p : Path) : Decidable (Proper p) := inferInstanceAs (Decidable (∀ _ ∈ _, _))

/-! ## Path strings -/

def split (s : Str) : List Str := s.splitOn '/'

def isabs (s : Str) : Bool := Str.startsWith s "/"

/-- Whether a directory prefix needs a separator behind it. -/
def endsDir (s : Str) : Bool := s.getLast? = some '/'

/-- `os.path.join` of two paths. -/
def join (a b : Str) : Str :=
  if isabs b then b else if a = [] ∨ endsDir a then a ++ b else a ++ '/' :: b

/-- What stands before the last name, its separator included. -/
def head (s : Str) : Str := s.rdropWhile (· ≠ '/')

def basename (s : Str) : Str := s.rtakeWhile (· ≠ '/')

def dirname (s : Str) : Str :=
  if ∀ c ∈ head s, c = '/' then head s else (head s).rdropWhile (· = '/')

/-- The string of a location. -/
def render (p : Path) : Str := if p = [] then "/" else p.flatMap fun name => '/' :: name

/-- The names in a path string; repeated separators do not count. -/
def names (s : Str) : List Str := (split s).filter (· ≠ [])

/-! ## Names of composed paths -/

theorem names_sep (a b : Str) : names (a ++ '/' :: b) = names a ++ names b := by
  unfold names split
  rw [List.splitOn_append_cons_self, List.filter_append]

@[simp] theorem names_nil : names [] = [] := rfl

theorem names_append_sep (a : Str) : names (a ++ ['/']) = names a := by
  rw [names_sep, names_nil, List.append_nil]

/-- A prefix that ends a name leaves the names on both sides as they are. -/
theorem names_append {a : Str} (b : Str) (ha : a = [] ∨ endsDir a = true) :
    names (a ++ b) = names a ++ names b := by
  obtain rfl | ha := ha
  · rfl
  · obtain ⟨a', rfl⟩ : ∃ a', a = a' ++ ['/'] := by
      unfold endsDir at ha
      exact List.getLast?_eq_some_iff.mp (by simpa using ha)
    rw [List.append_assoc, List.singleton_append, names_sep, names_append_sep]

theorem names_join {a b : Str} (hb : isabs b = false) : names (join a b) = names a ++ names b := by
  unfold join
  rw [if_neg (by simp [hb])]
  by_cases ha : a = [] ∨ endsDir a = true
  · rw [if_pos ha, names_append b ha]
  · rw [if_neg ha, names_sep]

theorem not_mem_of_mem_split {s name : Str} (h : name ∈ split s) : '/' ∉ name := by
  unfold split at h
  induction s generalizing name with
  | nil =>
    obtain rfl : name = [] := by simpa using h
    exact List.not_mem_nil
  | cons c s ih =>
    rw [List.splitOn_cons_eq_if_modifyHead] at h
    obtain ⟨x, xs, hx⟩ := List.exists_cons_of_ne_nil (List.splitOn_ne_nil '/' s)
    rw [hx] at h ih
    by_cases hc : c = '/'
    · rw [if_pos (by simpa using hc)] at h
      obtain rfl | h := List.mem_cons.mp h
      · exact List.not_mem_nil
      · exact ih h
    · rw [if_neg (by simpa using hc), List.modifyHead_cons] at h
      obtain rfl | h := List.mem_cons.mp h
      · have hx := ih (List.mem_cons_self ..)
        simp [hx, Ne.symm hc]
      · exact ih (List.mem_cons_of_mem _ h)

theorem mem_names {s name : Str} (h : name ∈ names s) : name ≠ [] ∧ '/' ∉ name := by
  unfold names at h
  obtain ⟨hmem, hne⟩ := List.mem_filter.mp h
  exact ⟨by simpa using hne, not_mem_of_mem_split hmem⟩

/-- A string without separator is its own only name. -/
theorem names_of_not_mem {s : Str} (hs : '/' ∉ s) : names s = if s = [] then [] else [s] := by
  unfold names split
  rw [List.splitOn_eq_singleton hs]
  by_cases h : s = [] <;> simp [h]

theorem head_append_basename (s : Str) : head s ++ basename s = s :=
  List.rdropWhile_append_rtakeWhile ..

theorem not_mem_basename (s : Str) : '/' ∉ basename s := by
  intro h
  have := List.mem_rtakeWhile_imp h
  simp at this

theorem head_eq_nil_or (s : Str) : head s = [] ∨ endsDir (head s) = true := by
  by_cases h : head s = []
  · exact .inl h
  · have hlast := List.rdropWhile_last_not (· ≠ '/') s h
    right
    unfold endsDir
    rw [List.getLast?_eq_some_getLast h]
    simpa [head] using hlast

theorem names_rdropWhile (s : Str) : names (s.rdropWhile (· = '/')) = names s := by
  induction s using List.reverseRecOn with
  | nil => rfl
  | append_singleton s c ih =>
    by_cases hc : c = '/'
    · subst hc
      rw [List.rdropWhile_concat_pos _ _ _ (by simp), ih, names_append_sep]
    · rw [List.rdropWhile_concat_neg _ _ _ (by simpa using hc)]

theorem names_dirname (s : Str) : names (dirname s) = names (head s) := by
  unfold dirname
  split_ifs
  · rfl
  · exact names_rdropWhile _

/-- The names of a path are those of its directory, then its last name. -/
theorem names_eq (s : Str) : names s = names (dirname s) ++ names (basename s) := by
  rw [names_dirname, ← names_append _ (head_eq_nil_or s), head_append_basename]

theorem names_cons_sep (s : Str) : names ('/' :: s) = names s := names_sep [] s

theorem names_flatMap {p : Path} (hp : Proper p) :
    names (p.flatMap fun name => '/' :: name) = p := by
  induction p with
  | nil => rfl
  | cons name p ih =>
    have hname := hp name (List.mem_cons_self ..)
    have hrest := ih fun x hx => hp x (List.mem_cons_of_mem _ hx)
    have hsingle : names name = [name] := by
      rw [names_of_not_mem hname.2.2.2, if_neg hname.1]
    rw [List.flatMap_cons, List.cons_append, names_cons_sep]
    cases p with
    | nil => rw [List.flatMap_nil, List.append_nil, hsingle]
    | cons next p =>
      rw [List.flatMap_cons, List.cons_append] at hrest ⊢
      rw [names_cons_sep] at hrest
      rw [names_sep, hrest, hsingle, List.singleton_append]

/-- Reading the string of a location gives the location back. -/
theorem names_render {p : Path} (hp : Proper p) : names (render p) = p := by
  unfold render
  by_cases hnil : p = []
  · rw [if_pos hnil, hnil]
    rfl
  · rw [if_neg hnil, names_flatMap hp]

theorem isabs_render (p : Path) : isabs (render p) = true := by
  unfold render
  cases p <;> simp [isabs, Str.startsWith]

end AegisCode.Posix
