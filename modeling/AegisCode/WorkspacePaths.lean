import AegisCode.Redaction

/-!
# Stripping the workspace root

The two substitutions of `redact` that take the root out of a text look for it
anywhere, not only at the front of a path. A path is left with its front removed
and nothing else just when the root with a slash behind it does not stand
anywhere else in it.
-/
namespace AegisCode.Redactor

open Substitution

/-- An absolute path other than `/`, without a slash at its end. -/
structure IsRoot (root : Str) : Prop where
  absolute : root.head? = some '/'
  noSlash : root.getLast? ≠ some '/'

instance decidableIsRoot (root : Str) : Decidable (IsRoot root) :=
  decidable_of_iff (root.head? = some '/' ∧ root.getLast? ≠ some '/')
    ⟨fun h => ⟨h.1, h.2⟩, fun h => ⟨h.absolute, h.noSlash⟩⟩

/-- Without white space and colons. -/
def IsPathText (s : Str) : Prop := ∀ c ∈ s, Str.isSpace c = false ∧ c ≠ ':'

instance decidableIsPathText (s : Str) : Decidable (IsPathText s) :=
  inferInstanceAs (Decidable (∀ c ∈ s, Str.isSpace c = false ∧ c ≠ ':'))

theorem IsRoot.ne_nil {root : Str} (h : IsRoot root) : root ≠ [] := by
  rintro rfl
  exact absurd h.absolute (by simp)

/-- `rstrip` leaves the root as it is. -/
theorem IsRoot.rstrip {root : Str} (h : IsRoot root) :
    (root.reverse.dropWhile (· = '/')).reverse = root := by
  have hlast := h.noSlash
  rw [List.getLast?_eq_head?_reverse] at hlast
  cases hrev : root.reverse with
  | nil => rw [List.reverse_eq_nil_iff.mp hrev]; rfl
  | cons c s =>
    rw [hrev, List.head?_cons] at hlast
    have hc : ¬ c = '/' := fun heq => hlast (by rw [heq])
    rw [List.dropWhile_cons_of_neg (by simpa using hc), ← hrev, List.reverse_reverse]

/-! ## The two substitutions -/

theorem search_rootAt {root : Str} {tail : Str → Bool} {s : Str} (hroot : root ≠ []) :
    search (rootAt root tail) s = true ↔ ∃ rest, root ++ rest <:+ s ∧ tail rest = true := by
  rw [search_iff]
  constructor
  · rintro ⟨t, hsuf, w, hw⟩
    simp only [rootAt] at hw
    split_ifs at hw with hfound
    obtain ⟨rest, rfl⟩ := hfound.2.1
    rw [List.drop_left] at hfound
    exact ⟨rest, hsuf, hfound.2.2⟩
  · rintro ⟨rest, hsuf, htail⟩
    refine ⟨root ++ rest, hsuf, root, ?_⟩
    simp only [rootAt]
    rw [if_pos ⟨hroot, List.prefix_append root rest, by rwa [List.drop_left]⟩]

/-- A text with a slash behind it has the root as a directory inside of it. -/
theorem root_infix_iff {root s : Str} : root ++ ['/'] <:+: s ++ ['/'] ↔
    root <:+ s ∨ root ++ ['/'] <:+: s := by
  rw [List.infix_concat_iff, List.suffix_concat_iff]
  simp

theorem search_root {root s : Str} :
    search (rootAt (root ++ ['/']) fun _ => true) s = true ↔ root ++ ['/'] <:+: s := by
  rw [search_rootAt (by simp)]
  constructor
  · rintro ⟨rest, hsuf, -⟩
    exact (List.prefix_append _ rest).isInfix.trans hsuf.isInfix
  · rintro ⟨a, rest, rfl⟩
    exact ⟨rest, ⟨a, by simp⟩, rfl⟩

theorem search_bareRoot {root s : Str} (hroot : root ≠ []) (hs : IsPathText s) :
    search (rootAt root boundary) s = true ↔ root ++ ['/'] <:+: s ++ ['/'] := by
  rw [search_rootAt hroot, root_infix_iff]
  constructor
  · rintro ⟨rest, hsuf, hboundary⟩
    cases rest with
    | nil => exact .inl (by simpa using hsuf)
    | cons c rest =>
      have hc := hs c (hsuf.subset (by simp))
      obtain rfl : c = '/' := by simpa [boundary, hc] using hboundary
      refine .inr (List.IsInfix.trans ?_ hsuf.isInfix)
      exact ⟨[], rest, by simp⟩
  · rintro (hsuf | ⟨a, rest, rfl⟩)
    · exact ⟨[], by simpa using hsuf, rfl⟩
    · exact ⟨'/' :: rest, ⟨a, by simp⟩, rfl⟩

/-- The substitutions of `redact` for a root. -/
def stripRoot (root text : Str) : Str :=
  sub (rootAt root boundary) id [] 0 (sub (rootAt (root ++ ['/']) fun _ => true) id [] 0 text)

theorem redact_root {root text : Str} (hroot : IsRoot root) (htext : Clean text) :
    redact text (some root) = stripRoot root text := by
  obtain ⟨c, s, rfl⟩ := List.exists_cons_of_ne_nil hroot.ne_nil
  have hstrip := hroot.rstrip
  unfold redact
  dsimp only
  rw [hstrip, scrub_of_clean htext]
  rfl

theorem stripRoot_eq_iff {root s : Str} (hroot : IsRoot root) (hs : IsPathText s) :
    stripRoot root s = s ↔ ¬ root ++ ['/'] <:+: s ++ ['/'] := by
  rw [← search_bareRoot hroot.ne_nil hs, Bool.not_eq_true]
  constructor
  · intro h
    have hfirst : sub (rootAt (root ++ ['/']) fun _ => true) id [] 0 s = s := by
      apply (sub_nil_sublist 0 s).eq_of_length_le
      have hlen := (sub_nil_sublist (M := rootAt root boundary) 0
        (sub (rootAt (root ++ ['/']) fun _ => true) id [] 0 s)).length_le
      rwa [← stripRoot, h] at hlen
    rw [stripRoot, hfirst] at h
    exact sub_nil_eq_iff.mp h
  · intro h
    have hfirst : sub (rootAt (root ++ ['/']) fun _ => true) id [] 0 s = s := by
      rw [sub_nil_eq_iff, ← Bool.not_eq_true, search_root]
      intro hin
      rw [← Bool.not_eq_true, search_bareRoot hroot.ne_nil hs, root_infix_iff] at h
      exact h (.inr hin)
    rw [stripRoot, hfirst]
    exact sub_nil_eq_iff.mpr h

/-- The root in front of a path is taken off by the first substitution. -/
theorem stripRoot_under {root rel : Str} :
    stripRoot root (root ++ '/' :: rel) = stripRoot root rel := by
  have hfind : (rootAt (root ++ ['/']) fun _ => true).find ((root ++ ['/'] ++ rel).map id) =
      some ((root ++ ['/']).map id) := by
    simp [rootAt]
  have hsplit : root ++ '/' :: rel = root ++ ['/'] ++ rel := by simp
  rw [stripRoot, hsplit, sub_word hfind, List.nil_append, stripRoot]

/-- Stripping the root takes a path under it to its relative path, and leaves another
path alone, if and only if the root is not a directory further inside. -/
theorem strip_exact_iff (root rel path : Str) (hroot : IsRoot root)
    (hunder : Clean (root ++ '/' :: rel)) (hrel : IsPathText rel) (hpath : Clean path)
    (htext : IsPathText path) :
    (redact (root ++ '/' :: rel) (some root) = rel ↔ ¬ root ++ ['/'] <:+: rel ++ ['/']) ∧
    (redact path (some root) = path ↔ ¬ root ++ ['/'] <:+: path ++ ['/']) := by
  rw [redact_root hroot hunder, stripRoot_under, redact_root hroot hpath]
  exact ⟨stripRoot_eq_iff hroot hrel, stripRoot_eq_iff hroot htext⟩

theorem strip_exact_iff_workspace :
    (redact "/workspace/src/foo.py" (some "/workspace".toList) = "src/foo.py".toList ↔
      ¬ "/workspace/".toList <:+: "src/foo.py/".toList) ∧
    (redact "/workspace-backup/foo.py" (some "/workspace".toList) =
      "/workspace-backup/foo.py".toList ↔
        ¬ "/workspace/".toList <:+: "/workspace-backup/foo.py/".toList) :=
  strip_exact_iff "/workspace" "src/foo.py" "/workspace-backup/foo.py" (by decide) (by decide)
    (by decide) (by decide) (by decide)

/-- A directory of the name of the root inside another one is taken out of the path. -/
theorem strip_inside : redact "/a/x/a/y" (some "/a".toList) = "xy".toList ∧
    redact "/x/a/y" (some "/a".toList) = "/xy".toList := by
  decide

end AegisCode.Redactor
