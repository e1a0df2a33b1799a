import AegisCode.LiteralRedaction
import AegisCode.WorkspacePaths

/-!
# Stripping the root from a text with literals

A root whose letters a literal spells as they stand is stripped from a text as it
is stripped from each string of the text: the matches begin with a slash, and
slashes stand in literals only. What a literal ends with is no boundary.
-/
namespace AegisCode.Redactor

open Substitution
open Json (Literalwise IsAtom escape enclose)

/-- The literal of the text is the text itself. -/
def Plain (s : Str) : Prop := ∀ c ∈ s, escape c = [c]

instance decidablePlain (s : Str) : Decidable (Plain s) :=
  inferInstanceAs (Decidable (∀ c ∈ s, escape c = [c]))

theorem Plain.not_mem {s : Str} (h : Plain s) {c : Char} (hc : escape c ≠ [c]) : c ∉ s :=
  fun hin => hc (h c hin)

/-- `boundary` inside a literal, whose end is none. -/
def innerBoundary (rest : Str) : Bool :=
  rest.head?.any fun c => c = '/' || Str.isSpace c || c = ':'

/-- `boundary` inside a string: white space other than a blank has a code. -/
def literalBoundary (rest : Str) : Bool := rest.head?.any fun c => c = '/' || c = ' ' || c = ':'

/-- The substitutions for a root, with `tail` for what may stand behind the bare root. -/
def stripWith (tail : Str → Bool) (root s : Str) : Str :=
  sub (rootAt root tail) id [] 0 (sub (rootAt (root ++ ['/']) fun _ => true) id [] 0 s)

/-- What the substitutions for a root make of a string that stands in a text. -/
def stripLiteral (root s : Str) : Str := stripWith literalBoundary root s

/-! ## One substitution -/

section Root
variable {root : Str} {tail tail' : Str → Bool}

/-- No match begins with another letter than a slash. -/
theorem find_rootAt_none (hroot : ∀ c ∈ root.head?, c = '/') {c : Char} (hc : c ≠ '/') (s : Str) :
    (rootAt root tail).find (c :: s) = none := by
  refine Option.eq_none_iff_forall_ne_some.mpr fun w hw => ?_
  simp only [rootAt] at hw
  split_ifs at hw with hfound
  obtain ⟨d, t, rfl⟩ := List.exists_cons_of_ne_nil hfound.1
  obtain rfl : d = '/' := hroot d rfl
  exact hc (List.cons_prefix_cons.mp hfound.2.1).1.symm

/-- A letter that the root does not have ends it. -/
theorem find_rootAt_append {d : Char} (hd : d ∉ root)
    (htail : ∀ rest r, tail (rest ++ d :: r) = tail' rest) (s r : Str) :
    (rootAt root tail).find (s ++ d :: r) = (rootAt root tail').find s := by
  have hpre : root <+: s ++ d :: r ↔ root <+: s := by
    constructor
    · rintro ⟨t, ht⟩
      obtain ⟨z, rfl, -⟩ | ⟨z, rfl, hz⟩ := List.append_eq_append_iff.mp ht
      · exact List.prefix_append root z
      · cases z with
        | nil => rw [List.append_nil]
        | cons e z =>
          obtain rfl : d = e := (List.cons.inj hz).1
          exact absurd (by simp) hd
    · exact fun h => h.trans (List.prefix_append s _)
  simp only [rootAt]
  by_cases hs : root <+: s
  · obtain ⟨t, rfl⟩ := hs
    rw [List.append_assoc, List.drop_left, List.drop_left, htail]
    simp
  · rw [if_neg (by rw [hpre]; tauto), if_neg (by tauto)]

theorem find_rootAt_encoded (hroot : Plain root)
    (htail : ∀ rest : Str, tail (rest.flatMap escape) = tail' rest) (s : Str) :
    (rootAt root tail).find (s.flatMap escape) = (rootAt root tail').find s := by
  have hpre : root <+: s.flatMap escape ↔ root <+: s := by
    constructor
    · rintro ⟨t, ht⟩
      obtain ⟨u, rfl, -, -⟩ := escaping.split (hroot.not_mem escaping.coded) ht.symm
      exact List.prefix_append root u
    · rintro ⟨t, rfl⟩
      exact ⟨t.flatMap escape, by rw [List.flatMap_append, flatMap_plain hroot]⟩
  simp only [rootAt]
  by_cases hs : root <+: s
  · obtain ⟨t, rfl⟩ := hs
    rw [List.flatMap_append, flatMap_plain hroot, List.drop_left, List.drop_left, htail]
    simp
  · rw [if_neg (by rw [hpre]; tauto), if_neg (by tauto)]

/-- The root is stripped from each literal of a text. -/
theorem rootAt_literalwise (hhead : ∀ c ∈ root.head?, c = '/') (hquote : '"' ∉ root)
    (htail : ∀ rest r, tail (rest ++ '"' :: r) = tail' rest) :
    Literalwise (sub (rootAt root tail) id [] 0) (sub (rootAt root tail') id [] 0) := by
  have hkeep : ∀ {c : Char}, c ≠ '/' → ∀ text, sub (rootAt root tail) id [] 0 (c :: text) =
      c :: sub (rootAt root tail) id [] 0 text :=
    fun hc text => sub_keep (f := id) (find_rootAt_none hhead hc) text
  refine ⟨rfl, ?_, ?_, ?_⟩
  · rintro c (hc | rfl) text
    · refine hkeep ?_ text
      rintro rfl
      exact absurd hc (by decide)
    · exact hkeep (by decide) text
  · intro t rest ht _
    have hslash : '/' ∉ t := by
      obtain hnumber | hname := ht
      · exact fun hin => absurd (hnumber '/' hin) (by decide)
      · have hall : ∀ t ∈ ["null".toList, "true".toList, "false".toList, "[]".toList, ['\x7b', '\x7d']],
          '/' ∉ t := by decide
        exact hall t hname
    refine sub_inert fun a c b hab => ?_
    rw [List.map_id]
    refine find_rootAt_none hhead ?_ _
    rintro rfl
    exact hslash (by rw [hab]; simp)
  · intro body rest _
    have htext : enclose body ++ rest = '"' :: (body ++ '"' :: rest) := by simp [enclose]
    have hbody : sub (rootAt root tail) id [] 0 (body ++ '"' :: rest) =
        sub (rootAt root tail') id [] 0 body ++ sub (rootAt root tail) id [] 0 ('"' :: rest) :=
      sub_append_of (fun s => by rw [List.map_id]; exact find_rootAt_append hquote htail s rest)
        (Nat.zero_le _)
    rw [htext, hkeep (by decide), hbody, hkeep (by decide)]
    simp [enclose]

/-- The root is stripped from the string of a literal. -/
theorem sub_rootAt_encoded (hhead : ∀ c ∈ root.head?, c = '/') (hroot : Plain root)
    (htail : ∀ rest : Str, tail (rest.flatMap escape) = tail' rest) (s : Str) :
    sub (rootAt root tail) id [] 0 (s.flatMap escape) =
      (sub (rootAt root tail') id [] 0 s).flatMap escape := by
  refine sub_flatMap (find_rootAt_encoded hroot htail) ?_ ?_ (by simp) s 0 (by simp)
  · intro s w hw
    simp only [rootAt] at hw
    split_ifs at hw
    obtain rfl := Option.some.inj hw
    exact hroot
  · intro c d a b hc hcode t
    refine find_rootAt_none hhead ?_ _
    rintro rfl
    have hslash : '/' ∈ escape c := by rw [hcode]; simp
    obtain hin | ⟨-, hin⟩ := code_mem hc hslash
    · exact absurd hin (by decide)
    · exact absurd hin (by decide)

/-- A cut literal is still cut. -/
theorem sub_rootAt_cut (hhead : ∀ c ∈ root.head?, c = '/') (hroot : Plain root)
    (htail : ∀ rest r, tail (rest ++ '\\' :: r) = tail rest)
    (henc : ∀ rest : Str, tail (rest.flatMap escape) = tail' rest) {text : Str} (h : Cut text) :
    Cut (sub (rootAt root tail) id [] 0 text) := by
  obtain ⟨a, b, rfl⟩ := h
  have hslash : '\\' ∉ root := hroot.not_mem escaping.coded
  have hsplit : sub (rootAt root tail) id [] 0 (a.flatMap escape ++ '\\' :: '[' :: b) =
      sub (rootAt root tail) id [] 0 (a.flatMap escape) ++
        sub (rootAt root tail) id [] 0 ('\\' :: '[' :: b) :=
    sub_append_of (fun s => by rw [List.map_id]; exact find_rootAt_append hslash htail s _)
      (Nat.zero_le _)
  rw [hsplit, sub_rootAt_encoded hhead hroot henc,
    sub_keep (f := id) (find_rootAt_none hhead (by decide)),
    sub_keep (f := id) (find_rootAt_none hhead (by decide))]
  exact ⟨_, _, rfl⟩

theorem sub_rootAt_of_not_mem (hhead : ∀ c ∈ root.head?, c = '/') {s : Str} (hs : '/' ∉ s) :
    sub (rootAt root tail) id [] 0 s = s := by
  have hkeep : sub (rootAt root tail) id [] 0 (s ++ []) = s ++ [] := by
    refine sub_inert fun a c b hab => ?_
    rw [List.map_id]
    refine find_rootAt_none hhead ?_ _
    rintro rfl
    exact hs (by rw [hab]; simp)
  rwa [List.append_nil] at hkeep

end Root

/-! ## Both substitutions -/

section Strip
variable {root : Str}

theorem literalBoundary_quote (rest r : Str) :
    literalBoundary (rest ++ '"' :: r) = literalBoundary rest := by
  cases rest with
  | nil => rfl
  | cons c rest => rfl

theorem boundary_quote (rest r : Str) : boundary (rest ++ '"' :: r) = innerBoundary rest := by
  cases rest with
  | nil => rfl
  | cons c rest => rfl

theorem plain_toNat {c : Char} (hc : escape c = [c]) : 32 ≤ c.toNat ∧ c.toNat ≤ 126 := by
  unfold escape at hc
  split_ifs at hc with h₁ h₂ h₃ h₄ h₅ h₆ h₇ h₈
  all_goals first | exact h₈ | simp [Json.unicodeEscape] at hc

/-- White space that a literal spells as it stands is a blank. -/
theorem space_of_plain {c : Char} (hc : Str.isSpace c = true) (hplain : escape c = [c]) :
    c = ' ' := by
  have hspace := isSpace_toNat hc
  have hascii := plain_toNat hplain
  have hn : c.toNat = ' '.toNat := by
    simp only [Char.reduceToNat]
    omega
  exact Char.ext (UInt32.toNat.inj hn)

/-- The letter with which the code of a string goes on, and whether it may stand behind a root. -/
theorem boundary_encoded {tail : Char → Bool} (htail : ∀ c, escape c = [c] →
      tail c = (c = '/' || c = ' ' || c = ':')) (hslash : tail '\\' = false) (rest : Str) :
    (rest.flatMap escape).head?.any tail = literalBoundary rest := by
  cases rest with
  | nil => rfl
  | cons c rest =>
    by_cases hc : escape c = [c]
    · have hhead : ((c :: rest).flatMap escape).head? = some c := by simp [hc]
      rw [hhead]
      exact htail c hc
    · obtain ⟨t, ht⟩ := escaping.code hc
      have hhead : ((c :: rest).flatMap escape).head? = some '\\' := by simp [ht]
      have hcode : ∀ d : Char, escape d = [d] → c ≠ d := fun d hd heq => hc (heq ▸ hd)
      rw [hhead]
      show tail '\\' = (c = '/' || c = ' ' || c = ':')
      simp [hslash, hcode '/' (by decide), hcode ' ' (by decide), hcode ':' (by decide)]

theorem innerBoundary_encoded (rest : Str) :
    innerBoundary (rest.flatMap escape) = literalBoundary rest := by
  refine boundary_encoded (fun c hc => ?_) (by decide) rest
  by_cases hspace : Str.isSpace c = true
  · obtain rfl := space_of_plain hspace hc
    decide
  · have hblank : c ≠ ' ' := by
      rintro rfl
      exact hspace (by decide)
    simp [hspace, hblank]

theorem literalBoundary_encoded (rest : Str) :
    literalBoundary (rest.flatMap escape) = literalBoundary rest :=
  boundary_encoded (fun _ _ => rfl) (by decide) rest

theorem plain_slash (hroot : Plain root) : Plain (root ++ ['/']) := by
  intro c hc
  obtain hc | hc := List.mem_append.mp hc
  · exact hroot c hc
  · obtain rfl := List.mem_singleton.mp hc
    decide

variable (hhead : ∀ c ∈ root.head?, c = '/')
include hhead

theorem head_slash : ∀ c ∈ (root ++ ['/']).head?, c = '/' := by
  intro c hc
  cases root with
  | nil => simpa using hc.symm
  | cons d t => exact hhead c hc

theorem stripLiteral_of_not_mem {s : Str} (hs : '/' ∉ s) : stripLiteral root s = s := by
  rw [stripLiteral, stripWith, sub_rootAt_of_not_mem (head_slash hhead) hs,
    sub_rootAt_of_not_mem hhead hs]

variable (hroot : Plain root) {tail tail' : Str → Bool}
include hroot

/-- The root is stripped from each literal. -/
theorem stripWith_literalwise (htail : ∀ rest r, tail (rest ++ '"' :: r) = tail' rest) :
    Literalwise (stripWith tail root) (stripWith tail' root) := by
  have hquote : ∀ {s : Str}, Plain s → '"' ∉ s := fun hs => hs.not_mem (by decide)
  have hslash : Literalwise (sub (rootAt (root ++ ['/']) fun _ => true) id [] 0)
      (sub (rootAt (root ++ ['/']) fun _ => true) id [] 0) :=
    rootAt_literalwise (head_slash hhead) (hquote (plain_slash hroot)) fun _ _ => rfl
  exact (rootAt_literalwise hhead (hquote hroot) htail).comp hslash

/-- The root is stripped from the string that a literal spells. -/
theorem stripWith_encoded (htail : ∀ rest : Str, tail (rest.flatMap escape) = tail' rest) (s : Str) :
    stripWith tail root (s.flatMap escape) = (stripWith tail' root s).flatMap escape := by
  have hslash : sub (rootAt (root ++ ['/']) fun _ => true) id [] 0 (s.flatMap escape) =
      (sub (rootAt (root ++ ['/']) fun _ => true) id [] 0 s).flatMap escape :=
    sub_rootAt_encoded (head_slash hhead) (plain_slash hroot) (fun _ => rfl) s
  rw [stripWith, hslash, sub_rootAt_encoded hhead hroot htail, stripWith]

theorem Cut.stripWith (hslash : ∀ rest r, tail (rest ++ '\\' :: r) = tail rest)
    (htail : ∀ rest : Str, tail (rest.flatMap escape) = tail' rest) {text : Str} (h : Cut text) :
    Cut (stripWith tail root text) := by
  have hcut : Cut (sub (rootAt (root ++ ['/']) fun _ => true) id [] 0 text) :=
    sub_rootAt_cut (head_slash hhead) (plain_slash hroot) (fun _ _ => rfl)
      (fun _ => rfl) h
  exact sub_rootAt_cut hhead hroot hslash htail hcut

/-- What is left of the letters of the redacted literals, in the text or in a text in it. -/
theorem codes_stripWith (hinner : tail = innerBoundary ∨ tail = literalBoundary) :
    Codes (fun s => Redactor.stripWith tail root (scrub id "[REDACTED]".toList (s.flatMap escape)))
      fun s => stripLiteral root (scrubLiteral s) := by
  have htail : ∀ rest : Str, tail (rest.flatMap escape) = literalBoundary rest := by
    obtain rfl | rfl := hinner
    · exact innerBoundary_encoded
    · exact literalBoundary_encoded
  have hslash : ∀ rest r, tail (rest ++ '\\' :: r) = tail rest := by
    intro rest r
    obtain rfl | rfl := hinner <;> cases rest <;> rfl
  intro s
  obtain ⟨hfree, h⟩ | ⟨htab, h⟩ := literal_cases s
  · exact .inl ⟨hfree, (congrArg (Redactor.stripWith tail root) h).trans
      (stripWith_encoded hhead hroot htail _)⟩
  · exact .inr ⟨htab, h.stripWith hhead hroot hslash htail⟩

end Strip

end AegisCode.Redactor
