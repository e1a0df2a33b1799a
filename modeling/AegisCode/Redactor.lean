import AegisCode.Json
import AegisCode.Substitution

/-!
# The redactor

`KEY_PATTERNS` and `redact`. A pattern is a matcher: none of the three needs to
take a choice back, since no letter that one part of a pattern may end with can
begin the next part. For each of them the words it matches are given as a
language, and the matcher is shown to find exactly these.
-/
namespace AegisCode.Redactor

open Substitution

/-! ## Letters -/

/-- `[lo-hi]`. -/
def inRange (lo hi c : Char) : Bool := lo.toNat ≤ c.toNat ∧ c.toNat ≤ hi.toNat

/-- The lower case of a letter as matching without regard to case has it, for
the letters that have an ASCII letter as their lower case or as its other form. -/
def fold (c : Char) : Char :=
  if inRange 'A' 'Z' c then Char.ofNat (c.toNat + 32)
  else if c.toNat = 0x212a then 'k'
  else if c.toNat = 0x17f then 's'
  else if c.toNat = 0x130 ∨ c.toNat = 0x131 then 'i'
  else c

def isAlphanumeric (c : Char) : Bool := inRange 'A' 'Z' c || inRange 'a' 'z' c || inRange '0' '9' c

/-- `[A-Za-z0-9_-]`. -/
def isKeyChar (c : Char) : Bool := isAlphanumeric c || c = '_' || c = '-'

/-- `[0-9A-Z]`. -/
def isAwsChar (c : Char) : Bool := inRange '0' '9' c || inRange 'A' 'Z' c

/-- `[A-Za-z0-9\-_+/=]` without regard to case. -/
def isValueChar (c : Char) : Bool :=
  isAlphanumeric (fold c) || c = '-' || c = '_' || c = '+' || c = '/' || c = '='

/-- The code points that `fold` takes to another letter's. -/
def isFolded (n : ℕ) : Prop := n = 0x212a ∨ n = 0x17f ∨ n = 0x130 ∨ n = 0x131

theorem toNat_eq {c d : Char} (h : c = d) : c.toNat = d.toNat := congrArg Char.toNat h

theorem isAlphanumeric_toNat {c : Char} (h : isAlphanumeric c = true) :
    (48 ≤ c.toNat ∧ c.toNat ≤ 57) ∨ (65 ≤ c.toNat ∧ c.toNat ≤ 90) ∨
      (97 ≤ c.toNat ∧ c.toNat ≤ 122) := by
  simp only [isAlphanumeric, inRange, Bool.or_eq_true, decide_eq_true_eq, Char.reduceToNat] at h
  omega

theorem isAlphanumeric_fold {c : Char} (h : isAlphanumeric (fold c) = true) :
    isAlphanumeric c = true ∨ isFolded c.toNat := by
  unfold fold at h
  split_ifs at h with h1 h2 h3 h4
  · exact .inl (by simp [isAlphanumeric, h1])
  · exact .inr (.inl h2)
  · exact .inr (.inr (.inl h3))
  · exact .inr (.inr (.inr h4))
  · exact .inl h

theorem isValueChar_toNat {c : Char} (h : isValueChar c = true) :
    (48 ≤ c.toNat ∧ c.toNat ≤ 57) ∨ (65 ≤ c.toNat ∧ c.toNat ≤ 90) ∨
      (97 ≤ c.toNat ∧ c.toNat ≤ 122) ∨ isFolded c.toNat ∨ c.toNat = 45 ∨ c.toNat = 95 ∨
      c.toNat = 43 ∨ c.toNat = 47 ∨ c.toNat = 61 := by
  simp only [isValueChar, Bool.or_eq_true, decide_eq_true_eq] at h
  obtain ((((h | h) | h) | h) | h) | h := h
  · have hcase := isAlphanumeric_fold h
    rcases hcase with hc | hc
    · have := isAlphanumeric_toNat hc
      omega
    · exact .inr (.inr (.inr (.inl hc)))
  all_goals
    have hn := toNat_eq h
    simp only [Char.reduceToNat] at hn
    omega

theorem isSpace_toNat {c : Char} (h : Str.isSpace c = true) :
    c.toNat ≤ 32 ∨ c.toNat = 0x85 ∨ c.toNat = 0xa0 ∨ c.toNat = 0x1680 ∨
      (0x2000 ≤ c.toNat ∧ c.toNat ≤ 0x205f) ∨ c.toNat = 0x3000 := by
  simp only [Str.isSpace, decide_eq_true_eq] at h
  omega

/-- The literal `p` at the front of `s`, up to `fold`, and what follows it. -/
def literal (fold : Char → Char) (p s : Str) : Option (Str × Str) :=
  if (s.take p.length).map fold = p then some (s.splitAt p.length) else none

theorem literal_iff {fold : Char → Char} {p s w t : Str} :
    literal fold p s = some (w, t) ↔ s = w ++ t ∧ w.map fold = p := by
  rw [literal, List.splitAt_eq]
  constructor
  · intro h
    split_ifs at h with hp
    obtain ⟨rfl, rfl⟩ := Prod.mk.inj (Option.some.inj h)
    exact ⟨(List.take_append_drop ..).symm, hp⟩
  · rintro ⟨rfl, rfl⟩
    simp

/-! ## Patterns -/

/-- `sk-[A-Za-z0-9_-]{20,}`. -/
def openaiAt (s : Str) : Option Str := do
  let (w, t) ← literal id "sk-" s
  let run := t.takeWhile isKeyChar
  if 20 ≤ run.length then some (w ++ run) else none

/-- `AKIA[0-9A-Z]{16}`. -/
def awsAt (s : Str) : Option Str := do
  let (w, t) ← literal id "AKIA" s
  let run := t.take 16
  if run.length = 16 ∧ run.all isAwsChar then some (w ++ run) else none

def keywords : List Str := ["key".toList, "token".toList, "password".toList, "secret".toList]

def isQuote (c : Char) : Bool := c = '\'' || c = '"'

/-- `['"]?[A-Za-z0-9\-_+/=]{16,}` without regard to case. -/
def valueAt (s : Str) : Option Str :=
  let quote := (s.take 1).filter isQuote
  let run := (s.drop quote.length).takeWhile isValueChar
  if 16 ≤ run.length then some (quote ++ run) else none

/-- `(?i)(?:KEY|TOKEN|PASSWORD|SECRET)\s*=\s*['"]?[A-Za-z0-9\-_+/=]{16,}`. -/
def genericAt (s : Str) : Option Str := do
  let (w, t) ← keywords.findSome? fun p => literal fold p s
  let (eq, t') ← literal id "=" (t.dropWhile Str.isSpace)
  let value ← valueAt (t'.dropWhile Str.isSpace)
  some (w ++ t.takeWhile Str.isSpace ++ eq ++ t'.takeWhile Str.isSpace ++ value)

/-! ## The words of the patterns -/

def IsOpenai (w : Str) : Prop :=
  ∃ run : Str, w = "sk-".toList ++ run ∧ 20 ≤ run.length ∧ ∀ c ∈ run, isKeyChar c = true

def IsAws (w : Str) : Prop :=
  ∃ run : Str, w = "AKIA".toList ++ run ∧ run.length = 16 ∧ ∀ c ∈ run, isAwsChar c = true

/-- A keyword, an equals sign, perhaps a quotation mark, and a long value. -/
inductive IsGeneric : Str → Prop
  | intro {keyword gap gap' quote run : Str} (hkeyword : keyword.map fold ∈ keywords)
      (hgap : ∀ c ∈ gap, Str.isSpace c = true) (hgap' : ∀ c ∈ gap', Str.isSpace c = true)
      (hquote : quote = [] ∨ ∃ c, quote = [c] ∧ isQuote c = true)
      (hlength : 16 ≤ run.length) (hrun : ∀ c ∈ run, isValueChar c = true) :
      IsGeneric (keyword ++ gap ++ '=' :: (gap' ++ quote ++ run))

/-! A run of letters ends at the first letter of another kind. -/

theorem takeWhile_run {p : Char → Bool} {a r : Str} (ha : ∀ c ∈ a, p c = true)
    (hr : ∀ c ∈ r.head?, p c = false) : (a ++ r).takeWhile p = a := by
  rw [List.takeWhile_append_of_pos ha]
  cases r with
  | nil => simp
  | cons c r => simp [hr c rfl]

theorem dropWhile_run {p : Char → Bool} {a r : Str} (ha : ∀ c ∈ a, p c = true)
    (hr : ∀ c ∈ r.head?, p c = false) : (a ++ r).dropWhile p = r := by
  have h := List.takeWhile_append_dropWhile (p := p) (l := a ++ r)
  rw [takeWhile_run ha hr] at h
  exact List.append_cancel_left h

theorem head_dropWhile {p : Char → Bool} {s : Str} {c : Char} (h : c ∈ (s.dropWhile p).head?) :
    p c = false := by
  have hnot := List.head?_dropWhile_not p s
  rw [Option.mem_def.mp h] at hnot
  simpa using hnot

theorem openaiAt_iff {s w : Str} : openaiAt s = some w ↔
    IsOpenai w ∧ ∃ r, s = w ++ r ∧ ∀ c ∈ r.head?, isKeyChar c = false := by
  simp only [openaiAt, Option.bind_eq_bind, Option.bind_eq_some_iff, Prod.exists, literal_iff,
    List.map_id]
  constructor
  · rintro ⟨_, t, ⟨rfl, rfl⟩, h⟩
    split_ifs at h with hlen
    obtain rfl := Option.some.inj h
    refine ⟨⟨_, rfl, hlen, fun c hc => List.mem_takeWhile_imp hc⟩, t.dropWhile isKeyChar, ?_,
      fun c hc => head_dropWhile hc⟩
    rw [List.append_assoc, List.takeWhile_append_dropWhile]
  · rintro ⟨⟨run, rfl, hlen, hrun⟩, r, rfl, hr⟩
    refine ⟨_, run ++ r, ⟨List.append_assoc .., rfl⟩, ?_⟩
    rw [takeWhile_run hrun hr, if_pos hlen]

theorem awsAt_iff {s w : Str} : awsAt s = some w ↔
    IsAws w ∧ ∃ r, s = w ++ r ∧ ∀ c ∈ r.head?, (fun _ => false) c = false := by
  simp only [awsAt, Option.bind_eq_bind, Option.bind_eq_some_iff, Prod.exists, literal_iff,
    List.map_id]
  constructor
  · rintro ⟨_, t, ⟨rfl, rfl⟩, h⟩
    split_ifs at h with hrun
    obtain rfl := Option.some.inj h
    refine ⟨⟨_, rfl, hrun.1, List.all_eq_true.mp hrun.2⟩, t.drop 16, ?_, by simp⟩
    rw [List.append_assoc, List.take_append_drop]
  · rintro ⟨⟨run, rfl, hlen, hrun⟩, r, rfl, _⟩
    refine ⟨_, run ++ r, ⟨List.append_assoc .., rfl⟩, ?_⟩
    rw [← hlen, List.take_left, if_pos ⟨rfl, List.all_eq_true.mpr hrun⟩]

theorem isValueChar_not_isQuote {c : Char} (h : isValueChar c = true) : isQuote c = false := by
  by_contra hq
  simp only [isQuote, Bool.not_eq_false, Bool.or_eq_true, decide_eq_true_eq] at hq
  revert h
  rcases hq with rfl | rfl <;> decide

theorem valueAt_iff {s v : Str} : valueAt s = some v ↔
    ∃ quote run r : Str, s = quote ++ run ++ r ∧ v = quote ++ run ∧
      (quote = [] ∨ ∃ c, quote = [c] ∧ isQuote c = true) ∧ 16 ≤ run.length ∧
      (∀ c ∈ run, isValueChar c = true) ∧ ∀ c ∈ r.head?, isValueChar c = false := by
  constructor
  · intro h
    simp only [valueAt] at h
    split_ifs at h with hlen
    obtain rfl := Option.some.inj h
    have hquote : (s.take 1).filter isQuote ++ s.drop ((s.take 1).filter isQuote).length = s ∧
        ((s.take 1).filter isQuote = [] ∨
          ∃ c, (s.take 1).filter isQuote = [c] ∧ isQuote c = true) := by
      cases s with
      | nil => simp
      | cons c s => by_cases hc : isQuote c = true <;> simp [hc]
    refine ⟨_, _, (s.drop ((s.take 1).filter isQuote).length).dropWhile isValueChar, ?_, rfl,
      hquote.2, hlen, fun c hc => List.mem_takeWhile_imp hc, fun c hc => head_dropWhile hc⟩
    rw [List.append_assoc, List.takeWhile_append_dropWhile, hquote.1]
  · rintro ⟨quote, run, r, rfl, rfl, hquote, hlen, hrun, hr⟩
    have htake : ((quote ++ run ++ r).take 1).filter isQuote = quote := by
      obtain rfl | ⟨c, rfl, hc⟩ := hquote
      · cases run with
        | nil => simp at hlen
        | cons c run => simp [isValueChar_not_isQuote (hrun c List.mem_cons_self)]
      · simp [hc]
    simp only [valueAt, htake]
    rw [List.append_assoc, List.drop_left, takeWhile_run hrun hr, if_pos hlen]

/-- A keyword is known by its first letter. -/
theorem keyword_head {s : Str} {x : Str × Str} {p : Str} (hp : p ∈ keywords)
    (h : literal fold p s = some x) : p.head? = s.head?.map fold := by
  obtain ⟨rfl, rfl⟩ := literal_iff.mp h
  have hne : x.1 ≠ [] := by
    intro hnil
    rw [hnil] at hp
    revert hp
    decide
  obtain ⟨c, w, hcw⟩ := List.exists_cons_of_ne_nil hne
  rw [hcw]
  rfl

theorem keyword_iff {s w t : Str} :
    (keywords.findSome? fun p => literal fold p s) = some (w, t) ↔
      s = w ++ t ∧ w.map fold ∈ keywords := by
  constructor
  · intro h
    obtain ⟨p, hp, hlit⟩ := List.exists_of_findSome?_eq_some h
    obtain ⟨hs, rfl⟩ := literal_iff.mp hlit
    exact ⟨hs, hp⟩
  · rintro ⟨rfl, hw⟩
    have hself : literal fold (w.map fold) (w ++ t) = some (w, t) := literal_iff.mpr ⟨rfl, rfl⟩
    obtain ⟨before, after, hsplit⟩ := List.append_of_mem hw
    refine List.findSome?_eq_some_iff.mpr ⟨before, _, after, hsplit, hself, fun p hp => ?_⟩
    refine Option.eq_none_iff_forall_ne_some.mpr fun x hx => ?_
    have hmem : p ∈ keywords := by simp [hsplit, hp]
    have hsame : p.head? = (w.map fold).head? :=
      (keyword_head hmem hx).trans (keyword_head hw hself).symm
    have hdistinct : (keywords.map List.head?).Nodup := by decide
    rw [hsplit, List.map_append, List.map_cons] at hdistinct
    exact (List.nodup_append.mp hdistinct).2.2 _ (List.mem_map_of_mem hp) _ List.mem_cons_self hsame

/-- A letter of `[\s]` is neither an equals sign, nor a quotation mark, nor part of a value. -/
theorem isSpace_spec {c : Char} (h : Str.isSpace c = true) :
    c ≠ '=' ∧ isQuote c = false ∧ isValueChar c = false := by
  have hspace := isSpace_toNat h
  refine ⟨?_, ?_, ?_⟩
  · intro hc
    have hn := toNat_eq hc
    simp only [Char.reduceToNat] at hn
    omega
  · by_contra hq
    simp only [isQuote, Bool.not_eq_false, Bool.or_eq_true, decide_eq_true_eq] at hq
    rcases hq with hq | hq
    all_goals
      have hn := toNat_eq hq
      simp only [Char.reduceToNat] at hn
      omega
  · by_contra hv
    have hvalue := isValueChar_toNat (Bool.eq_true_of_not_eq_false hv)
    simp only [isFolded] at hvalue
    omega

theorem genericAt_iff {s w : Str} : genericAt s = some w ↔
    IsGeneric w ∧ ∃ r, s = w ++ r ∧ ∀ c ∈ r.head?, isValueChar c = false := by
  simp only [genericAt, Option.bind_eq_bind, Option.bind_eq_some_iff, Prod.exists, literal_iff,
    keyword_iff, List.map_id, valueAt_iff]
  constructor
  · rintro ⟨keyword, t, ⟨rfl, hkeyword⟩, _, t', ⟨hgap, rfl⟩, _, ⟨quote, run, r, hgap', rfl, hquote,
      hlen, hrun, hr⟩, h⟩
    obtain rfl := Option.some.inj h
    refine ⟨?_, r, ?_, hr⟩
    · have hword : IsGeneric (keyword ++ t.takeWhile Str.isSpace ++
          '=' :: (t'.takeWhile Str.isSpace ++ quote ++ run)) :=
        ⟨hkeyword, fun c hc => List.mem_takeWhile_imp hc, fun c hc => List.mem_takeWhile_imp hc,
          hquote, hlen, hrun⟩
      simpa using hword
    · have ht := List.takeWhile_append_dropWhile (p := Str.isSpace) (l := t)
      have ht' := List.takeWhile_append_dropWhile (p := Str.isSpace) (l := t')
      rw [hgap] at ht
      rw [hgap'] at ht'
      conv_lhs => rw [← ht, ← ht']
      simp
  · rintro ⟨⟨hkeyword, hgap, hgap', hquote, hlen, hrun⟩, r, rfl, hr⟩
    rename_i keyword gap gap' quote run
    have hvalue : ∀ c ∈ (quote ++ run ++ r).head?, Str.isSpace c = false := by
      intro c hc
      by_contra hspace
      have hspec := isSpace_spec (Bool.eq_true_of_not_eq_false hspace)
      obtain rfl | ⟨d, rfl, hd⟩ := hquote
      · cases run with
        | nil => simp at hlen
        | cons d run =>
          obtain rfl : d = c := by simpa using hc
          rw [hrun d List.mem_cons_self] at hspec
          exact Bool.noConfusion hspec.2.2
      · obtain rfl : d = c := by simpa using hc
        rw [hd] at hspec
        exact Bool.noConfusion hspec.2.1
    have hequals : ∀ c ∈ ('=' :: (gap' ++ (quote ++ run ++ r))).head?, Str.isSpace c = false := by
      intro c hc
      obtain rfl : '=' = c := by simpa using hc
      decide
    refine ⟨keyword, gap ++ '=' :: (gap' ++ (quote ++ run ++ r)), ⟨by simp, hkeyword⟩, "=".toList,
      gap' ++ (quote ++ run ++ r), ⟨dropWhile_run hgap hequals, rfl⟩, quote ++ run,
      ⟨quote, run, r, dropWhile_run hgap' hvalue, rfl, hquote, hlen, hrun, hr⟩, ?_⟩
    rw [takeWhile_run hgap hequals, takeWhile_run hgap' hvalue]
    simp

/-! ## Redaction -/

theorem IsOpenai.head {w : Str} (h : IsOpenai w) : ∃ t, w = 's' :: t := by
  obtain ⟨run, rfl, _⟩ := h
  exact ⟨_, rfl⟩

theorem IsAws.head {w : Str} (h : IsAws w) : ∃ t, w = 'A' :: t := by
  obtain ⟨run, rfl, _⟩ := h
  exact ⟨_, rfl⟩

/-- A generic assignment begins with a letter of its keyword. -/
theorem IsGeneric.head {w : Str} (h : IsGeneric w) :
    ∃ c t, w = c :: t ∧ fold c ∈ ['k', 't', 'p', 's'] := by
  obtain ⟨hkeyword, _, _, _, _, _⟩ := h
  rename_i keyword gap gap' quote run _ _ _ _ _
  cases keyword with
  | nil => exact absurd hkeyword (by decide)
  | cons c keyword =>
    refine ⟨c, _, rfl, ?_⟩
    have hheads : ∀ p ∈ keywords, ∀ d ∈ p.head?, d ∈ ['k', 't', 'p', 's'] := by decide
    exact hheads _ hkeyword _ rfl

def openaiKey : Matcher Char where
  find := openaiAt
  isPrefix := fun h =>
    have ⟨_, r, hr, _⟩ := openaiAt_iff.mp h
    ⟨r, hr.symm⟩
  ne_nil := fun h hnil => by
    obtain ⟨t, ht⟩ := (openaiAt_iff.mp h).1.head
    simp [hnil] at ht

def awsKey : Matcher Char where
  find := awsAt
  isPrefix := fun h =>
    have ⟨_, r, hr, _⟩ := awsAt_iff.mp h
    ⟨r, hr.symm⟩
  ne_nil := fun h hnil => by
    obtain ⟨t, ht⟩ := (awsAt_iff.mp h).1.head
    simp [hnil] at ht

def genericAssignment : Matcher Char where
  find := genericAt
  isPrefix := fun h =>
    have ⟨_, r, hr, _⟩ := genericAt_iff.mp h
    ⟨r, hr.symm⟩
  ne_nil := fun h hnil => by
    obtain ⟨c, t, ht, _⟩ := (genericAt_iff.mp h).1.head
    simp [hnil] at ht

def keyPatterns : List (Matcher Char) := [openaiKey, awsKey, genericAssignment]

/-- The loop of `redact` over the patterns, on letters that may be labelled. -/
def scrub {α : Type} (letter : α → Char) (marker : List α) (text : List α) : List α :=
  keyPatterns.foldl (fun out p => sub p letter marker 0 out) text

/-- `re.escape(root) + tail`, where `tail` is a condition on what follows that the
match does not take in. -/
def rootAt (root : Str) (tail : Str → Bool) : Matcher Char where
  find := fun s => if root ≠ [] ∧ root <+: s ∧ tail (s.drop root.length) = true then some root else none
  isPrefix := fun {s w} h => by
    split_ifs at h with hroot
    obtain rfl := Option.some.inj h
    exact hroot.2.1
  ne_nil := fun {s w} h => by
    split_ifs at h with hroot
    obtain rfl := Option.some.inj h
    exact hroot.1

/-- `(?=/|$|[\s:])`. -/
def boundary (rest : Str) : Bool := rest.head?.all fun c => c = '/' || Str.isSpace c || c = ':'

/-- `redact(text, workspace_root)`. -/
def redact (text : Str) (workspaceRoot : Option Str) : Str :=
  let out := scrub id "[REDACTED]".toList text
  match workspaceRoot with
  | none | some [] => out
  | some workspaceRoot =>
      let root := (workspaceRoot.reverse.dropWhile (· = '/')).reverse
      let out := sub (rootAt (root ++ ['/']) fun _ => true) id [] 0 out
      sub (rootAt root boundary) id [] 0 out

theorem finds_openai : Finds openaiKey IsOpenai isKeyChar where
  find_iff := openaiAt_iff
  extend := by
    rintro _ z ⟨run, rfl, hlen, hrun⟩ hz
    refine ⟨run ++ z, List.append_assoc .., ?_, fun c hc => ?_⟩
    · rw [List.length_append]
      omega
    · exact (List.mem_append.mp hc).elim (hrun c) (hz c)

theorem finds_aws : Finds awsKey IsAws fun _ => false where
  find_iff := awsAt_iff
  extend := by
    rintro w z hw hz
    cases z with
    | nil => simpa using hw
    | cons c z => exact absurd (hz c List.mem_cons_self) (by simp)

theorem finds_generic : Finds genericAssignment IsGeneric isValueChar where
  find_iff := genericAt_iff
  extend := by
    rintro _ z ⟨hkeyword, hgap, hgap', hquote, hlen, hrun⟩ hz
    rename_i keyword gap gap' quote run
    have hlen' : 16 ≤ (run ++ z).length := by
      rw [List.length_append]
      omega
    have hword : IsGeneric (keyword ++ gap ++ '=' :: (gap' ++ quote ++ (run ++ z))) :=
      ⟨hkeyword, hgap, hgap', hquote, hlen',
        fun c hc => (List.mem_append.mp hc).elim (hrun c) (hz c)⟩
    simpa using hword

end AegisCode.Redactor
