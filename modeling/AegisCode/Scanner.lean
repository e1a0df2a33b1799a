import AegisCode.FileTools
import AegisCode.Redaction

/-!
# The credential scanner

`scan_text` searches the lines of a text one by one, `redact` the text as a
whole. A credential that goes on over a line break is found by the second only.
-/
namespace AegisCode

open Substitution Redactor

/-! ## Lines -/

/-- A text without a line break in it. -/
def OnOneLine (w : Str) : Prop := ∀ c ∈ w, isLineBreak c = false

theorem OnOneLine.not_mem {w : Str} (h : OnOneLine w) {c : Char} (hc : isLineBreak c = true) :
    c ∉ w := by
  intro hin
  rw [h c hin] at hc
  exact Bool.false_ne_true hc

/-- A word on one line that stands in a text stands on one side of a line break. -/
theorem OnOneLine.infix_break {w : Str} (h : OnOneLine w) {c : Char} (hc : isLineBreak c = true)
    {a b : Str} : w <:+: a ++ c :: b ↔ w <:+: a ∨ w <:+: b := by
  constructor
  · exact infix_of_not_mem (h.not_mem hc)
  · rintro (hin | hin)
    · exact hin.trans (List.prefix_append a (c :: b)).isInfix
    · exact hin.trans ⟨a ++ [c], [], by simp⟩

theorem splitlinesFrom_spec {w : Str} (hw : w ≠ []) (hone : OnOneLine w) (line s : Str) :
    (∃ l ∈ splitlinesFrom line s, w <:+: l) ↔ w <:+: line ++ s := by
  fun_induction splitlinesFrom line s with
  | case1 => simp [hw]
  | case2 line => simp
  | case3 line s ih =>
    have hnl : w <:+: '\n' :: s ↔ w <:+: [] ∨ w <:+: s := hone.infix_break (a := []) (by decide)
    rw [List.nil_append] at ih
    rw [hone.infix_break (by decide), hnl, List.infix_nil, or_iff_right hw, ← ih]
    simp
  | case4 line c s _ hc ih =>
    rw [List.nil_append] at ih
    rw [hone.infix_break hc, ← ih]
    simp
  | case5 line c s _ hc ih =>
    rw [ih, List.append_assoc, List.singleton_append]

theorem splitlinesFrom_onOneLine {line : Str} (hline : OnOneLine line) (s : Str) :
    ∀ l ∈ splitlinesFrom line s, OnOneLine l := by
  fun_induction splitlinesFrom line s with
  | case1 => simp
  | case2 line _ => simpa using hline
  | case3 line s ih => exact List.forall_mem_cons.mpr ⟨hline, ih (by simp [OnOneLine])⟩
  | case4 line c s _ hc ih => exact List.forall_mem_cons.mpr ⟨hline, ih (by simp [OnOneLine])⟩
  | case5 line c s _ hc ih =>
    refine ih fun d hd => ?_
    obtain hd | rfl := by simpa using hd
    · exact hline d hd
    · simpa using hc

/-! ## `scan_text` -/

/-- The texts of `KEY_PATTERNS`. -/
def patternTexts : List Str :=
  ["sk-[A-Za-z0-9_-]\x7b20,\x7d", "AKIA[0-9A-Z]\x7b16\x7d",
    "(?i)(?:KEY|TOKEN|PASSWORD|SECRET)\\s*=\\s*['\\\"]?[A-Za-z0-9\\-_+/=]\x7b16,\x7d"]

structure Finding where
  path : Str
  lineNo : ℕ
  pattern : Str

def scanText (text path : Str) : List Finding :=
  ((splitlines text).zipIdx 1).flatMap fun (line, i) =>
    ((keyPatterns.zip patternTexts).filter fun (p, _) => search p line).map fun (_, pattern) =>
      ⟨path, i, pattern⟩

theorem scanText_eq_nil {text path : Str} :
    scanText text path = [] ↔ ∀ line ∈ splitlines text, Clean line := by
  have hline : ∀ (line : Str) (i : ℕ), (((keyPatterns.zip patternTexts).filter fun (p, _) =>
      search p line).map fun (_, pattern) => (⟨path, i, pattern⟩ : Finding)) = [] ↔ Clean line := by
    intro line i
    rw [List.map_eq_nil_iff, List.filter_eq_nil_iff]
    simp [Clean, keyPatterns, patternTexts]
  simp only [scanText, List.flatMap_eq_nil_iff, Prod.forall, hline]
  constructor
  · intro h line hin
    obtain ⟨i, hi, rfl⟩ := List.mem_iff_getElem.mp hin
    exact h _ (1 + i) (by simp [List.mk_mem_zipIdx_iff_le_and_getElem?_sub])
  · intro h line i hin
    exact h line (List.fst_mem_of_mem_zipIdx hin)

/-- `scan_text` finds the credentials that stand on one line. -/
theorem scanText_eq_nil_iff {text path : Str} :
    scanText text path = [] ↔ ∀ w, IsCredential w → OnOneLine w → ¬ w <:+: text := by
  have hspec : ∀ w, IsCredential w → OnOneLine w →
      ((∃ l ∈ splitlines text, w <:+: l) ↔ w <:+: text) := by
    intro w hw hone
    have hne : w ≠ [] := by
      rintro rfl
      exact absurd hw.length_le (by decide)
    exact splitlinesFrom_spec hne hone [] text
  rw [scanText_eq_nil]
  constructor
  · intro h w hw hone hin
    obtain ⟨line, hline, hinfix⟩ := (hspec w hw hone).mpr hin
    exact clean_iff.mp (h line hline) w hw hinfix
  · intro h line hline
    refine clean_iff.mpr fun w hw hin => ?_
    have hone : OnOneLine w := fun c hc =>
      splitlinesFrom_onOneLine (by simp [OnOneLine]) text line hline c (hin.subset hc)
    exact h w hw hone ((hspec w hw hone).mp ⟨line, hline, hin⟩)

end AegisCode
