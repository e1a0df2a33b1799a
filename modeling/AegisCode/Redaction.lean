import AegisCode.RedactedStrings

/-!
# What redaction leaves

The words of the three patterns have neither of the brackets around the marker
`[REDACTED]`, and none of them is as short as what stands between the brackets.
So a substitution removes the words of its own pattern and makes none of another.
-/
namespace AegisCode.Redactor

open Substitution

/-- A word of one of `KEY_PATTERNS`. -/
def IsCredential (w : Str) : Prop := IsOpenai w ∨ IsAws w ∨ IsGeneric w

/-- No pattern of `KEY_PATTERNS` finds a match in the text. -/
def Clean (text : Str) : Prop := ∀ p ∈ keyPatterns, search p text = false

instance decidableClean (text : Str) : Decidable (Clean text) :=
  inferInstanceAs (Decidable (∀ p ∈ keyPatterns, search p text = false))

theorem clean_iff {text : Str} : Clean text ↔ ∀ w, IsCredential w → ¬ w <:+: text := by
  simp only [Clean, keyPatterns, List.forall_mem_cons, List.not_mem_nil, false_implies,
    implies_true, and_true, ← Bool.not_eq_true, finds_openai.search_iff, finds_aws.search_iff,
    finds_generic.search_iff, not_exists, not_and]
  constructor
  · rintro ⟨ho, ha, hg⟩ w (hw | hw | hw)
    · exact ho w hw
    · exact ha w hw
    · exact hg w hw
  · intro h
    exact ⟨fun w hw => h w (.inl hw), fun w hw => h w (.inr (.inl hw)),
      fun w hw => h w (.inr (.inr hw))⟩

/-- A part of a clean text is clean. -/
theorem Clean.inside {s text : Str} (h : Clean text) (hs : s <:+: text) : Clean s :=
  clean_iff.mpr fun w hw hin => clean_iff.mp h w hw (hin.trans hs)

/-! ## Credentials and the marker -/

theorem IsCredential.not_bracket {w : Str} (h : IsCredential w) {c : Char} (hc : c = '[' ∨ c = ']') :
    c ∉ w := by
  have hkey : isKeyChar c = false := by
    obtain rfl | rfl := hc <;> decide
  have hbarrier : isBarrier c = true := by
    obtain rfl | rfl := hc <;> decide
  intro hin
  obtain h | h | h := h
  · exact absurd (h.isKeyChar c hin) (by rw [hkey]; exact Bool.false_ne_true)
  · exact absurd (h.isKeyChar c hin) (by rw [hkey]; exact Bool.false_ne_true)
  · exact h.not_barrier hbarrier hin

/-- A credential has sixteen letters at least. -/
theorem IsCredential.length_le {w : Str} (h : IsCredential w) : 16 ≤ w.length := by
  obtain ⟨run, rfl, hrun, -⟩ | ⟨run, rfl, hrun, -⟩ | h := h
  · rw [List.length_append]
    omega
  · rw [List.length_append]
    omega
  · obtain ⟨-, -, -, -, hrun, -⟩ := h
    simp only [List.length_append, List.length_cons]
    omega

theorem shielded {L : Str → Prop} (hL : ∀ w, L w → IsCredential w) :
    Shielded L '[' "REDACTED".toList ']' where
  first_not_mem := fun {w} hw => (hL w hw).not_bracket (.inl rfl)
  last_not_mem := fun {w} hw => (hL w hw).not_bracket (.inr rfl)
  not_infix := fun {w} hw hin => by
    have hlong := (hL w hw).length_le
    have hshort : w.length ≤ 8 := hin.length_le
    omega

theorem marker_shape : "[REDACTED]".toList = '[' :: ("REDACTED".toList ++ [']']) := by decide

/-- The text that `redact` leaves has no credential in it. -/
theorem clean_scrub (text : Str) : Clean (scrub id "[REDACTED]".toList text) := by
  have ho := shielded (L := IsOpenai) fun w hw => .inl hw
  have ha := shielded (L := IsAws) fun w hw => .inr (.inl hw)
  have hg := shielded (L := IsGeneric) fun w hw => .inr (.inr hw)
  rw [clean_iff, marker_shape]
  rintro w (hw | hw | hw)
  · exact ho.clean_sub (ho.clean_sub (finds_openai.clean_sub ho text)) w hw
  · exact ha.clean_sub (finds_aws.clean_sub ha _) w hw
  · exact finds_generic.clean_sub hg _ w hw

theorem scrub_of_clean {text : Str} (h : Clean text) (marker : Str) : scrub id marker text = text := by
  rw [clean_iff] at h
  simp only [scrub, keyPatterns, List.foldl_cons, List.foldl_nil]
  rw [finds_openai.sub_of_clean fun w hw => h w (.inl hw),
    finds_aws.sub_of_clean fun w hw => h w (.inr (.inl hw)),
    finds_generic.sub_of_clean fun w hw => h w (.inr (.inr hw))]

theorem clean_redact (text : Str) : Clean (redact text none) := clean_scrub text

theorem redact_of_clean {text : Str} (h : Clean text) : redact text none = text :=
  scrub_of_clean h _

/-- `redact` changes a text if and only if a pattern finds a match in it. -/
theorem redact_eq_iff {text : Str} : redact text none = text ↔ Clean text := by
  constructor
  · intro h
    have hclean := clean_redact text
    rwa [h] at hclean
  · exact redact_of_clean

/-- Redaction leaves no match, changes nothing the second time, and leaves a text
alone in which no pattern finds a match. -/
theorem redact_complete (text : Str) :
    (∀ p ∈ keyPatterns, search p (redact text none) = false) ∧
    redact (redact text none) none = redact text none ∧
    ((∀ p ∈ keyPatterns, search p text = false) → redact text none = text) :=
  ⟨clean_redact text, redact_of_clean (clean_redact text), redact_of_clean⟩

end AegisCode.Redactor
