import AegisCode.ActionParser

/-!
# The last object

A text of several objects with other text between them is read object by object:
no brace inside an object is ever tried, and the last object is the result.
-/
namespace AegisCode

open Json (Decoder rawDecode Proper)

/-- Text, and then objects with text behind each of them. -/
def objectsText (before : Str) (parts : List (Dict × Str)) : Str :=
  before ++ parts.flatMap fun part => Json.dumps (.obj part.1) ++ part.2

theorem objectsText_cons (before : Str) (data : Dict) (after : Str) (parts : List (Dict × Str)) :
    objectsText before ((data, after) :: parts) =
      before ++ (Json.dumps (.obj data) ++ objectsText after parts) := by
  simp only [objectsText, List.flatMap_cons, List.append_assoc]

section
variable {D : Decoder}

/-- Between two rounds of the scan the rest of the text begins behind an object,
and the result so far is that object. -/
theorem lastJsonObjectFrom_objects {n : ℕ} {best : Option Dict} {before : Str}
    {parts : List (Dict × Str)} (hn : (objectsText before parts).length < n)
    (hbefore : '{' ∉ before) (hparts : ∀ part ∈ parts, Proper D (.obj part.1) ∧ '{' ∉ part.2) :
    lastJsonObjectFrom D n best (objectsText before parts) =
      .ok ((parts.getLast?.map Prod.fst).or best) := by
  induction parts generalizing n best before with
  | nil =>
    obtain ⟨n, rfl⟩ : ∃ k, n = k + 1 := ⟨n - 1, by omega⟩
    have hnone : findBrace (objectsText before []) = [] := by
      rw [objectsText, List.flatMap_nil, List.append_nil]
      exact findBrace_none hbefore
    rw [lastJsonObjectFrom, hnone]
    rfl
  | cons part parts ih =>
    obtain ⟨data, after⟩ := part
    obtain ⟨n, rfl⟩ : ∃ k, n = k + 1 := ⟨n - 1, by omega⟩
    obtain ⟨⟨hproper, hafter⟩, hrest⟩ := List.forall_mem_cons.mp hparts
    rw [objectsText_cons] at hn ⊢
    have hread := Json.rawDecode_obj hproper (Json.dumps_spread (.obj data)) (objectsText after parts)
    obtain ⟨b, hb⟩ := (Json.dumps_spread (.obj data)).braces
    rw [hb, List.cons_append] at hread hn ⊢
    have hlength : (objectsText after parts).length < n := by
      simp only [List.length_append, List.length_cons] at hn
      omega
    rw [lastJsonObjectFrom, findBrace_prose hbefore]
    dsimp only
    rw [hread]
    dsimp only
    rw [ih hlength hafter hrest]
    cases parts with
    | nil => rfl
    | cons part parts =>
      rw [List.getLast?_cons_cons, List.getLast?_eq_some_getLast (List.cons_ne_nil part parts)]
      rfl

end

/-! ## No fence -/

theorem fenceSearch_none {text : Str} (hmarker : ¬ "```json".toList <:+: text) :
    fenceSearch text = none := by
  induction text with
  | nil => rfl
  | cons c text ih =>
    have hat : fenceAt (c :: text) = none := by
      rw [fenceAt, if_neg]
      intro hstart
      exact hmarker (Str.startsWith_iff.mp hstart).isInfix
    rw [fenceSearch, hat]
    exact ih fun hin => hmarker (hin.trans (List.suffix_cons c text).isInfix)

/-- The last object of a text is the one that is read, and the action is built
from it. -/
theorem last_object_wins (P : ParserLibrary) {before : Str} {parts : List (Dict × Str)}
    (hparts : parts ≠ []) (hbefore : '{' ∉ before)
    (hobjects : ∀ part ∈ parts, Proper P.toDecoder (.obj part.1) ∧ '{' ∉ part.2)
    (hmarker : ¬ "```json".toList <:+: objectsText before parts) :
    lastJsonObject P.toDecoder (objectsText before parts) =
        .ok (some (parts.getLast hparts).1) ∧
      parseAction P (objectsText before parts) =
        actionOf P (.obj (parts.getLast hparts).1) := by
  have hlast : lastJsonObject P.toDecoder (objectsText before parts) =
      .ok (some (parts.getLast hparts).1) := by
    rw [lastJsonObject, lastJsonObjectFrom_objects (Nat.lt_succ_self _) hbefore hobjects,
      List.getLast?_eq_some_getLast hparts]
    rfl
  refine ⟨hlast, ?_⟩
  rw [parseAction, fenceSearch_none hmarker]
  dsimp only
  rw [hlast]

/-- Two actions with prose around them; the second has braces in a string. -/
theorem last_object_wins_two :
    lastJsonObject quotedLibrary.toDecoder (objectsText "First " [
        (quotedData "a", " then "), (quotedData "\x7d weird \x7b", " done")]) =
        .ok (some (quotedData "\x7d weird \x7b")) ∧
      parseAction quotedLibrary (objectsText "First " [
        (quotedData "a", " then "), (quotedData "\x7d weird \x7b", " done")]) =
        actionOf quotedLibrary (.obj (quotedData "\x7d weird \x7b")) := by
  refine last_object_wins quotedLibrary (List.cons_ne_nil _ _) (by decide) ?_ (by decide +kernel)
  intro part hpart
  obtain rfl | hpart := List.mem_cons.mp hpart
  · exact ⟨quoted_proper _, by decide⟩
  · obtain rfl := List.mem_singleton.mp hpart
    exact ⟨quoted_proper _, by decide⟩

end AegisCode
