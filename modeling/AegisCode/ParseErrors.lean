import AegisCode.ActionParser
import AegisCode.Completion
import AegisCode.JsonNesting

/-!
# Errors of the parser

`parse_action` turns the syntax errors of the decoder into errors of its own. An
integer with too many digits makes the decoder raise something else, and so do
values nested deeper than the interpreter's stack allows. Both leave `parse_action`
and end the run.
-/
namespace AegisCode

open Program
open Json (Decoder rawDecode rawDecodeWithin loads loadsWithin excess nested skipBlank
  rest_rawDecode excess_eq_none rawDecodeWithin_needs loadsWithin_needs)

/-! ## The parser on a bounded stack -/

/-- The levels that are left where `json.loads` and where `raw_decode` enter the
decoder. -/
structure Levels where
  loads : ℕ
  rawDecode : ℕ

/-- `RecursionError`. -/
def recursionExn (container : Str) : Exn where
  kind := .other
  text := "maximum recursion depth exceeded while decoding a JSON ".toList ++ container ++
    " from a unicode string".toList

/-- What is raised and not caught as a `JSONDecodeError`. -/
def escaping : Json.Stop → Option Exn
  | .malformed => none
  | .longInteger digits => some (excessExn digits)
  | .recursion container => some (recursionExn container)

def lastJsonObjectFromWithin (D : Decoder) (levels : ℕ) :
    ℕ → Option Dict → Str → Except Exn (Option Dict)
  | 0, best, _ => .ok best
  | n + 1, best, text =>
      match findBrace text with
      | [] => .ok best
      | c :: t =>
          match rawDecodeWithin D levels (c :: t) with
          | .ok (.obj ms, rest) => lastJsonObjectFromWithin D levels n (some ms) rest
          | .ok (_, rest) => lastJsonObjectFromWithin D levels n best rest
          | .error stop =>
              match escaping stop with
              | some exc => .error exc
              | none => lastJsonObjectFromWithin D levels n best t

/-- `_last_json_object` with so many levels left. -/
def lastJsonObjectWithin (D : Decoder) (levels : ℕ) (text : Str) : Except Exn (Option Dict) :=
  lastJsonObjectFromWithin D levels (text.length + 1) none text

/-- `parse_action` with so many levels left. -/
def parseActionWithin (P : ParserLibrary) (levels : Levels) (text : Str) : Except Exn Action :=
  match fenceSearch text with
  | some group =>
      match loadsWithin P.toDecoder levels.loads group with
      | .ok data => actionOf P data
      | .error stop =>
          match escaping stop with
          | some exc => .error exc
          | none => .error ⟨.actionParseError, P.decodeError group⟩
  | none =>
      match lastJsonObjectWithin P.toDecoder levels.rawDecode text with
      | .error exc => .error exc
      | .ok (some data) => actionOf P (.obj data)
      | .ok none => .error ⟨.actionParseError, "no JSON object found"⟩

/-! ## The braces that are tried -/

/-- The scan for the last object calls the decoder at these braces. -/
inductive Visits (D : Decoder) : Str → Str → Prop
  | here {text t : Str} {c : Char} (hbrace : findBrace text = c :: t) : Visits D text (c :: t)
  | past {text t rest u : Str} {c : Char} {v : Json} (hbrace : findBrace text = c :: t)
      (hread : rawDecode D (c :: t) = some (v, rest)) (h : Visits D rest u) : Visits D text u
  | inside {text t u : Str} {c : Char} (hbrace : findBrace text = c :: t)
      (hread : rawDecode D (c :: t) = none) (h : Visits D t u) : Visits D text u

/-- Nothing is nested deeper than the levels that are left. -/
def NestsWithin (D : Decoder) (levels : Levels) (text : Str) : Prop :=
  match fenceSearch text with
  | some group => nested D (skipBlank group) ≤ levels.loads
  | none => ∀ u, Visits D text u → nested D u ≤ levels.rawDecode

section
variable {D : Decoder}

theorem findBrace_length {text t : Str} {c : Char} (h : findBrace text = c :: t) :
    t.length < text.length := by
  have hle : (findBrace text).length ≤ text.length := (List.dropWhile_suffix _).length_le
  rw [h, List.length_cons] at hle
  omega

/-! What is visited, by what the decoder says at the first brace. -/

theorem not_visits {text u : Str} (hbrace : findBrace text = []) : ¬ Visits D text u := by
  intro hu
  cases hu with
  | here h => rw [hbrace] at h; contradiction
  | past h => rw [hbrace] at h; contradiction
  | inside h => rw [hbrace] at h; contradiction

theorem visits_read {text t rest u : Str} {c : Char} {v : Json}
    (hbrace : findBrace text = c :: t) (hread : rawDecode D (c :: t) = some (v, rest)) :
    Visits D text u ↔ u = c :: t ∨ Visits D rest u := by
  constructor
  · intro hu
    cases hu with
    | here h => exact .inl (h.symm.trans hbrace)
    | past h hread' hu =>
      rw [← h, hbrace, hread] at hread'
      obtain ⟨_, rfl⟩ := Prod.mk.inj (Option.some.inj hread')
      exact .inr hu
    | inside h hread' _ =>
      rw [← h, hbrace, hread] at hread'
      contradiction
  · rintro (rfl | hu)
    · exact .here hbrace
    · exact .past hbrace hread hu

theorem visits_unread {text t u : Str} {c : Char} (hbrace : findBrace text = c :: t)
    (hread : rawDecode D (c :: t) = none) :
    Visits D text u ↔ u = c :: t ∨ Visits D t u := by
  constructor
  · intro hu
    cases hu with
    | here h => exact .inl (h.symm.trans hbrace)
    | past h hread' _ =>
      rw [← h, hbrace, hread] at hread'
      contradiction
    | inside h _ hu =>
      rw [hbrace] at h
      obtain ⟨_, rfl⟩ := List.cons.inj h
      exact .inr hu
  · rintro (rfl | hu)
    · exact .here hbrace
    · exact .inside hbrace hread hu

end

/-! ## What `parse_action` raises -/

section
variable {P : ParserLibrary}

/-- Otherwise what is raised is none of the parser's own errors. -/
theorem lastJsonObjectFromWithin_short {D : Decoder} {levels n : ℕ} {best : Option Dict}
    {text u : Str} (hn : text.length < n) (hu : Visits D text u) (hshort : levels < nested D u) :
    ∃ exc, lastJsonObjectFromWithin D levels n best text = .error exc ∧
      exc.kind ≠ .actionParseError := by
  induction n generalizing best text with
  | zero => omega
  | succ n ih =>
    rw [lastJsonObjectFromWithin]
    cases hbrace : findBrace text with
    | nil => exact absurd hu (not_visits hbrace)
    | cons c t =>
      have hlt := findBrace_length hbrace
      have hneeds := rawDecodeWithin_needs D levels (c :: t)
      dsimp only
      obtain hfew | hmany := lt_or_ge levels (nested D (c :: t))
      · obtain ⟨container, hdecode⟩ := hneeds.short hfew
        rw [hdecode]
        exact ⟨_, rfl, nofun⟩
      rw [hneeds.enough hmany]
      cases hread : rawDecode D (c :: t) with
      | some m =>
        obtain ⟨v, rest⟩ := m
        have hrest := (rest_rawDecode hread).length_lt
        rw [List.length_cons] at hrest
        obtain rfl | hu := (visits_read hbrace hread).mp hu
        · omega
        cases v with
        | obj ms => exact ih (by omega) hu
        | _ => exact ih (by omega) hu
      | none =>
        cases hexcess : excess D (c :: t) with
        | some digits => exact ⟨_, rfl, nofun⟩
        | none =>
          obtain rfl | hu := (visits_unread hbrace hread).mp hu
          · omega
          exact ih (by omega) hu

theorem parseActionWithin_short {levels : Levels} {text : Str}
    (hnested : ¬ NestsWithin P.toDecoder levels text) :
    ∃ exc, parseActionWithin P levels text = .error exc ∧ exc.kind ≠ .actionParseError := by
  rw [NestsWithin] at hnested
  rw [parseActionWithin]
  cases hfence : fenceSearch text with
  | some group =>
    rw [hfence] at hnested
    have hneeds := loadsWithin_needs P.toDecoder levels.loads group
    obtain ⟨container, hdecode⟩ := hneeds.short (not_le.mp hnested)
    dsimp only
    rw [hdecode]
    exact ⟨_, rfl, nofun⟩
  | none =>
    rw [hfence] at hnested
    push Not at hnested
    obtain ⟨u, hu, hshort⟩ := hnested
    have hlength : text.length < text.length + 1 := Nat.lt_succ_self _
    obtain ⟨exc, hlast, hkind⟩ :
        ∃ exc, lastJsonObjectWithin P.toDecoder levels.rawDecode text = .error exc ∧
          exc.kind ≠ .actionParseError :=
      lastJsonObjectFromWithin_short hlength hu hshort
    dsimp only
    rw [hlast]
    exact ⟨exc, rfl, hkind⟩

end

/-! ## What becomes of the turn -/

namespace HarnessCore
variable {h : HarnessCore} {task : Str} {start : ℤ} {s : LoopState} {t : List Ev}

theorem Completes.answer_eq {messages messages' : List Message} {n : ℕ} {raw raw' : Str}
    (hc : Completes messages n t (some raw)) (he : ⟨.complete messages', .ok raw'⟩ ∈ t) :
    raw' = raw := by
  generalize hout : some raw = out at hc
  induction hc with
  | exhausted => cases hout
  | answered n raw =>
    obtain rfl := Option.some.inj hout
    cases List.mem_singleton.mp he
    rfl
  | raised e _ ih =>
    obtain he | he := List.mem_cons.mp he
    · cases he
    · exact ih he hout

theorem Completes.unanswered {messages messages' : List Message} {n : ℕ} {raw' : Str}
    (hc : Completes messages n t none) : ⟨.complete messages', .ok raw'⟩ ∉ t := by
  generalize hout : (none : Option Str) = out at hc
  induction hc with
  | exhausted => exact List.not_mem_nil
  | answered n raw => cases hout
  | raised e _ ih =>
    intro he
    obtain he | he := List.mem_cons.mp he
    · cases he
    · exact ih hout he

theorem not_mem_of_modelCalls (ht : modelCalls t = 0) {messages : List Message}
    {r : Except Exn Str} : ⟨.complete messages, r⟩ ∉ t := fun he =>
  List.countP_eq_zero.mp ht _ he rfl

/-- The answer of the model is the one that is parsed in the turn. -/
theorem Attempts.parsed {out : Except Exn Outcome} (ha : h.Attempts task s t out)
    {messages : List Message} {raw : Str} (he : ⟨.complete messages, .ok raw⟩ ∈ t) {exc : Exn}
    (hparse : h.parseAction raw = .error exc) :
    (exc.kind = .actionParseError ∧ out = .ok (.inl { s with
        c := { s.c with invalidActions := s.c.invalidActions + 1 }
        lastFeedback := "PARSE_ERROR: ".toList ++ exc.text }) ∧
      h.logged s.c .feedback (feedbackPayload "INVALID_ACTION"
        ("PARSE_ERROR: ".toList ++ exc.text)) ∈ t) ∨
      (exc.kind ≠ .actionParseError ∧ out = .error exc) := by
  cases ha with
  | memoryRaised e _ =>
    cases List.mem_singleton.mp he
  | llmError hr hc =>
    obtain he | he := List.mem_append.mp he
    · exact absurd he (not_mem_of_modelCalls hr.spends.1)
    · obtain he | he := List.mem_append.mp he
      · exact absurd he hc.unanswered
      · cases List.mem_singleton.mp he
  | unparsed hr hc hparse' hkind =>
    obtain he | he := List.mem_append.mp he
    · exact absurd he (not_mem_of_modelCalls hr.spends.1)
    · obtain he | he := List.mem_append.mp he
      · obtain rfl := hc.answer_eq he
        obtain rfl := Except.error.inj (hparse.symm.trans hparse')
        refine .inl ⟨hkind, rfl, ?_⟩
        exact List.mem_append_right _ (List.mem_append_right _
          (List.mem_cons_of_mem _ (List.mem_singleton_self _)))
      · exact absurd he (not_mem_of_modelCalls rfl)
  | parserRaised hr hc hparse' hkind =>
    obtain he | he := List.mem_append.mp he
    · exact absurd he (not_mem_of_modelCalls hr.spends.1)
    · obtain rfl := hc.answer_eq he
      obtain rfl := Except.error.inj (hparse.symm.trans hparse')
      exact .inr ⟨hkind, rfl⟩
  | acted hr hc hparse' ha =>
    obtain he | he := List.mem_append.mp he
    · exact absurd he (not_mem_of_modelCalls hr.spends.1)
    · obtain he | he := List.mem_append.mp he
      · obtain rfl := hc.answer_eq he
        rw [hparse] at hparse'
        contradiction
      · exact absurd he (not_mem_of_modelCalls ha.spends.1)

end HarnessCore

section
variable {D : Decoder} {ds : Str}

/-- A key of one letter. -/
theorem scanString_letter (c : Char) (h : 0x20 ≤ c.toNat) (hq : c ≠ '"') (hb : c ≠ '\\') (n : ℕ)
    (t : Str) : Json.scanString D (n + 2) (c :: '"' :: ':' :: t) = some ([c], [] ++ ':' :: t) :=
  Json.scanString_step (Json.scanChar_plain h hq hb _) rfl

end

/-- An object with so many arrays inside one another. -/
def arraysText (n : ℕ) : Str :=
  '\x7b' :: '"' :: 'a' :: '"' :: ':' :: ' ' ::
    (List.replicate n '[' ++ (List.replicate n ']' ++ ['\x7d']))

theorem arraysText_nested (D : Decoder) (n : ℕ) : n < nested D (arraysText n) := by
  have hlength : (arraysText n).length = 2 * n + 5 + 1 + 1 := by
    simp only [arraysText, List.length_cons, List.length_append, List.length_replicate,
      List.length_nil]
    omega
  have hkey := scanString_letter (D := D) 'a' (by decide) (by decide) (by decide) (2 * n + 3)
    (' ' :: (List.replicate n '[' ++ (List.replicate n ']' ++ ['\x7d'])))
  have harrays := Json.le_nestedOnce_brackets (D := D) n 5 (List.replicate n ']' ++ ['\x7d'])
  rw [nested, hlength, arraysText, Json.nestedOnce_obj rfl, Nat.lt_succ_iff]
  have hskip : skipBlank (' ' :: (List.replicate n '[' ++ (List.replicate n ']' ++ ['\x7d']))) =
      List.replicate n '[' ++ (List.replicate n ']' ++ ['\x7d']) := by
    cases n <;> rfl
  rw [← hskip] at harrays
  exact harrays.trans (Json.nestedOnce_le_members .nil hkey)

theorem arraysText_unfenced (n : ℕ) : fenceSearch (arraysText n) = none := by
  refine fenceSearch_unticked ?_
  simp [arraysText]

/-- As many arrays as there are levels are too many. -/
theorem arraysText_raises (P : ParserLibrary) {levels : Levels} {n : ℕ}
    (hlevels : levels.rawDecode ≤ n) :
    ∃ exc, parseActionWithin P levels (arraysText n) = .error exc ∧
      exc.kind ≠ .actionParseError := by
  refine parseActionWithin_short fun hnests => ?_
  rw [NestsWithin, arraysText_unfenced] at hnests
  have hnested := arraysText_nested P.toDecoder n
  have hle : nested P.toDecoder (arraysText n) ≤ levels.rawDecode := hnests _ (.here rfl)
  omega

end AegisCode
