import AegisCode.JsonTexts

/-!
# Reading an action from a model's answer

The answer is searched for a fenced block; without one, its last JSON object is
taken. The fence is found without regard to the strings of the object, so a text
of an action survives exactly when no brace in it closes the block too early.
-/
namespace AegisCode

open Str (isSpace startsWith)
open Json (Decoder rawDecode loads excess skipBlank Proper Spread tokens)

/-- The libraries the parser calls: the decoder, and the texts of their errors. -/
structure ParserLibrary extends Decoder where
  decodeError : Str → Str
  validationError : Json → Str

/-! ## The fence -/

/-- The rest of the group after its opening brace: up to the first brace that is
followed, white space apart, by the end of the block. -/
def fenceClose : Str → Option Str
  | [] => none
  | c :: t =>
      if c = '}' ∧ startsWith (t.dropWhile isSpace) "```" then some ['}']
      else (fenceClose t).map (c :: ·)

/-- The group of a match that begins at the front of the text. -/
def fenceAt (text : Str) : Option Str :=
  if startsWith text "```json" then
    match (text.drop 7).dropWhile isSpace with
    | '{' :: t => (fenceClose t).map ('{' :: ·)
    | _ => none
  else none

/-- `_FENCE.search`: the group of the first match. -/
def fenceSearch : Str → Option Str
  | [] => none
  | c :: t =>
      match fenceAt (c :: t) with
      | some group => some group
      | none => fenceSearch t

/-! ## The last object -/

/-- The text from the next opening brace on. -/
def findBrace (text : Str) : Str := text.dropWhile (· ≠ '{')

/-- What `int` raises: no `JSONDecodeError`. -/
def excessExn (digits : ℕ) : Exn where
  kind := .valueError
  text := "Exceeds the limit (4300 digits) for integer string conversion: value has ".toList ++
    Nat.toDigits 10 digits ++
    " digits; use sys.set_int_max_str_digits() to increase the limit".toList

/-- The loop of `_last_json_object`, over what is left of the text. -/
def lastJsonObjectFrom (D : Decoder) : ℕ → Option Dict → Str → Except Exn (Option Dict)
  | 0, best, _ => .ok best
  | n + 1, best, text =>
      match findBrace text with
      | [] => .ok best
      | c :: t =>
          match rawDecode D (c :: t) with
          | some (.obj ms, rest) => lastJsonObjectFrom D n (some ms) rest
          | some (_, rest) => lastJsonObjectFrom D n best rest
          | none =>
              match excess D (c :: t) with
              | some digits => .error (excessExn digits)
              | none => lastJsonObjectFrom D n best t

def lastJsonObject (D : Decoder) (text : Str) : Except Exn (Option Dict) :=
  lastJsonObjectFrom D (text.length + 1) none text

/-! ## The action -/

/-- A field that is a string or absent. -/
def optionalStr : Option Json → Option (Option Str)
  | none => some none
  | some .null => some none
  | some (.str s) => some (some s)
  | some _ => none

/-- A field that is an object, by default the empty one. -/
def optionalObj : Option Json → Option Dict
  | none => some []
  | some (.obj ms) => some ms
  | some _ => none

/-- `Action(**data)`; members of other names are ignored. -/
def Action.ofDict (data : Dict) : Option Action :=
  match data.get? "tool", optionalObj (data.get? "arguments"), optionalStr (data.get? "thought"),
    optionalStr (data.get? "expectation") with
  | some (.str tool), some arguments, some thought, some expectation =>
      some ⟨tool, arguments, thought, expectation⟩
  | _, _, _, _ => none

def actionOf (P : ParserLibrary) (data : Json) : Except Exn Action :=
  match data with
  | .obj ms =>
      match Action.ofDict ms with
      | some action => .ok action
      | none => .error ⟨.actionParseError, P.validationError data⟩
  | _ => .error ⟨.actionParseError, P.validationError data⟩

def parseAction (P : ParserLibrary) (text : Str) : Except Exn Action :=
  match fenceSearch text with
  | some group =>
      match loads P.toDecoder group with
      | some data => actionOf P data
      | none =>
          match excess P.toDecoder (skipBlank group) with
          | some digits => .error (excessExn digits)
          | none => .error ⟨.actionParseError, P.decodeError group⟩
  | none =>
      match lastJsonObject P.toDecoder text with
      | .error exc => .error exc
      | .ok (some data) => actionOf P (.obj data)
      | .ok none => .error ⟨.actionParseError, "no JSON object found"⟩

/-! ## Texts around an action -/

/-- The object has the fields of the action; the optional ones may be null. -/
structure Carries (data : Dict) (action : Action) : Prop where
  tool : data.get? "tool" = some (.str action.tool)
  arguments : data.get? "arguments" = some (.obj action.arguments)
  thought : optionalStr (data.get? "thought") = some action.thought
  expectation : optionalStr (data.get? "expectation") = some action.expectation

/-- Text with neither an opening brace nor a fence marker. -/
structure Prose (text : Str) : Prop where
  no_brace : '{' ∉ text
  no_fence : ¬ "```".toList <:+: text

def Space (w : Str) : Prop := ∀ c ∈ w, isSpace c = true

/-- The text in a fenced block, with prose around it. -/
def fenced (before w text w' after : Str) : Str :=
  before ++ ("```json".toList ++ (w ++ (text ++ (w' ++ ("```".toList ++ after)))))

/-- The end of the block follows, white space apart. -/
def Closes (t : Str) : Prop := ∃ w c, Space w ∧ t = w ++ ("```".toList ++ c)

/-- A brace inside the text is followed by what ends a fenced block. -/
def ClosesEarly (text : Str) : Prop := ∃ b t, text = b ++ '}' :: t ∧ Closes t

/-! ## Where a block ends -/

theorem isSpace_of_fence : isSpace '`' = false := by decide

theorem dropWhile_space {w : Str} (hw : Space w) {c : Char} (hc : isSpace c = false) (t : Str) :
    (w ++ c :: t).dropWhile isSpace = c :: t := by
  rw [List.dropWhile_append_of_pos hw, List.dropWhile_cons_of_neg (by simp [hc])]

theorem closes_iff {t : Str} : startsWith (t.dropWhile isSpace) "```" = true ↔ Closes t := by
  rw [Str.startsWith_iff]
  constructor
  · rintro ⟨c, hc⟩
    refine ⟨t.takeWhile isSpace, c, fun d hd => List.mem_takeWhile_imp hd, ?_⟩
    rw [hc, List.takeWhile_append_dropWhile]
  · rintro ⟨w, c, hw, rfl⟩
    exact ⟨c, (dropWhile_space hw isSpace_of_fence _).symm⟩

theorem Closes.append {t : Str} (h : Closes t) (u : Str) : Closes (t ++ u) := by
  obtain ⟨w, c, hw, rfl⟩ := h
  exact ⟨w, c ++ u, hw, by simp⟩

theorem brace_not_mem {w : Str} (hw : Space w) : '}' ∉ w ++ "```".toList := by
  rw [List.mem_append, not_or]
  exact ⟨fun h => absurd (hw _ h) (by decide), by decide⟩

/-- A brace is no part of the end of a block, so the block ends before it. -/
theorem Closes.before_brace {b t : Str} (h : Closes (b ++ '}' :: t)) : Closes b := by
  obtain ⟨w, c, hw, heq⟩ := h
  rw [← List.append_assoc] at heq
  obtain ⟨z, rfl, _⟩ := eq_append_of_not_mem (brace_not_mem hw) heq
  exact ⟨w, z, hw, by simp⟩

theorem Closes.has_fence {t : Str} (h : Closes t) : "```".toList <:+: t := by
  obtain ⟨w, c, _, rfl⟩ := h
  exact ⟨w, c, by simp⟩

/-- The group ends at the brace where no earlier one is followed by the end. -/
theorem fenceClose_eq {b t : Str} (ht : Closes t)
    (hb : ∀ x y, b = x ++ '}' :: y → ¬ Closes (y ++ '}' :: t)) :
    fenceClose (b ++ '}' :: t) = some (b ++ ['}']) := by
  induction b with
  | nil =>
    rw [List.nil_append, fenceClose, if_pos ⟨rfl, closes_iff.2 ht⟩, List.nil_append]
  | cons c b ih =>
    have hc : ¬(c = '}' ∧ startsWith ((b ++ '}' :: t).dropWhile isSpace) "```" = true) := by
      rintro ⟨rfl, h⟩
      exact hb [] b rfl (closes_iff.1 h)
    have hrest := ih fun x y hxy => hb (c :: x) y (by rw [hxy, List.cons_append])
    rw [List.cons_append, fenceClose, if_neg hc, hrest, Option.map_some, List.cons_append]

/-- The group ends no later than at a brace that is followed by the end. -/
theorem fenceClose_prefix {t : Str} (ht : Closes t) (b : Str) :
    ∃ g, fenceClose (b ++ '}' :: t) = some g ∧ g <+: b ++ ['}'] := by
  induction b with
  | nil =>
    refine ⟨['}'], ?_, List.prefix_rfl⟩
    rw [List.nil_append, fenceClose, if_pos ⟨rfl, closes_iff.2 ht⟩]
  | cons c b ih =>
    obtain ⟨g, hg, hpre⟩ := ih
    rw [List.cons_append, fenceClose]
    split_ifs with hc
    · rw [hc.1]
      exact ⟨_, rfl, by simp⟩
    · refine ⟨c :: g, by rw [hg, Option.map_some], ?_⟩
      rw [List.cons_append]
      exact (List.prefix_cons_inj c).2 hpre

theorem fenceClose_some {t g : Str} (h : fenceClose t = some g) :
    ∃ b u, t = b ++ '}' :: u ∧ Closes u := by
  induction t generalizing g with
  | nil => simp [fenceClose] at h
  | cons c t ih =>
    rw [fenceClose] at h
    split_ifs at h with hc
    · exact ⟨[], t, by rw [hc.1, List.nil_append], closes_iff.1 hc.2⟩
    · obtain ⟨g', hg', _⟩ := Option.map_eq_some_iff.1 h
      obtain ⟨b, u, rfl, hu⟩ := ih hg'
      exact ⟨c :: b, u, rfl, hu⟩

/-! ## Where a block begins -/

theorem fenceAt_marker {w t : Str} (hw : Space w) :
    fenceAt ("```json".toList ++ (w ++ '{' :: t)) = (fenceClose t).map ('{' :: ·) := by
  have hstart : startsWith ("```json".toList ++ (w ++ '{' :: t)) "```json" = true :=
    Str.startsWith_iff.2 (List.prefix_append _ _)
  have hdrop : ("```json".toList ++ (w ++ '{' :: t)).drop 7 = w ++ '{' :: t := rfl
  rw [fenceAt, if_pos hstart, hdrop, dropWhile_space hw (by decide)]
  rfl

/-- Two braces and the end of a block, in this order. -/
def HasBlock (text : Str) : Prop := ∃ x u, text = x ++ '}' :: u ∧ '{' ∈ x ∧ Closes u

theorem fenceAt_some {t g : Str} (h : fenceAt t = some g) : HasBlock t := by
  rw [fenceAt] at h
  split_ifs at h with hstart
  obtain ⟨u, rfl⟩ := Str.startsWith_iff.1 hstart
  change (match u.dropWhile isSpace with
    | '{' :: t => (fenceClose t).map ('{' :: ·)
    | _ => none) = some g at h
  split at h
  · rename_i y hy
    obtain ⟨g', hg', _⟩ := Option.map_eq_some_iff.1 h
    obtain ⟨b, v, rfl, hv⟩ := fenceClose_some hg'
    have hu : u.takeWhile isSpace ++ '{' :: (b ++ '}' :: v) = u := by
      rw [← hy, List.takeWhile_append_dropWhile]
    refine ⟨"```json".toList ++ (u.takeWhile isSpace ++ '{' :: b), v, ?_, by simp, hv⟩
    rw [List.append_assoc, List.append_assoc, List.cons_append, hu]
  · contradiction

theorem fenceSearch_some {t g : Str} (h : fenceSearch t = some g) : HasBlock t := by
  induction t with
  | nil => simp [fenceSearch] at h
  | cons c t ih =>
    rw [fenceSearch] at h
    split at h
    · rename_i hat
      exact fenceAt_some hat
    · obtain ⟨x, u, rfl, hx, hu⟩ := ih h
      exact ⟨c :: x, u, rfl, List.mem_cons_of_mem c hx, hu⟩

/-- No block is fenced without a backtick. -/
theorem fenceSearch_unticked {t : Str} (h : '\x60' ∉ t) : fenceSearch t = none := by
  cases hsearch : fenceSearch t with
  | none => rfl
  | some g =>
    obtain ⟨x, u, rfl, _, hclose⟩ := fenceSearch_some hsearch
    have hfence := hclose.has_fence
    have htick : '\x60' ∈ u := hfence.subset (by decide)
    exact absurd (List.mem_append_right _ (List.mem_cons_of_mem _ htick)) h

theorem Prose.tail {c : Char} {p : Str} (h : Prose (c :: p)) : Prose p :=
  ⟨fun hm => h.no_brace (List.mem_cons_of_mem c hm),
    fun hf => h.no_fence (hf.trans (List.suffix_cons c p).isInfix)⟩

/-- No match begins in prose in front of a marker. -/
theorem fenceAt_prose {c : Char} {p : Str} (h : Prose (c :: p)) (t : Str) :
    fenceAt (c :: p ++ ("```json".toList ++ t)) = none := by
  have hstart : ¬ startsWith (c :: p ++ ("```json".toList ++ t)) "```json" = true := by
    rw [Str.startsWith_iff]
    intro hpre
    match p, h, hpre with
    | [], _, hpre => simp at hpre
    | [d], _, hpre => simp at hpre
    | d :: e :: p, h, hpre =>
      have hce : '`' = c ∧ '`' = d ∧ '`' = e := by
        simp at hpre
        tauto
      obtain ⟨rfl, rfl, rfl⟩ := hce
      exact h.no_fence ⟨[], p, rfl⟩
  rw [fenceAt, if_neg hstart]

theorem fenceSearch_prose {p : Str} (h : Prose p) (t : Str) :
    fenceSearch (p ++ ("```json".toList ++ t)) = fenceSearch ("```json".toList ++ t) := by
  induction p with
  | nil => rfl
  | cons c p ih =>
    have hat := fenceAt_prose h t
    rw [List.cons_append] at hat ⊢
    rw [fenceSearch, hat]
    exact ih h.tail

/-- The match in a fenced block around a text that begins with a brace. -/
theorem fenceSearch_fenced {before w t w' after g : Str} (hbefore : Prose before) (hw : Space w)
    (hg : fenceClose (t ++ (w' ++ ("```".toList ++ after))) = some g) :
    fenceSearch (fenced before w ('{' :: t) w' after) = some ('{' :: g) := by
  have hat := fenceAt_marker (t := t ++ (w' ++ ("```".toList ++ after))) hw
  rw [hg, Option.map_some] at hat
  rw [fenced, fenceSearch_prose hbefore]
  have hcons : ∃ c u, "```json".toList ++ (w ++ '{' :: (t ++ (w' ++ ("```".toList ++ after)))) =
    c :: u := ⟨_, _, rfl⟩
  obtain ⟨c, u, hcu⟩ := hcons
  rw [List.cons_append, hcu, fenceSearch, ← hcu, hat]

/-- A block in a text between prose closes within that text. -/
theorem HasBlock.closesEarly {before b after : Str} (hbefore : Prose before) (hafter : Prose after)
    (h : HasBlock (before ++ ('{' :: (b ++ ['}']) ++ after))) : ClosesEarly ('{' :: (b ++ ['}'])) := by
  obtain ⟨x, u, heq, hx, hu⟩ := h
  have hsuffix : ∀ z, z <:+ after → ¬ Closes z := fun z hz hc =>
    hafter.no_fence (hc.has_fence.trans hz.isInfix)
  rcases List.append_eq_append_iff.1 heq with ⟨z, rfl, hz⟩ | ⟨z, rfl, _⟩
  · rcases List.append_eq_append_iff.1 hz with ⟨y, rfl, hy⟩ | ⟨y, hy, hu'⟩
    · exact absurd hu (hsuffix u ⟨y ++ ['}'], by rw [hy]; simp⟩)
    · cases y with
      | nil => exact absurd hu (hsuffix u ⟨['}'], by simpa using hu'⟩)
      | cons d y =>
        obtain ⟨rfl, rfl⟩ := List.cons.inj hu'
        refine ⟨z, y, hy, ?_⟩
        rcases List.eq_nil_or_concat' y with rfl | ⟨y, e, rfl⟩
        · exact absurd hu (hsuffix _ (by simp))
        · have hlast : ('{' :: b) ++ ['}'] = (z ++ '}' :: y) ++ [e] := by simpa using hy
          have he : ['}'] = [e] := (List.append_inj' hlast rfl).2
          obtain rfl : '}' = e := by simpa using he
          have hu' : Closes (y ++ '}' :: after) := by simpa using hu
          exact hu'.before_brace.append _
  · exact absurd (by simp [hx]) hbefore.no_brace

variable {P : ParserLibrary}

theorem findBrace_prose {p : Str} (h : '{' ∉ p) (t : Str) :
    findBrace (p ++ '{' :: t) = '{' :: t := by
  have hp : ∀ c ∈ p, decide (c ≠ '{') = true := by
    intro c hc
    simpa using fun heq : c = '{' => h (heq ▸ hc)
  rw [findBrace, List.dropWhile_append_of_pos hp, List.dropWhile_cons_of_neg (by simp)]

theorem findBrace_none {p : Str} (h : '{' ∉ p) : findBrace p = [] := by
  rw [findBrace, List.dropWhile_eq_nil_iff]
  intro c hc
  simpa using fun heq : c = '{' => h (heq ▸ hc)

theorem lastJsonObject_eq {D : Decoder} {before t after : Str} {data : Dict}
    (hbefore : '{' ∉ before) (hafter : '{' ∉ after)
    (hread : rawDecode D ('{' :: t ++ after) = some (.obj data, after)) :
    lastJsonObject D (before ++ ('{' :: t ++ after)) = .ok (some data) := by
  have hn : ∃ n, (before ++ ('{' :: t ++ after)).length + 1 = n + 2 :=
    ⟨(before ++ t ++ after).length, by simp; omega⟩
  obtain ⟨n, hn⟩ := hn
  have hfind := findBrace_prose hbefore (t ++ after)
  rw [List.cons_append] at hread hn ⊢
  rw [lastJsonObject, hn, lastJsonObjectFrom, hfind]
  dsimp only
  rw [hread]
  dsimp only
  rw [lastJsonObjectFrom, findBrace_none hafter]

theorem actionOf_carries {data : Dict} {action : Action} (h : Carries data action) :
    actionOf P (.obj data) = .ok action := by
  have hargs : optionalObj (data.get? "arguments") = some action.arguments := by
    rw [h.arguments]
    rfl
  simp only [actionOf, Action.ofDict, h.tool, hargs, h.thought, h.expectation]

/-! ## The round trip -/

section

variable {data : Dict} {action : Action} {s : Str}

theorem parseAction_bare (hdata : Carries data action) (hproper : Proper P.toDecoder (.obj data))
    (hs : Spread (tokens (.obj data)) s) {before after : Str} (hbefore : Prose before)
    (hafter : Prose after) (hclose : ¬ ClosesEarly s) :
    parseAction P (before ++ (s ++ after)) = .ok action := by
  obtain ⟨b, rfl⟩ := hs.braces
  have hsearch : fenceSearch (before ++ ('{' :: (b ++ ['}']) ++ after)) = none := by
    cases h : fenceSearch (before ++ ('{' :: (b ++ ['}']) ++ after)) with
    | none => rfl
    | some g => exact absurd ((fenceSearch_some h).closesEarly hbefore hafter) hclose
  have hread := Json.rawDecode_obj hproper hs after
  have hlast := lastJsonObject_eq hbefore.no_brace hafter.no_brace hread
  rw [parseAction, hsearch]
  dsimp only
  rw [hlast]
  exact actionOf_carries hdata

theorem loads_spread (hproper : Proper P.toDecoder (.obj data))
    (hs : Spread (tokens (.obj data)) s) : loads P.toDecoder s = some (.obj data) := by
  have hread := Json.rawDecode_obj hproper hs []
  obtain ⟨b, rfl⟩ := hs.braces
  have hskip : Json.skipBlank ('{' :: (b ++ ['}'])) = '{' :: (b ++ ['}']) := rfl
  rw [List.append_nil] at hread
  rw [loads, hskip, hread]
  rfl

theorem parseAction_fenced (hdata : Carries data action)
    (hproper : Proper P.toDecoder (.obj data)) (hs : Spread (tokens (.obj data)) s)
    {before w w' : Str} (hbefore : Prose before) (hw : Space w) (hw' : Space w') (after : Str)
    (hclose : ¬ ClosesEarly s) : parseAction P (fenced before w s w' after) = .ok action := by
  have hload := loads_spread hproper hs
  obtain ⟨b, rfl⟩ := hs.braces
  have hend : Closes (w' ++ ("```".toList ++ after)) := ⟨w', after, hw', rfl⟩
  have hg : fenceClose (b ++ ['}'] ++ (w' ++ ("```".toList ++ after))) = some (b ++ ['}']) := by
    rw [List.append_assoc]
    refine fenceClose_eq hend fun x y hxy hc => hclose ?_
    refine ⟨'{' :: x, y ++ ['}'], ?_, hc.before_brace.append _⟩
    rw [hxy]
    simp
  rw [parseAction, fenceSearch_fenced hbefore hw hg]
  dsimp only
  rw [hload]
  exact actionOf_carries hdata

/-- No text of an object is the beginning of another one. -/
theorem loads_front (hproper : Proper P.toDecoder (.obj data))
    (hs : Spread (tokens (.obj data)) s) {g q : Str} (hq : q ≠ []) (heq : s = '{' :: g ++ q) :
    loads P.toDecoder ('{' :: g) = none := by
  have hread := Json.rawDecode_obj hproper hs []
  have hskip : Json.skipBlank ('{' :: g) = '{' :: g := rfl
  rw [loads, hskip]
  cases hg : rawDecode P.toDecoder ('{' :: g) with
  | none => rfl
  | some m =>
    obtain ⟨v, r⟩ := m
    have hobj : Json.kind v = 6 := Json.rawDecode_brace hg
    have hlong := Json.rawDecode_append hg (by simp [Json.Ended, hobj]) q
    rw [← heq, ← List.append_nil s, hread] at hlong
    obtain ⟨_, hnil⟩ := Prod.mk.inj (Option.some.inj hlong)
    exact absurd (List.append_eq_nil_iff.1 hnil.symm).2 hq

/-- A block that closes inside the text is cut there, and no action is left. -/
theorem parseAction_cut (hproper : Proper P.toDecoder (.obj data))
    (hs : Spread (tokens (.obj data)) s) {before w : Str} (hbefore : Prose before) (hw : Space w)
    (w' after : Str) (hclose : ClosesEarly s) :
    ∃ exc, parseAction P (fenced before w s w' after) = .error exc := by
  obtain ⟨b, rfl⟩ := hs.braces
  obtain ⟨x, t, heq, ht⟩ := hclose
  cases x with
  | nil => exact absurd (List.cons.inj heq).1 (by decide)
  | cons d x =>
    have hb : b ++ ['}'] = x ++ '}' :: t := (List.cons.inj heq).2
    have hend : Closes (t ++ (w' ++ ("```".toList ++ after))) := ht.append _
    obtain ⟨g, hg, y, hy⟩ := fenceClose_prefix hend x
    have hg' : fenceClose (b ++ ['}'] ++ (w' ++ ("```".toList ++ after))) = some g := by
      rw [hb, List.append_assoc, List.cons_append, hg]
    have hne : y ++ t ≠ [] := by
      obtain ⟨v, c, _, rfl⟩ := ht
      simp
    have hcut : '{' :: (b ++ ['}']) = '{' :: g ++ (y ++ t) := by
      rw [hb, List.cons_append, ← List.append_assoc, hy]
      simp
    rw [parseAction, fenceSearch_fenced hbefore hw hg']
    dsimp only
    rw [loads_front hproper hs hne hcut]
    dsimp only
    split
    · exact ⟨_, rfl⟩
    · exact ⟨_, rfl⟩

end

/-- A text of an action is read back, in a fenced block as well as by itself,
exactly when no brace in it is followed by what ends a fenced block. -/
theorem parse_serialised_iff (P : ParserLibrary) (action : Action) (data : Dict) (s : Str)
    (hdata : Carries data action) (hproper : Proper P.toDecoder (.obj data))
    (hs : Spread (tokens (.obj data)) s) (before after w w' : Str) (hbefore : Prose before)
    (hafter : Prose after) (hw : Space w) (hw' : Space w') :
    (parseAction P (fenced before w s w' after) = .ok action ∧
      parseAction P (before ++ (s ++ after)) = .ok action) ↔ ¬ ClosesEarly s := by
  constructor
  · rintro ⟨hfenced, _⟩ hclose
    obtain ⟨g, hcut⟩ := parseAction_cut hproper hs hbefore hw w' after hclose
    rw [hfenced] at hcut
    cases hcut
  · intro hclose
    exact ⟨parseAction_fenced hdata hproper hs hbefore hw hw' after hclose,
      parseAction_bare hdata hproper hs hbefore hafter hclose⟩

/-! An object in a string, at the end of a code block of its own. -/

def quotedLibrary : ParserLibrary where
  float _ := Json.nan
  unpaired _ := '?'
  decodeError _ := "Unterminated string starting at: line 1 column 49 (char 48)"
  validationError _ := "1 validation error for Action"

def quotedAction (content : Str) : Action :=
  ⟨"write_file", [("content".toList, .str content)], none, none⟩

def quotedData (content : Str) : Dict :=
  [("tool".toList, .str "write_file".toList),
    ("arguments".toList, .obj [("content".toList, .str content)])]

theorem quoted_carries (content : Str) : Carries (quotedData content) (quotedAction content) :=
  ⟨rfl, rfl, rfl, rfl⟩

theorem quoted_proper (content : Str) :
    Proper quotedLibrary.toDecoder (.obj (quotedData content)) :=
  ⟨by simp [quotedData], trivial, ⟨by simp, trivial, trivial⟩, trivial⟩

theorem quoted_prose : Prose "Done.\n" := ⟨by decide, by decide⟩

theorem quoted_space : Space "\n" := by
  intro c hc
  obtain rfl : c = '\n' := by simpa using hc
  decide

theorem parse_serialised_iff_quoted :
    (parseAction quotedLibrary (fenced "Done.\n" "\n"
        (Json.dumps (.obj (quotedData "\x7b\x7d"))) "\n" "Done.\n") =
          .ok (quotedAction "\x7b\x7d") ∧
      parseAction quotedLibrary ("Done.\n".toList ++
        (Json.dumps (.obj (quotedData "\x7b\x7d")) ++ "Done.\n".toList)) =
          .ok (quotedAction "\x7b\x7d")) ↔
      ¬ ClosesEarly (Json.dumps (.obj (quotedData "\x7b\x7d"))) :=
  parse_serialised_iff quotedLibrary _ _ _ (quoted_carries _) (quoted_proper _)
    (Json.dumps_spread _) _ _ _ _ quoted_prose quoted_prose quoted_space quoted_space

/-- With the end of a code block after the object, the action is lost. -/
theorem quoted_block_lost :
    Carries (quotedData "\x7b\x7d```") (quotedAction "\x7b\x7d```") ∧
      Proper quotedLibrary.toDecoder (.obj (quotedData "\x7b\x7d```")) ∧
      Spread (tokens (.obj (quotedData "\x7b\x7d```")))
        (Json.dumps (.obj (quotedData "\x7b\x7d```"))) ∧
      Prose "Done.\n" ∧ Space "\n" ∧
      ¬ (parseAction quotedLibrary (fenced "Done.\n" "\n"
          (Json.dumps (.obj (quotedData "\x7b\x7d```"))) "\n" "Done.\n") =
            .ok (quotedAction "\x7b\x7d```") ∧
        parseAction quotedLibrary ("Done.\n".toList ++
          (Json.dumps (.obj (quotedData "\x7b\x7d```")) ++ "Done.\n".toList)) =
            .ok (quotedAction "\x7b\x7d```")) := by
  have hspread := Json.dumps_spread (.obj (quotedData "\x7b\x7d```"))
  have hclose : ClosesEarly (Json.dumps (.obj (quotedData "\x7b\x7d```"))) := by
    refine ⟨"\x7b\"tool\": \"write_file\", \"arguments\": \x7b\"content\": \"\x7b".toList,
      "```\"\x7d\x7d".toList, by decide, [], "\"\x7d\x7d", ?_, rfl⟩
    exact fun c hc => absurd hc List.not_mem_nil
  refine ⟨quoted_carries _, quoted_proper _, hspread, quoted_prose, quoted_space, ?_⟩
  rintro ⟨hfenced, _⟩
  obtain ⟨g, hcut⟩ := parseAction_cut (quoted_proper _) hspread quoted_prose quoted_space "\n"
    "Done.\n" hclose
  rw [hfenced] at hcut
  cases hcut

end AegisCode
