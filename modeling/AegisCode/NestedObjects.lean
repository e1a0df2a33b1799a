import AegisCode.JsonModes

/-!
# Nested objects

Every opening brace of a text outside its strings begins the text of an object in
the value, and every object in the value has such a text. What follows the text of
a nested object is never empty.
-/
namespace AegisCode.Json

/-! ## Tokens -/

/-- A token of a value: outside its strings it has no opening brace, unless the
brace is all of it. -/
structure Token (t : Str) : Prop extends Whole t where
  ne_nil : t ≠ []
  brace : ∀ x y, t = x ++ '{' :: y → after .outside x = .outside → x = [] ∧ y = []

theorem token_of_marks {t : Str} (h : ∀ c ∈ t, isMark c = true) (hne : t ≠ [])
    (hbrace : '{' ∉ t) : Token t := by
  refine ⟨whole_of_marks h, hne, fun x y heq _ => absurd ?_ hbrace⟩
  rw [heq]
  exact List.mem_append_right x (List.mem_cons_self ..)

theorem token_of_atom {t : Str} (h : ∀ c ∈ t, isAtomChar c = true) (hne : t ≠ []) : Token t :=
  token_of_marks (fun c hc => isMark_of_isAtomChar (h c hc)) hne
    fun hbrace => absurd (h _ hbrace) (by decide)

theorem token_of_mark {c : Char} (h : isMark c = true) (hbrace : c ≠ '{') : Token [c] :=
  token_of_marks (List.forall_mem_singleton.mpr h) (List.cons_ne_nil c [])
    fun hc => hbrace (List.mem_singleton.mp hc).symm

theorem token_brace : Token ['{'] := by
  refine ⟨whole_of_marks (by decide), List.cons_ne_nil _ _, fun x y heq _ => ?_⟩
  cases x with
  | nil => exact ⟨rfl, (List.cons.inj heq).2.symm⟩
  | cons c x =>
    have hnil := (List.cons.inj heq).2
    exact absurd hnil.symm (by simp)

/-! A string literal is left only at its end. -/

theorem hexDigit_plain : ∀ n < 16, hexDigit n ≠ '"' ∧ hexDigit n ≠ '\\' := by decide

theorem stays_unicodeEscape (n : ℕ) : Stays (unicodeEscape n) := by
  refine stays_escape 'u' fun d hd => ?_
  have hdigit : ∀ k, hexDigit (k % 16) ≠ '"' ∧ hexDigit (k % 16) ≠ '\\' := fun k =>
    hexDigit_plain _ (Nat.mod_lt k (by decide))
  simp only [hex4, List.mem_cons, List.not_mem_nil, or_false] at hd
  obtain rfl | rfl | rfl | rfl := hd
  · exact hdigit _
  · exact hdigit _
  · exact hdigit _
  · exact hdigit _

theorem stays_escaped (c : Char) : Stays (escape c) := by
  rw [escape]
  split_ifs with hq hb
  · exact stays_escape '"' (by simp)
  · exact stays_escape '\\' (by simp)
  · exact stays_escape 'n' (by simp)
  · exact stays_escape 'r' (by simp)
  · exact stays_escape 't' (by simp)
  · exact stays_escape 'f' (by simp)
  · exact stays_escape 'b' (by simp)
  · exact stays_plain (by simpa using ⟨hq, hb⟩)
  · exact stays_unicodeEscape _
  · exact (stays_unicodeEscape _).append (stays_unicodeEscape _)

theorem stays_escapes (s : Str) : Stays (s.flatMap escape) := by
  induction s with
  | nil => exact stays_nil
  | cons c s ih =>
    rw [List.flatMap_cons]
    exact (stays_escaped c).append ih

theorem token_quote (s : Str) : Token (quote s) := by
  have hstays := stays_escapes s
  have hopen : next .outside '"' = .inside := rfl
  refine ⟨⟨?_, ?_⟩, List.cons_ne_nil _ _, fun x y heq hx => ?_⟩
  · rw [quote, Follows, hopen, follows_append, hstays.1]
    exact ⟨fun _ => .inl rfl, hstays.follows, (by rintro ⟨⟩), trivial⟩
  · rw [quote, after_cons, hopen, after_append, hstays.1]
    rfl
  · cases x with
    | nil => exact absurd (List.cons.inj heq).1 (by decide)
    | cons c x =>
      have hcons : '"' :: (s.flatMap escape ++ ['"']) = c :: (x ++ '{' :: y) := heq
      obtain ⟨rfl, hbody⟩ := List.cons.inj hcons
      rw [after_cons, hopen] at hx
      obtain ⟨z, _, hz⟩ | ⟨z, hz, _⟩ := List.append_eq_append_iff.mp hbody
      · exfalso
        cases z with
        | nil => exact absurd (List.cons.inj hz).1 (by decide)
        | cons d z => exact absurd (List.cons.inj hz).2 (by simp)
      · exact absurd hx (hstays.2 x ⟨z, hz.symm⟩)

/-! The tokens of a value. -/

theorem dumps_ne_nil (v : Json) : dumps v ≠ [] := by
  obtain ⟨c, t, hct, _⟩ := dumps_lead v
  rw [hct]
  exact List.cons_ne_nil c t

theorem token_name (b : Bool) : Token (dumps (.bool b)) := by
  cases b with
  | true => exact token_of_atom (by decide) (by decide)
  | false => exact token_of_atom (by decide) (by decide)

theorem token_number {v : Json} (h : (dumps v).all isNumberChar = true) : Token (dumps v) :=
  token_of_atom (fun c hc => isAtomChar_of_isNumberChar (List.all_eq_true.mp h c hc))
    (dumps_ne_nil v)

mutual
theorem tokens_token : ∀ v : Json, ∀ t ∈ tokens v, Token t
  | .null => List.forall_mem_singleton.mpr (token_of_atom (by decide) (by decide))
  | .bool b => List.forall_mem_singleton.mpr (token_name b)
  | .int n => List.forall_mem_singleton.mpr (token_number (decimal_numeric n))
  | .float f => List.forall_mem_singleton.mpr (token_number f.numeric)
  | .str s => List.forall_mem_singleton.mpr (token_quote s)
  | .arr xs => List.forall_mem_cons.mpr
      ⟨token_of_mark (by decide) (by decide), elemTokens_token xs⟩
  | .obj ms => List.forall_mem_cons.mpr ⟨token_brace, memberTokens_token ms⟩

theorem elemTokens_token : ∀ xs : List Json, ∀ t ∈ elemTokens xs, Token t
  | [] => List.forall_mem_singleton.mpr (token_of_mark (by decide) (by decide))
  | [x] => List.forall_mem_append.mpr ⟨tokens_token x,
      List.forall_mem_singleton.mpr (token_of_mark (by decide) (by decide))⟩
  | x :: y :: xs => List.forall_mem_append.mpr ⟨tokens_token x, List.forall_mem_cons.mpr
      ⟨token_of_mark (by decide) (by decide), elemTokens_token (y :: xs)⟩⟩

theorem memberTokens_token : ∀ ms : List (Str × Json), ∀ t ∈ memberTokens ms, Token t
  | [] => List.forall_mem_singleton.mpr (token_of_mark (by decide) (by decide))
  | [(k, v)] => List.forall_mem_cons.mpr ⟨token_quote k, List.forall_mem_cons.mpr
      ⟨token_of_mark (by decide) (by decide), List.forall_mem_append.mpr ⟨tokens_token v,
        List.forall_mem_singleton.mpr (token_of_mark (by decide) (by decide))⟩⟩⟩
  | (k, v) :: m :: ms => List.forall_mem_cons.mpr ⟨token_quote k, List.forall_mem_cons.mpr
      ⟨token_of_mark (by decide) (by decide), List.forall_mem_append.mpr ⟨tokens_token v,
        List.forall_mem_cons.mpr ⟨token_of_mark (by decide) (by decide),
          memberTokens_token (m :: ms)⟩⟩⟩⟩
end

/-- A brace outside the strings is a token. -/
theorem Spread.brace {ts : List Str} {s x y : Str} (hs : Spread ts s) (h : ∀ t ∈ ts, Token t)
    (heq : s = x ++ '{' :: y) (hx : after .outside x = .outside) :
    ∃ pre post, ts = pre ++ ['{'] :: post ∧ Spread (['{'] :: post) ('{' :: y) ∧
      (pre = [] → x = []) := by
  induction hs generalizing x with
  | one t =>
    obtain ⟨rfl, rfl⟩ := (h t (List.mem_singleton_self t)).brace x y heq hx
    exact ⟨[], [], by rw [heq]; rfl, .one _, fun _ => rfl⟩
  | @cons t w s ts hw hs ih =>
    obtain ⟨ht, hts⟩ := List.forall_mem_cons.mp h
    have hlater : ∀ z, x = t ++ z → w ++ s = z ++ '{' :: y →
        ∃ pre post, t :: ts = pre ++ ['{'] :: post ∧ Spread (['{'] :: post) ('{' :: y) ∧
          (pre = [] → x = []) := by
      rintro z rfl hz
      have hblank : '{' ∉ w := fun hb => absurd (hw _ hb) (by decide)
      obtain ⟨z, rfl, rfl⟩ := eq_append_of_not_mem hblank hz.symm
      rw [after_append, ht.after_eq, after_append, (whole_of_blank hw).after_eq] at hx
      obtain ⟨pre, post, rfl, hpost, _⟩ := ih hts rfl hx
      exact ⟨t :: pre, post, rfl, hpost, nofun⟩
    obtain ⟨z, hxz, hz⟩ | ⟨z, htz, hz⟩ := List.append_eq_append_iff.mp heq
    · exact hlater z hxz hz
    · cases z with
      | nil => exact hlater [] (by rw [htz]; simp) (by simpa using hz.symm)
      | cons d z =>
        obtain ⟨rfl, rfl⟩ := List.cons.inj hz
        obtain ⟨rfl, rfl⟩ := ht.brace x z htz hx
        refine ⟨[], ts, by rw [htz]; rfl, ?_, fun _ => rfl⟩
        exact .cons (t := ['{']) hw hs

/-! ## Objects -/

mutual
/-- The objects in a value, the value itself among them. -/
def objects : Json → List Dict
  | .arr xs => elemObjects xs
  | .obj ms => ms :: memberObjects ms
  | .null => []
  | .bool _ => []
  | .int _ => []
  | .float _ => []
  | .str _ => []

def elemObjects : List Json → List Dict
  | [] => []
  | x :: xs => objects x ++ elemObjects xs

/-- The objects inside an object. -/
def memberObjects : List (Str × Json) → List Dict
  | [] => []
  | (_, v) :: ms => objects v ++ memberObjects ms
end

/-! ## Their tokens -/

/-- Splitting a list of tokens at a brace that stands in one of two parts. -/
theorem append_brace {α : Type} {a b pre post : List α} {c : α} (h : a ++ b = pre ++ c :: post) :
    (∃ z, a = pre ++ c :: z ∧ post = z ++ b) ∨ ∃ z, pre = a ++ z ∧ b = z ++ c :: post := by
  obtain ⟨z, hz, hb⟩ | ⟨z, hz, hb⟩ := List.append_eq_append_iff.mp h
  · exact .inr ⟨z, hz, hb⟩
  · cases z with
    | nil => exact .inr ⟨[], by simpa using hz.symm, by simpa using hb.symm⟩
    | cons d z =>
      obtain ⟨rfl, rfl⟩ := List.cons.inj hb
      exact .inl ⟨z, hz, rfl⟩

/-- A brace behind another token. -/
theorem cons_brace {α : Type} {a c : α} {b pre post : List α} (h : a :: b = pre ++ c :: post)
    (hac : a ≠ c) : ∃ z, pre = a :: z ∧ b = z ++ c :: post := by
  cases pre with
  | nil => exact absurd (List.cons.inj h).1 hac
  | cons d pre =>
    obtain ⟨rfl, hb⟩ := List.cons.inj h
    exact ⟨pre, rfl, hb⟩

theorem elemTail_ne_nil (xs : List Json) : elemTail xs ≠ [] := by
  cases xs <;> exact List.cons_ne_nil _ _

theorem memberTail_ne_nil (ms : List (Str × Json)) : memberTail ms ≠ [] := by
  cases ms <;> exact List.cons_ne_nil _ _

theorem elemTail_brace {xs : List Json} {z post : List Str}
    (h : elemTail xs = z ++ ['{'] :: post) : ∃ z', elemTokens xs = z' ++ ['{'] :: post := by
  cases xs with
  | nil => exact ⟨z, h⟩
  | cons x xs =>
    obtain ⟨z', _, hz'⟩ := cons_brace h (by decide)
    exact ⟨z', hz'⟩

theorem memberTail_brace {ms : List (Str × Json)} {z post : List Str}
    (h : memberTail ms = z ++ ['{'] :: post) : ∃ z', memberTokens ms = z' ++ ['{'] :: post := by
  cases ms with
  | nil => exact ⟨z, h⟩
  | cons m ms =>
    obtain ⟨z', _, hz'⟩ := cons_brace h (by decide)
    exact ⟨z', hz'⟩

theorem quote_ne_brace (k : Str) : quote k ≠ ['{'] := fun h =>
  absurd (List.cons.inj h).1 (by decide)

theorem atom_brace {v : Json} {pre post : List Str} (hkind : kind v < 5)
    (htokens : tokens v = [dumps v]) : tokens v ≠ pre ++ ['{'] :: post := by
  intro h
  rw [htokens] at h
  have hdumps : dumps v ≠ ['{'] := by
    intro heq
    obtain ⟨c, t, hct, hc⟩ := dumps_lead v
    rw [heq] at hct
    rw [← (List.cons.inj hct).1] at hc
    have hlead : leadKind '{' = 6 := by decide
    omega
  obtain ⟨z, _, hz⟩ := cons_brace h hdumps
  simp at hz

mutual
/-- A token that is a brace begins the tokens of one of the objects. -/
theorem tokens_brace : ∀ (v : Json) {pre post : List Str}, tokens v = pre ++ ['{'] :: post →
    ∃ o ∈ objects v, ∃ rest, ['{'] :: post = tokens (.obj o) ++ rest
  | .null, _, _, h => absurd h (atom_brace (by decide) rfl)
  | .bool b, _, _, h => absurd h (atom_brace (by cases b <;> decide) rfl)
  | .int _, _, _, h => absurd h (atom_brace (by simp [kind]) rfl)
  | .float _, _, _, h => absurd h (atom_brace (by simp [kind]) rfl)
  | .str _, _, _, h => absurd h (atom_brace (by simp [kind]) rfl)
  | .arr xs, _, _, h => by
      obtain ⟨z, _, hz⟩ := cons_brace h (by decide)
      obtain ⟨o, ho, rest, _, heq⟩ := elemTokens_brace xs hz
      exact ⟨o, ho, rest, heq⟩
  | .obj ms, [], post, h => by
      refine ⟨ms, List.mem_cons_self .., [], ?_⟩
      rw [List.append_nil, h, List.nil_append]
  | .obj ms, _ :: z, post, h => by
      obtain ⟨o, ho, rest, _, heq⟩ := memberTokens_brace ms (List.cons.inj h).2
      exact ⟨o, List.mem_cons_of_mem ms ho, rest, heq⟩

theorem elemTokens_brace : ∀ (xs : List Json) {pre post : List Str},
    elemTokens xs = pre ++ ['{'] :: post →
    ∃ o ∈ elemObjects xs, ∃ rest, rest ≠ [] ∧ ['{'] :: post = tokens (.obj o) ++ rest
  | [], _, _, h => by
      obtain ⟨z, _, hz⟩ := cons_brace h (by decide)
      simp at hz
  | x :: xs, _, _, h => by
      rw [elemTokens_cons] at h
      obtain ⟨z, hx, rfl⟩ | ⟨z, _, hz⟩ := append_brace h
      · obtain ⟨o, ho, rest, heq⟩ := tokens_brace x hx
        refine ⟨o, List.mem_append_left _ ho, rest ++ elemTail xs,
          List.append_ne_nil_of_right_ne_nil _ (elemTail_ne_nil xs), ?_⟩
        rw [← List.append_assoc, ← heq, List.cons_append]
      · obtain ⟨z', hz'⟩ := elemTail_brace hz
        obtain ⟨o, ho, hrest⟩ := elemTokens_brace xs hz'
        exact ⟨o, List.mem_append_right _ ho, hrest⟩

theorem memberTokens_brace : ∀ (ms : List (Str × Json)) {pre post : List Str},
    memberTokens ms = pre ++ ['{'] :: post →
    ∃ o ∈ memberObjects ms, ∃ rest, rest ≠ [] ∧ ['{'] :: post = tokens (.obj o) ++ rest
  | [], _, _, h => by
      obtain ⟨z, _, hz⟩ := cons_brace h (by decide)
      simp at hz
  | (k, v) :: ms, _, _, h => by
      rw [memberTokens_cons] at h
      obtain ⟨y, _, hy⟩ := cons_brace h (quote_ne_brace k)
      obtain ⟨y', _, hy'⟩ := cons_brace hy (by decide)
      obtain ⟨z, hv, rfl⟩ | ⟨z, _, hz⟩ := append_brace hy'
      · obtain ⟨o, ho, rest, heq⟩ := tokens_brace v hv
        refine ⟨o, List.mem_append_left _ ho, rest ++ memberTail ms,
          List.append_ne_nil_of_right_ne_nil _ (memberTail_ne_nil ms), ?_⟩
        rw [← List.append_assoc, ← heq, List.cons_append]
      · obtain ⟨z', hz'⟩ := memberTail_brace hz
        obtain ⟨o, ho, hrest⟩ := memberTokens_brace ms hz'
        exact ⟨o, List.mem_append_right _ ho, hrest⟩
end

mutual
/-- The tokens of each of the objects stand in the tokens of the value. -/
theorem objects_tokens : ∀ (v : Json), ∀ o ∈ objects v,
    ∃ pre rest, tokens v = pre ++ (tokens (.obj o) ++ rest)
  | .null, _, h => absurd h List.not_mem_nil
  | .bool _, _, h => absurd h List.not_mem_nil
  | .int _, _, h => absurd h List.not_mem_nil
  | .float _, _, h => absurd h List.not_mem_nil
  | .str _, _, h => absurd h List.not_mem_nil
  | .arr xs, o, h => by
      obtain ⟨pre, rest, _, heq⟩ := elemObjects_tokens xs o h
      exact ⟨"[".toList :: pre, rest, by rw [tokens, heq, List.cons_append]⟩
  | .obj ms, o, h => by
      obtain rfl | h := List.mem_cons.mp h
      · exact ⟨[], [], by rw [List.nil_append, List.append_nil]⟩
      · obtain ⟨pre, rest, _, heq⟩ := memberObjects_tokens ms o h
        exact ⟨['{'] :: pre, rest, by rw [tokens, heq, List.cons_append]⟩

theorem elemObjects_tokens : ∀ (xs : List Json), ∀ o ∈ elemObjects xs,
    ∃ pre rest, rest ≠ [] ∧ elemTokens xs = pre ++ (tokens (.obj o) ++ rest)
  | [], _, h => absurd h List.not_mem_nil
  | x :: xs, o, h => by
      rw [elemTokens_cons]
      obtain h | h := List.mem_append.mp h
      · obtain ⟨pre, rest, heq⟩ := objects_tokens x o h
        exact ⟨pre, rest ++ elemTail xs,
          List.append_ne_nil_of_right_ne_nil _ (elemTail_ne_nil xs), by rw [heq]; simp⟩
      · obtain ⟨pre, rest, hne, heq⟩ := elemObjects_tokens xs o h
        cases xs with
        | nil => exact absurd h List.not_mem_nil
        | cons y xs =>
          exact ⟨tokens x ++ ",".toList :: pre, rest, hne, by rw [elemTail, heq]; simp⟩

theorem memberObjects_tokens : ∀ (ms : List (Str × Json)), ∀ o ∈ memberObjects ms,
    ∃ pre rest, rest ≠ [] ∧ memberTokens ms = pre ++ (tokens (.obj o) ++ rest)
  | [], _, h => absurd h List.not_mem_nil
  | (k, v) :: ms, o, h => by
      rw [memberTokens_cons]
      obtain h | h := List.mem_append.mp h
      · obtain ⟨pre, rest, heq⟩ := objects_tokens v o h
        exact ⟨quote k :: ":".toList :: pre, rest ++ memberTail ms,
          List.append_ne_nil_of_right_ne_nil _ (memberTail_ne_nil ms), by rw [heq]; simp⟩
      · obtain ⟨pre, rest, hne, heq⟩ := memberObjects_tokens ms o h
        cases ms with
        | nil => exact absurd h List.not_mem_nil
        | cons m ms =>
          exact ⟨quote k :: ":".toList :: (tokens v ++ ",".toList :: pre), rest, hne,
            by rw [memberTail, heq]; simp⟩
end

mutual
theorem Proper.objects {D : Decoder} : ∀ (v : Json), Proper D v → ∀ o ∈ objects v,
    Proper D (.obj o)
  | .null, _, _, h => absurd h List.not_mem_nil
  | .bool _, _, _, h => absurd h List.not_mem_nil
  | .int _, _, _, h => absurd h List.not_mem_nil
  | .float _, _, _, h => absurd h List.not_mem_nil
  | .str _, _, _, h => absurd h List.not_mem_nil
  | .arr xs, hv, o, h => ProperElems.objects xs hv o h
  | .obj ms, hv, o, h => by
      obtain rfl | h := List.mem_cons.mp h
      · exact hv
      · exact ProperMembers.objects ms hv.2 o h

theorem ProperElems.objects {D : Decoder} : ∀ (xs : List Json), ProperElems D xs →
    ∀ o ∈ elemObjects xs, Proper D (.obj o)
  | [], _, _, h => absurd h List.not_mem_nil
  | x :: xs, hxs, o, h => by
      obtain h | h := List.mem_append.mp h
      · exact Proper.objects x hxs.1 o h
      · exact ProperElems.objects xs hxs.2 o h

theorem ProperMembers.objects {D : Decoder} : ∀ (ms : List (Str × Json)), ProperMembers D ms →
    ∀ o ∈ memberObjects ms, Proper D (.obj o)
  | [], _, _, h => absurd h List.not_mem_nil
  | (_, v) :: ms, hms, o, h => by
      obtain h | h := List.mem_append.mp h
      · exact Proper.objects v hms.1 o h
      · exact ProperMembers.objects ms hms.2 o h
end

/-! ## Their texts -/

theorem Spread.ne_nil {ts : List Str} {s : Str} (hs : Spread ts s) (h : ∀ t ∈ ts, Token t) :
    s ≠ [] := by
  cases hs with
  | one => exact (h s (List.mem_singleton_self s)).ne_nil
  | cons _ _ => exact List.append_ne_nil_of_left_ne_nil (h _ (List.mem_cons_self ..)).ne_nil _

section
variable {data : Dict} {s : Str}

/-- At a brace outside the strings, the first one apart, stands a nested object. -/
theorem Spread.nested {x y : Str} (hs : Spread (tokens (.obj data)) s) (heq : s = x ++ '{' :: y)
    (hx : after .outside x = .outside) (hne : x ≠ []) :
    ∃ o ∈ memberObjects data, ∃ t z, z ≠ [] ∧ Spread (tokens (.obj o)) t ∧
      '{' :: y = t ++ z := by
  obtain ⟨pre, post, htokens, hpost, hpre⟩ := hs.brace (tokens_token _) heq hx
  cases pre with
  | nil => exact absurd (hpre rfl) hne
  | cons d pre =>
    have hmembers : memberTokens data = pre ++ ['{'] :: post := (List.cons.inj htokens).2
    obtain ⟨o, ho, rest, hrest, hbegin⟩ := memberTokens_brace data hmembers
    rw [hbegin] at hpost
    obtain ⟨t, w, b, ht, _, hb, hy⟩ := hpost.split hrest (tokens_ne_nil _)
    have hall : ∀ u ∈ rest, Token u := by
      intro u hu
      refine memberTokens_token data u ?_
      rw [hmembers, hbegin]
      exact List.mem_append_right _ (List.mem_append_right _ hu)
    exact ⟨o, ho, t, w ++ b, List.append_ne_nil_of_right_ne_nil w (hb.ne_nil hall), ht, hy⟩

end

end AegisCode.Json
