import AegisCode.Redactor

/-!
# Redaction inside string literals

What the redactor makes of the body of a JSON string literal, against what it
makes of the string itself. The first two patterns match the same in both. The
third does not: white space, quotation marks and letters beyond ASCII may be
part of an assignment in the string and are escaped in the literal, and the
code of a tab ends in a letter with which a keyword may begin. `Redactable`
says when the literal loses at least what the string loses.
-/
namespace AegisCode.Redactor

open Substitution

/-! ## The letters of a literal -/

/-- A character that a string literal spells as it stands. -/
theorem escape_plain {c : Char} (h : 0x20 ≤ c.toNat ∧ c.toNat ≤ 0x7e) (hquote : c.toNat ≠ 34)
    (hslash : c.toNat ≠ 92) : Json.escape c = [c] := by
  have hne : ∀ d : Char, c.toNat ≠ d.toNat → c ≠ d := fun d hd heq => hd (toNat_eq heq)
  unfold Json.escape
  rw [if_neg (hne '"' hquote), if_neg (hne '\\' hslash),
    if_neg (hne '\n' (by simp only [Char.reduceToNat]; omega)),
    if_neg (hne '\r' (by simp only [Char.reduceToNat]; omega)),
    if_neg (hne '\t' (by simp only [Char.reduceToNat]; omega)),
    if_neg (by omega), if_neg (by omega), if_pos h]

theorem isKeyChar_plain {c : Char} (h : isKeyChar c = true) : Json.escape c = [c] := by
  have hrange : c.toNat = 95 ∨ c.toNat = 45 ∨ (48 ≤ c.toNat ∧ c.toNat ≤ 57) ∨
      (65 ≤ c.toNat ∧ c.toNat ≤ 90) ∨ (97 ≤ c.toNat ∧ c.toNat ≤ 122) := by
    simp only [isKeyChar, Bool.or_eq_true, decide_eq_true_eq] at h
    obtain (h | rfl) | rfl := h
    · exact .inr (.inr (isAlphanumeric_toNat h))
    · exact .inl rfl
    · exact .inr (.inl rfl)
  exact escape_plain (by omega) (by omega) (by omega)

theorem isAwsChar_isKeyChar {c : Char} (h : isAwsChar c = true) : isKeyChar c = true := by
  simp only [isAwsChar, Bool.or_eq_true] at h
  rcases h with h | h <;> simp [isKeyChar, isAlphanumeric, h]

theorem IsOpenai.isKeyChar {w : Str} (h : IsOpenai w) : ∀ c ∈ w, isKeyChar c = true := by
  obtain ⟨run, rfl, _, hrun⟩ := h
  have hhead : ∀ c ∈ "sk-".toList, Redactor.isKeyChar c = true := by decide
  exact fun c hc => (List.mem_append.mp hc).elim (hhead c) (hrun c)

theorem IsAws.isKeyChar {w : Str} (h : IsAws w) : ∀ c ∈ w, Redactor.isKeyChar c = true := by
  obtain ⟨run, rfl, _, hrun⟩ := h
  have hhead : ∀ c ∈ "AKIA".toList, Redactor.isKeyChar c = true := by decide
  exact fun c hc => (List.mem_append.mp hc).elim (hhead c) fun hc => isAwsChar_isKeyChar (hrun c hc)

/-- The letters of the code of a character, apart from those of a tab. -/
def codeLetters : Str := "\\\"nrfbu0123456789abcdef".toList

theorem hexDigit_mem (n : ℕ) : Json.hexDigit n ∈ codeLetters := by
  have hsmall : ∀ n < 16, Json.hexDigit n ∈ codeLetters := by decide
  by_cases hn : n < 16
  · exact hsmall n hn
  · have hlong : "0123456789abcdef".toList.length ≤ n := by
      rw [show "0123456789abcdef".toList.length = 16 by decide]
      omega
    rw [Json.hexDigit, List.getD_eq_getElem?_getD, List.getElem?_eq_none hlong]
    decide

theorem unicodeEscape_mem {n : ℕ} : ∀ d ∈ Json.unicodeEscape n, d ∈ codeLetters := by
  intro d hd
  simp only [Json.unicodeEscape, Json.hex4, List.mem_cons, List.not_mem_nil, or_false] at hd
  obtain rfl | rfl | rfl | rfl | rfl | rfl := hd
  · decide
  · decide
  all_goals exact hexDigit_mem _

/-- A character is spelled as it stands or has a code. -/
theorem escape_cases {c : Char} {e : Str} (h : Json.escape c = e) : e = [c] ∨
    ∃ t, e = '\\' :: t ∧ ∀ d ∈ t, d ∈ codeLetters ∨ c = '\t' ∧ d = 't' := by
  have hpair : ∀ {e}, e ∈ codeLetters → ∀ d ∈ [e], d ∈ codeLetters ∨ c = '\t' ∧ d = 't' :=
    fun he d hd => .inl (List.mem_singleton.mp hd ▸ he)
  unfold Json.escape at h
  split at h
  · exact .inr ⟨['"'], h.symm, hpair (by decide)⟩
  split at h
  · exact .inr ⟨['\\'], h.symm, hpair (by decide)⟩
  split at h
  · exact .inr ⟨['n'], h.symm, hpair (by decide)⟩
  split at h
  · exact .inr ⟨['r'], h.symm, hpair (by decide)⟩
  split at h
  · rename_i htab
    exact .inr ⟨['t'], h.symm, fun d hd => .inr ⟨htab, List.mem_singleton.mp hd⟩⟩
  split at h
  · exact .inr ⟨['f'], h.symm, hpair (by decide)⟩
  split at h
  · exact .inr ⟨['b'], h.symm, hpair (by decide)⟩
  split at h
  · exact .inl h.symm
  split at h
  · exact .inr ⟨_, h.symm, fun d hd => .inl (unicodeEscape_mem d (List.mem_cons_of_mem _ hd))⟩
  · refine .inr ⟨_, h.symm, fun d hd => .inl ?_⟩
    have hmem : d ∈ Json.unicodeEscape (0xd800 + (c.toNat - 0x10000) / 0x400) ++
        Json.unicodeEscape (0xdc00 + (c.toNat - 0x10000) % 0x400) := List.mem_cons_of_mem '\\' hd
    exact (List.mem_append.mp hmem).elim (unicodeEscape_mem d) (unicodeEscape_mem d)

theorem escape_code {c : Char} (h : Json.escape c ≠ [c]) :
    ∃ t, Json.escape c = '\\' :: t ∧ ∀ d ∈ t, d ∈ codeLetters ∨ c = '\t' ∧ d = 't' :=
  (escape_cases rfl).resolve_left h

theorem escaping : Escaping Json.escape '\\' where
  code := fun h =>
    have ⟨t, ht, _⟩ := escape_code h
    ⟨t, ht⟩
  coded := by decide

/-- In the code of a character there are no letters with which a key begins. -/
theorem code_mem {c d : Char} (h : Json.escape c ≠ [c]) (hd : d ∈ Json.escape c) :
    d ∈ codeLetters ∨ c = '\t' ∧ d = 't' := by
  obtain ⟨t, ht, hmem⟩ := escape_code h
  rw [ht] at hd
  obtain rfl | hd := List.mem_cons.mp hd
  · exact .inl (by decide)
  · exact hmem d hd

theorem code_not_key {c d : Char} (h : Json.escape c ≠ [c]) (hd : d ∈ Json.escape c) :
    d ≠ 's' ∧ d ≠ 'A' := by
  have hletters : ∀ d ∈ codeLetters, d ≠ 's' ∧ d ≠ 'A' := by decide
  obtain hd | ⟨_, rfl⟩ := code_mem h hd
  · exact hletters d hd
  · decide

theorem transparent_openai : Transparent openaiKey Json.escape := by
  refine finds_openai.transparent escaping (fun w hw d hd => isKeyChar_plain (hw.isKeyChar d hd))
    (by decide) fun hc hd w hw => ?_
  obtain ⟨t, ht⟩ := hw.head
  exact (code_not_key hc hd).1 (List.cons.inj ht).1

theorem transparent_aws : Transparent awsKey Json.escape := by
  refine finds_aws.transparent escaping (fun w hw d hd => isKeyChar_plain (hw.isKeyChar d hd))
    (by decide) fun hc hd w hw => ?_
  obtain ⟨t, ht⟩ := hw.head
  exact (code_not_key hc hd).2 (List.cons.inj ht).1

/-- Only the last letter of the code of a tab may begin an assignment. -/
theorem code_generic {c d : Char} (h : Json.escape c ≠ [c]) (hd : d ∈ Json.escape c)
    (htab : c ≠ '\t') (w : Str) : ¬ IsGeneric (d :: w) := by
  intro hw
  have hletters : ∀ d ∈ codeLetters, fold d ∉ ['k', 't', 'p', 's'] := by decide
  obtain ⟨e, t, ht, he⟩ := hw.head
  obtain rfl := (List.cons.inj ht).1
  exact hletters _ ((code_mem h hd).resolve_right fun hc => htab hc.1) he

/-- The letters of an assignment. -/
theorem IsGeneric.letters {w : Str} (h : IsGeneric w) :
    ∀ c ∈ w, isValueChar c = true ∨ Str.isSpace c = true ∨ isQuote c = true := by
  obtain ⟨hkeyword, hgap, hgap', hquote, _, hrun⟩ := h
  rename_i keyword gap gap' quote run _
  have hkey : ∀ c ∈ keyword, isValueChar c = true := by
    intro c hc
    have hletters : ∀ p ∈ keywords, ∀ d ∈ p, isAlphanumeric d = true := by decide
    have hfold := hletters _ hkeyword _ (List.mem_map_of_mem hc)
    simp [isValueChar, hfold]
  intro c hc
  simp only [List.mem_append, List.mem_cons] at hc
  obtain (hc | hc) | rfl | (hc | hc) | hc := hc
  · exact .inl (hkey c hc)
  · exact .inr (.inl (hgap c hc))
  · exact .inl (by decide)
  · exact .inr (.inl (hgap' c hc))
  · obtain rfl | ⟨d, rfl, hd⟩ := hquote
    · simp at hc
    · obtain rfl : c = d := by simpa using hc
      exact .inr (.inr hd)
  · exact .inl (hrun c hc)

/-- Letters of no assignment: the escape letter, and what stands around a literal. -/
def isBarrier (c : Char) : Bool := c ∈ ['\\', ',', ':', '[', ']', '\x7b', '\x7d']

theorem IsGeneric.not_barrier {w : Str} (h : IsGeneric w) {c : Char} (hc : isBarrier c = true) :
    c ∉ w := by
  intro hin
  have hletter : ∀ c, isBarrier c = true →
      isValueChar c = false ∧ Str.isSpace c = false ∧ isQuote c = false := by
    intro c hc
    have hall : ∀ c ∈ ['\\', ',', ':', '[', ']', '\x7b', '\x7d'],
      isValueChar c = false ∧ Str.isSpace c = false ∧ isQuote c = false := by decide
    exact hall c (by simpa [isBarrier] using hc)
  have := hletter c hc
  have := h.letters c hin
  simp_all

/-! ## Labelled texts -/

/-- A text whose letters carry the index of the character of the string that they
stem from, if they stem from it. -/
abbrev Labelled := List (Char × Option ℕ)

def label (v : Str) : Labelled := v.zipIdx.map fun p => (p.1, some p.2)

def marker : Labelled := "[REDACTED]".toList.map fun c => (c, none)

/-- Some letter of what the `i`-th character is written as stands in the text. -/
def Shown (i : ℕ) (xs : Labelled) : Prop := ∃ c, (c, some i) ∈ xs

theorem shown_append {i : ℕ} {xs ys : Labelled} : Shown i (xs ++ ys) ↔ Shown i xs ∨ Shown i ys := by
  simp [Shown, exists_or]

theorem shown_cons {i : ℕ} {x : Char × Option ℕ} {xs : Labelled} :
    Shown i (x :: xs) ↔ x.2 = some i ∨ Shown i xs := by
  simp only [Shown, List.mem_cons, exists_or]
  refine or_congr ⟨?_, fun h => ⟨x.1, ?_⟩⟩ Iff.rfl
  · rintro ⟨c, rfl⟩
    rfl
  · rw [← h]

theorem label_of_mem_marker {x : Char × Option ℕ} (h : x ∈ marker) : x.2 = none := by
  obtain ⟨c, _, rfl⟩ := List.mem_map.mp h
  rfl

theorem not_shown_marker {i : ℕ} : ¬ Shown i marker := by
  rintro ⟨c, hc⟩
  simpa using label_of_mem_marker hc

theorem marker_plain : ∀ x ∈ marker, Json.escape x.1 = [x.1] := by decide

/-- What the first two patterns leave of a text. -/
def withoutKeys {α : Type} (letter : α → Char) (marker : List α) (text : List α) : List α :=
  sub awsKey letter marker 0 (sub openaiKey letter marker 0 text)

theorem scrub_eq {α : Type} (letter : α → Char) (marker : List α) (text : List α) :
    scrub letter marker text =
      sub genericAssignment letter marker 0 (withoutKeys letter marker text) := rfl

/-- The first two patterns find the same in a string and in its literal. -/
theorem withoutKeys_encode (xs : Labelled) :
    withoutKeys Prod.fst marker (xs.flatMap (encode Json.escape)) =
      (withoutKeys Prod.fst marker xs).flatMap (encode Json.escape) := by
  rw [withoutKeys, sub_encode transparent_openai marker_plain xs 0 (by simp),
    sub_encode transparent_aws marker_plain _ 0 (by simp)]
  rfl

theorem map_withoutKeys (xs : Labelled) :
    (withoutKeys Prod.fst marker xs).map Prod.fst =
      withoutKeys id "[REDACTED]".toList (xs.map Prod.fst) := by
  have hmark : marker.map Prod.fst = "[REDACTED]".toList := rfl
  rw [withoutKeys, withoutKeys, ← hmark]
  refine (map_sub (f := id) Prod.fst marker 0 _).trans ?_
  exact congrArg (sub awsKey id (marker.map Prod.fst) 0) (map_sub (f := id) Prod.fst marker 0 xs)

/-! ## What a literal loses -/

/-- An assignment that begins at the last letter of the code of a tab ends at `q`. -/
def TabEnd (u : Str) (q : ℕ) : Prop := ∃ (a s w : Str), u = a ++ '\t' :: s ∧
  genericAt ('t' :: s.flatMap Json.escape) = some w ∧ q = a.length + w.length

/-- The assignment from `p.1` to `p.2` is spelled in the literal as it stands, and no
assignment that begins at a tab's code ends inside it. -/
structure Unhidden (u : Str) (p : ℕ × ℕ) : Prop where
  plain : ∀ c ∈ (u.take p.2).drop p.1, Json.escape c = [c]
  unbroken : ∀ q, TabEnd u q → ¬ (p.1 < q ∧ q < p.2)

/-- Where the third pattern matches in what the first two leave of a string, it
matches in the literal. -/
def Redactable (v : Str) : Prop :=
  ∀ p ∈ spans genericAssignment 0 0 (withoutKeys id "[REDACTED]".toList v),
    Unhidden (withoutKeys id "[REDACTED]".toList v) p

/-- The words of a match that is not hidden. -/
theorem Unhidden.word {u before w rest : Str} (hu : u = before ++ (w ++ rest))
    (h : Unhidden u (before.length, before.length + w.length)) : ∀ c ∈ w, Json.escape c = [c] := by
  intro c hc
  refine h.plain c ?_
  have hslice : (u.take (before.length + w.length)).drop before.length = w := by
    rw [hu, ← List.append_assoc, ← List.length_append, List.take_left, List.drop_left]
  rw [hslice]
  exact hc

theorem find_generic_escape (t : Str) : genericAssignment.find ('\\' :: t) = none :=
  finds_generic.find_eq_none (fun _ hw => hw.not_barrier (by decide) List.mem_cons_self) t

theorem not_mem_escape (w : Str) (hw : IsGeneric w) : '\\' ∉ w := hw.not_barrier (by decide)

/-- The letters of a match in the literal stand for themselves. -/
theorem take_plain {x : Char × Option ℕ} {xs : Labelled} {w : Str}
    (h : genericAssignment.find ((x :: xs.flatMap (encode Json.escape)).map Prod.fst) = some w) :
    ∀ x ∈ xs.take (w.length - 1), Json.escape x.1 = [x.1] := by
  rw [List.map_cons, map_encode] at h
  obtain ⟨hw, r, hsplit, _⟩ := finds_generic.find_iff.mp h
  cases w with
  | nil => exact absurd rfl (genericAssignment.ne_nil h)
  | cons d w =>
    have hrest : (xs.map Prod.fst).flatMap Json.escape = w ++ r := (List.cons.inj hsplit).2
    have hesc : '\\' ∉ w := fun hin => not_mem_escape _ hw (List.mem_cons_of_mem d hin)
    obtain ⟨t, ht, _, hplain⟩ := escaping.split hesc hrest
    intro y hy
    refine hplain y.1 ?_
    have htake : (xs.take w.length).map Prod.fst = w := by
      rw [List.map_take, ht, List.take_left]
    rw [← htake]
    exact List.mem_map_of_mem hy

/-- The scans of a string and of its literal side by side: the scan of the literal
drops no fewer letters, and those beyond the match of the string belong to a match
that begins at a tab. -/
theorem shown_of_literal {u : Str} {i : ℕ} {xs : Labelled} : ∀ {before : Str} {k l : ℕ},
    u = before ++ xs.map Prod.fst → k ≤ l → (l = k ∨ TabEnd u (before.length + l)) →
    (∀ x ∈ xs.take l, Json.escape x.1 = [x.1]) →
    (∀ p ∈ spans genericAssignment k before.length (xs.map Prod.fst), Unhidden u p) →
    Shown i (sub genericAssignment Prod.fst marker l (xs.flatMap (encode Json.escape))) →
    Shown i (sub genericAssignment Prod.fst marker k xs) := by
  induction xs with
  | nil =>
    intro before k l _ _ _ _ _ h
    cases l <;> exact absurd h (by simp [sub, Shown])
  | cons x xs ih =>
    intro before k l hu hkl hend htake hspans h
    have hu' : u = (before ++ [x.1]) ++ xs.map Prod.fst := by simpa using hu
    have hlength : (before ++ [x.1]).length = before.length + 1 := by simp
    cases l with
    | succ l =>
      have hplain : Json.escape x.1 = [x.1] := htake x (by simp)
      have htake' : ∀ y ∈ xs.take l, Json.escape y.1 = [y.1] := fun y hy => htake y (by simp [hy])
      rw [List.flatMap_cons, encode_plain hplain, List.singleton_append, sub] at h
      have hend' : l + 1 = k ∨ TabEnd u ((before ++ [x.1]).length + l) :=
        hend.imp_right fun h => by rwa [hlength, Nat.add_right_comm]
      cases k with
      | succ k =>
        exact ih hu' (by omega) (hend'.imp_left fun h => by omega) htake' (by rwa [hlength]) h
      | zero =>
        have htab := hend'.resolve_left (by omega)
        cases hfind : genericAssignment.find ((x :: xs).map Prod.fst) with
        | none =>
          rw [List.map_cons, spans_none (by simpa using hfind), ← hlength] at hspans
          rw [sub_none hfind, shown_cons]
          exact .inr (ih hu' (by omega) (.inr htab) htake' hspans h)
        | some w =>
          rw [List.map_cons, spans_some (by simpa using hfind), ← hlength] at hspans
          -- the match of the string ends where the match from the tab does, at the latest
          have hle : w.length - 1 ≤ l := by
            by_contra hlt
            refine (hspans _ List.mem_cons_self).unbroken _ htab ⟨?_, ?_⟩
            · dsimp only
              omega
            · dsimp only
              omega
          rw [sub_some hfind, shown_append]
          exact .inr (ih hu' hle (.inr htab) htake' (fun p hp => hspans p (.tail _ hp)) h)
    | zero =>
      obtain rfl : k = 0 := by omega
      have hnil : ∀ y ∈ xs.take 0, Json.escape y.1 = [y.1] := by simp
      by_cases hx : Json.escape x.1 = [x.1]
      · have hletters : (x :: xs.flatMap (encode Json.escape)).map Prod.fst =
            ((x :: xs).map Prod.fst).flatMap Json.escape := by
          rw [← map_encode, List.flatMap_cons, encode_plain hx, List.singleton_append]
        rw [List.flatMap_cons, encode_plain hx, List.singleton_append] at h
        cases hfind : genericAssignment.find ((x :: xs).map Prod.fst) with
        | some w =>
          obtain ⟨r, hr⟩ := genericAssignment.isPrefix hfind
          rw [List.map_cons, spans_some (by simpa using hfind), ← hlength] at hspans
          have hw := (hspans _ List.mem_cons_self).word (hu.trans (by rw [← hr]))
          have hcoded := finds_generic.enc_of_find escaping (by decide) hfind hw
          rw [sub_some (hletters ▸ hcoded), shown_append] at h
          rw [sub_some hfind, shown_append]
          exact .inr (ih hu' le_rfl (.inl rfl) (fun y hy => hw _ (mem_of_mem_take hfind hy))
            (fun p hp => hspans p (.tail _ hp)) (h.resolve_left not_shown_marker))
        | none =>
          have hcoded : genericAssignment.find
              (((x :: xs).map Prod.fst).flatMap Json.escape) = none := by
            refine Option.eq_none_iff_forall_ne_some.mpr fun w hw => ?_
            obtain ⟨_, z, hz⟩ := finds_generic.find_of_enc escaping not_mem_escape hw
            rw [hfind] at hz
            simp at hz
          rw [List.map_cons, spans_none (by simpa using hfind), ← hlength] at hspans
          rw [sub_none (hletters ▸ hcoded), shown_cons] at h
          rw [sub_none hfind, shown_cons]
          exact h.imp_right (ih hu' le_rfl (.inl rfl) hnil hspans)
      · -- no match of the string begins here, since it would not be spelled as it stands
        have hfind : genericAssignment.find ((x :: xs).map Prod.fst) = none := by
          refine Option.eq_none_iff_forall_ne_some.mpr fun w hw => hx ?_
          obtain ⟨r, hr⟩ := genericAssignment.isPrefix hw
          rw [List.map_cons, spans_some (by simpa using hw)] at hspans
          refine (hspans _ List.mem_cons_self).word (hu.trans (by rw [← hr])) _ ?_
          cases w with
          | nil => exact absurd rfl (genericAssignment.ne_nil hw)
          | cons d w =>
            rw [(List.cons.inj hr).1]
            exact List.mem_cons_self
        rw [List.map_cons, spans_none (by simpa using hfind), ← hlength] at hspans
        rw [sub_none hfind, shown_cons]
        by_cases htab : x.1 = '\t'
        · have hcode : encode Json.escape x = [('\\', x.2), ('t', x.2)] := by
            rw [encode, htab]
            rfl
          rw [List.flatMap_cons, hcode, List.cons_append, List.cons_append, List.nil_append,
            sub_none (by simpa using find_generic_escape _), shown_cons] at h
          obtain h | h := h
          · exact .inl h
          cases hcoded : genericAssignment.find
              ((('t', x.2) :: xs.flatMap (encode Json.escape)).map Prod.fst) with
          | none =>
            rw [sub_none hcoded, shown_cons] at h
            exact h.imp_right (ih hu' le_rfl (.inl rfl) hnil hspans)
          | some w =>
            have htab' : TabEnd u ((before ++ [x.1]).length + (w.length - 1)) := by
              have hpos := (Matcher.length_le hcoded).1
              refine ⟨before, xs.map Prod.fst, w, by rw [hu, List.map_cons, htab], ?_, ?_⟩
              · rwa [List.map_cons, map_encode] at hcoded
              · omega
            rw [sub_some hcoded, shown_append] at h
            exact .inr (ih hu' (Nat.zero_le _) (.inr htab') (take_plain hcoded) hspans
              (h.resolve_left not_shown_marker))
        · have hinert : sub genericAssignment Prod.fst marker 0
              (encode Json.escape x ++ xs.flatMap (encode Json.escape)) = encode Json.escape x ++
                sub genericAssignment Prod.fst marker 0 (xs.flatMap (encode Json.escape)) :=
            sub_coded fun a d b hab =>
              finds_generic.find_eq_none (code_generic hx (by rw [hab]; simp) htab) _
          rw [List.flatMap_cons, hinert, shown_append] at h
          refine h.imp (fun hcode => ?_) (ih hu' le_rfl (.inl rfl) hnil hspans)
          obtain ⟨c, hc⟩ := hcode
          obtain ⟨_, _, heq⟩ := List.mem_map.mp hc
          exact (Prod.mk.inj heq).2

/-! ## The exact condition -/

/-- The characters of a string are told apart by their labels. -/
def Distinct (xs : Labelled) : Prop := xs.Pairwise fun x y => ∀ i, x.2 = some i → y.2 ≠ some i

theorem map_label (v : Str) : (label v).map Prod.fst = v := by
  rw [label, List.map_map]
  exact List.zipIdx_map_fst 0 v

theorem distinct_label (v : Str) : Distinct (label v) := by
  have hnodup : (v.zipIdx.map Prod.snd).Nodup := by
    rw [List.zipIdx_map_snd]
    exact List.nodup_range'
  rw [List.Nodup, List.pairwise_map] at hnodup
  rw [Distinct, label, List.pairwise_map]
  refine hnodup.imp fun hne i hx hy => hne ?_
  exact (Option.some.inj hx).trans (Option.some.inj hy).symm

theorem Distinct.sub {p : Matcher Char} {xs : Labelled} (h : Distinct xs) :
    Distinct (sub p Prod.fst marker 0 xs) := by
  have hmark : ∀ x ∈ marker, x.2.isSome = false := fun x hx => by simp [label_of_mem_marker hx]
  have hkept := (h.filter fun x => x.2.isSome).sublist
    (sub_sublist (M := p) (f := Prod.fst) (q := fun x => x.2.isSome) hmark xs 0)
  rw [List.pairwise_filter] at hkept
  refine hkept.imp fun {x y} hxy i hx hy => ?_
  exact hxy (by simp [hx]) (by simp [hy]) i hx hy

theorem Distinct.index {xs : Labelled} (h : Distinct xs) {i j k : ℕ} {x y : Char × Option ℕ}
    (hx : xs[j]? = some x) (hy : xs[k]? = some y) (hxi : x.2 = some i) (hyi : y.2 = some i) :
    j = k := by
  obtain ⟨hj, rfl⟩ := List.getElem?_eq_some_iff.mp hx
  obtain ⟨hk, rfl⟩ := List.getElem?_eq_some_iff.mp hy
  have hpair := List.pairwise_iff_getElem.mp h
  rcases Nat.lt_trichotomy j k with hlt | heq | hlt
  · exact absurd hyi (hpair j k hj hk hlt i hxi)
  · exact heq
  · exact absurd hxi (hpair k j hk hj hlt i hyi)

/-- What the scan of a text drops is not shown. -/
theorem not_shown_of_mem_spans {xs : Labelled} (hxs : Distinct xs) {p : ℕ × ℕ}
    (hp : p ∈ spans genericAssignment 0 0 (xs.map Prod.fst)) {j i : ℕ} {x : Char × Option ℕ}
    (hj : p.1 ≤ j ∧ j < p.2) (hx : xs[j]? = some x) (hi : x.2 = some i) :
    ¬ Shown i (sub genericAssignment Prod.fst marker 0 xs) := by
  rintro ⟨c, hc⟩
  have hmark : (c, some i) ∉ marker := fun hin => by simpa using label_of_mem_marker hin
  obtain ⟨r, hr, _, hout⟩ := mem_sub (i := 0) hmark hc
  obtain rfl : r = j := hxs.index hr hx rfl hi
  exact hout p hp (by omega)

theorem stops_generic_escape (t : Str) : Stops genericAssignment ('\\' :: t) := by
  refine finds_generic.stops (fun c hc => ?_) fun a z hw hz => ?_
  · obtain rfl : '\\' = c := by simpa using hc
    decide
  · cases z with
    | nil => rfl
    | cons d z =>
      obtain ⟨r, hr⟩ := hz
      obtain rfl : d = '\\' := (List.cons.inj hr).1
      exact absurd (by simp) (not_mem_escape _ hw)

/-- A letter that is part of no value begins no assignment. -/
theorem find_generic_eq_none {c : Char} (h : isValueChar c = false) (s : Str) :
    genericAssignment.find (c :: s) = none := by
  refine finds_generic.find_eq_none (fun w hw => ?_) s
  obtain ⟨d, t, ht, hd⟩ := hw.head
  obtain rfl : c = d := (List.cons.inj ht).1
  have hletter : ∀ e ∈ ['k', 't', 'p', 's'], isAlphanumeric e = true := by decide
  simp [isValueChar, hletter _ hd] at h

/-- The letter at which an assignment from a tab's code ends is shown by the literal,
if it is spelled as it stands. -/
theorem shown_of_tabEnd {U : Labelled} {q : ℕ} (hq : TabEnd (U.map Prod.fst) q)
    {x : Char × Option ℕ} (hx : U[q]? = some x) (hplain : Json.escape x.1 = [x.1]) :
    isValueChar x.1 = false ∧
      x ∈ sub genericAssignment Prod.fst marker 0 (U.flatMap (encode Json.escape)) := by
  obtain ⟨a, s, w, hu, hfind, rfl⟩ := hq
  obtain ⟨A, B, rfl, rfl, hB⟩ := List.map_eq_append_iff.mp hu
  obtain ⟨T, S, rfl, hT, rfl⟩ := List.map_eq_cons_iff.mp hB
  obtain ⟨hw, r, hsplit, hr⟩ := finds_generic.find_iff.mp hfind
  obtain ⟨w, rfl⟩ : ∃ w', w = 't' :: w' := by
    cases w with
    | nil => exact absurd rfl (genericAssignment.ne_nil hfind)
    | cons d w => exact ⟨w, by rw [(List.cons.inj hsplit).1]⟩
  have hrest : (S.map Prod.fst).flatMap Json.escape = w ++ r := (List.cons.inj hsplit).2
  have hesc : '\\' ∉ w := fun hin => not_mem_escape _ hw (List.mem_cons_of_mem _ hin)
  obtain ⟨t, hS, rfl, hwplain⟩ := escaping.split hesc hrest
  obtain ⟨S₁, S₂, rfl, rfl, rfl⟩ := List.map_eq_append_iff.mp hS
  -- the letter in question is the first one behind the match
  obtain ⟨S₃, rfl⟩ : ∃ S₃, S₂ = x :: S₃ := by
    have hindex : (A.map Prod.fst).length + ('t' :: S₁.map Prod.fst).length =
        (A ++ T :: S₁).length := by simp
    have hassoc : A ++ T :: (S₁ ++ S₂) = (A ++ T :: S₁) ++ S₂ := by simp
    rw [hindex, hassoc, List.getElem?_append_right le_rfl, Nat.sub_self] at hx
    cases S₂ with
    | nil => simp at hx
    | cons y S₃ => exact ⟨S₃, by rw [Option.some.inj (show some y = some x from hx)]⟩
  have hvalue : isValueChar x.1 = false := by
    refine hr x.1 ?_
    rw [List.map_cons, List.flatMap_cons, hplain]
    rfl
  refine ⟨hvalue, ?_⟩
  have hcode : encode Json.escape T = [('\\', T.2), ('t', T.2)] := by
    rw [encode, hT]
    rfl
  have hS₁ : S₁.flatMap (encode Json.escape) = S₁ :=
    flatMap_encode_plain fun y hy => hwplain _ (List.mem_map_of_mem hy)
  have htext : (A ++ T :: (S₁ ++ x :: S₃)).flatMap (encode Json.escape) =
      A.flatMap (encode Json.escape) ++ ('\\', T.2) :: ('t', T.2) ::
        (S₁ ++ x :: S₃.flatMap (encode Json.escape)) := by
    simp [List.flatMap_append, hcode, hS₁, encode_plain hplain]
  have hfind' : genericAssignment.find
      ((('t', T.2) :: (S₁ ++ x :: S₃.flatMap (encode Json.escape))).map Prod.fst) =
        some ('t' :: S₁.map Prod.fst) := by
    have hletters : (('t', T.2) :: (S₁ ++ x :: S₃.flatMap (encode Json.escape))).map Prod.fst =
        't' :: ((S₁ ++ x :: S₃).map Prod.fst).flatMap Json.escape := by
      rw [List.map_cons, ← map_encode, List.flatMap_append, hS₁, List.flatMap_cons,
        encode_plain hplain, List.singleton_append]
    rw [hletters]
    exact hfind
  rw [htext, sub_append (by simpa using stops_generic_escape _) (Nat.zero_le _),
    sub_none (by simpa using find_generic_escape _), sub_some hfind']
  have hskip : ('t' :: S₁.map Prod.fst).length - 1 = S₁.length := by simp
  rw [hskip, sub_skip, sub_none (by simpa using find_generic_eq_none hvalue _)]
  simp

theorem label_of_mem {v : Str} {x : Char × Option ℕ} (h : x ∈ label v) : ∃ i, x.2 = some i := by
  obtain ⟨y, _, rfl⟩ := List.mem_map.mp h
  exact ⟨y.2, rfl⟩

theorem mem_withoutKeys {xs : Labelled} {x : Char × Option ℕ}
    (h : x ∈ withoutKeys Prod.fst marker xs) : x ∈ marker ∨ x ∈ xs :=
  (mem_of_mem_sub h).elim .inl mem_of_mem_sub

/-- A literal shows no character that redacting the string would take away, exactly
if the string is redactable. -/
theorem literal_shows_iff (v : Str) :
    (∀ i, Shown i (scrub Prod.fst marker ((label v).flatMap (encode Json.escape))) →
      Shown i (scrub Prod.fst marker (label v))) ↔ Redactable v := by
  have htext : withoutKeys id "[REDACTED]".toList v =
      (withoutKeys Prod.fst marker (label v)).map Prod.fst := by rw [map_withoutKeys, map_label]
  simp only [Redactable, htext, scrub_eq, withoutKeys_encode]
  have hdistinct : Distinct (withoutKeys Prod.fst marker (label v)) :=
    (distinct_label v).sub.sub
  have hlabel : ∀ x ∈ withoutKeys Prod.fst marker (label v), x ∈ marker ∨ ∃ i, x.2 = some i :=
    fun x hx => (mem_withoutKeys hx).imp_right label_of_mem
  generalize withoutKeys Prod.fst marker (label v) = U at *
  constructor
  · intro h p hp
    obtain ⟨a, w, b, hu, hw, rfl⟩ := word_of_mem_spans hp
    rw [Nat.zero_add] at hp ⊢
    -- what the literal shows of the match cannot stem from the string
    have hlost : ∀ {j : ℕ} {x : Char × Option ℕ} {c : Char}, a.length ≤ j ∧ j < a.length + w.length →
        U[j]? = some x → (c, x.2) ∈ sub genericAssignment Prod.fst marker 0
          (U.flatMap (encode Json.escape)) → x ∈ marker := by
      intro j x c hj hx hc
      refine (hlabel x (List.mem_of_getElem? hx)).resolve_right ?_
      rintro ⟨i, hi⟩
      exact not_shown_of_mem_spans hdistinct hp hj hx hi (h i ⟨c, hi ▸ hc⟩)
    have hletter : ∀ {j : ℕ} {x : Char × Option ℕ}, a.length ≤ j ∧ j < a.length + w.length →
        U[j]? = some x → x.1 ∈ w := by
      intro j x hj hx
      have hux : (U.map Prod.fst)[j]? = some x.1 := by rw [List.getElem?_map, hx]; rfl
      rw [hu, List.getElem?_append_right hj.1, List.getElem?_append_left (by omega)] at hux
      exact List.mem_of_getElem? hux
    have hplain : ∀ {j : ℕ} {x : Char × Option ℕ}, a.length ≤ j ∧ j < a.length + w.length →
        U[j]? = some x → Json.escape x.1 = [x.1] := by
      intro j x hj hx
      by_contra hcoded
      obtain ⟨t, ht⟩ := escaping.code hcoded
      have hin : ('\\', x.2) ∈ U.flatMap (encode Json.escape) :=
        List.mem_flatMap.mpr ⟨x, List.mem_of_getElem? hx, by simp [encode, ht]⟩
      have hkept : ('\\', x.2) ∈ sub genericAssignment Prod.fst marker 0
          (U.flatMap (encode Json.escape)) :=
        mem_sub_of_unmatched (f := Prod.fst) (k := 0)
          (fun hfind => not_mem_escape _ (finds_generic.find_iff.mp hfind).1) hin
      exact hcoded (marker_plain x (hlost hj hx hkept))
    refine ⟨fun c hc => ?_, fun q hq hin => ?_⟩
    · have hslice : ((U.map Prod.fst).take (a.length + w.length)).drop a.length = w := by
        rw [hu, ← List.append_assoc, ← List.length_append, List.take_left, List.drop_left]
      rw [hslice] at hc
      obtain ⟨n, hn⟩ := List.mem_iff_getElem?.mp hc
      obtain ⟨hlt, _⟩ := List.getElem?_eq_some_iff.mp hn
      have hux : (U.map Prod.fst)[a.length + n]? = some c := by
        rw [hu, List.getElem?_append_right (by omega), List.getElem?_append_left (by omega)]
        simpa using hn
      rw [List.getElem?_map] at hux
      obtain ⟨x, hx, rfl⟩ := Option.map_eq_some_iff.mp hux
      exact hplain ⟨by omega, by omega⟩ hx
    · dsimp only at hin
      have hlt : q < U.length := by
        have hlen := congrArg List.length hu
        simp only [List.length_map, List.length_append] at hlen
        omega
      have hx := List.getElem?_eq_getElem hlt
      obtain ⟨hvalue, hkept⟩ := shown_of_tabEnd hq hx (hplain ⟨by omega, by omega⟩ hx)
      have hmark := hlost ⟨by omega, by omega⟩ hx hkept
      have hin' := hletter ⟨by omega, by omega⟩ hx
      have hletters : ∀ y ∈ marker, isValueChar y.1 = true ∨ isBarrier y.1 = true := by decide
      obtain hval | hbar := hletters _ hmark
      · rw [hval] at hvalue
        exact Bool.noConfusion hvalue
      · exact (finds_generic.find_iff.mp hw).1.not_barrier hbar hin'
  · intro h i hi
    exact shown_of_literal (List.nil_append _).symm le_rfl (.inl rfl) (by simp) h hi

end AegisCode.Redactor
