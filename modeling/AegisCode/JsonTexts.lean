import AegisCode.JsonDecoder

/-!
# Texts of a JSON value

A text of a value is its tokens with white space between them; `dumps` is one of
them. The decoder reads each of them back as that value.
-/
namespace AegisCode.Json

mutual
def tokens : Json → List Str
  | .arr xs => "[" :: elemTokens xs
  | .obj ms => ['{'] :: memberTokens ms
  | .null => [dumps .null]
  | .bool b => [dumps (.bool b)]
  | .int n => [dumps (.int n)]
  | .float f => [dumps (.float f)]
  | .str s => [dumps (.str s)]

def elemTokens : List Json → List Str
  | [] => ["]"]
  | [x] => tokens x ++ ["]".toList]
  | x :: xs => tokens x ++ ",".toList :: elemTokens xs

def memberTokens : List (Str × Json) → List Str
  | [] => [['}']]
  | [(k, v)] => quote k :: ":".toList :: (tokens v ++ [['}']])
  | (k, v) :: ms => quote k :: ":".toList :: (tokens v ++ ",".toList :: memberTokens ms)
end

/-- The tokens in order, with white space between them. -/
inductive Spread : List Str → Str → Prop
  | one (t : Str) : Spread [t] t
  | cons {t w s : Str} {ts : List Str} :
      Blank w → Spread ts s → Spread (t :: ts) (t ++ (w ++ s))

def IsFrac (frac : Str) : Prop :=
  frac = [] ∨ ∃ ds, ds ≠ [] ∧ (∀ c ∈ ds, c.isDigit = true) ∧ frac = '.' :: ds

def IsExp (exp : Str) : Prop :=
  exp = [] ∨ ∃ e sign ds, (e = 'e' ∨ e = 'E') ∧ (sign = [] ∨ sign = "+".toList ∨ sign = "-".toList) ∧
    ds ≠ [] ∧ (∀ c ∈ ds, c.isDigit = true) ∧ exp = e :: (sign ++ ds)

/-- The text of a finite float: a number with a fraction or an exponent. -/
def IsFinite (text : Str) : Prop :=
  ∃ negative n frac exp, IsFrac frac ∧ IsExp exp ∧ ¬(frac = [] ∧ exp = []) ∧
    text = signText negative ++ Nat.toDigits 10 n ++ frac ++ exp

/-- The literal is a float: it is read back from the text it prints as. -/
def IsFloat (D : Decoder) (f : FloatLit) : Prop :=
  f = nan ∨ f = infinity ∨ f = negInfinity ∨ (IsFinite f.text ∧ D.float f.text = f)

mutual
/-- The value can occur in the program: its floats are floats, its integers have no
more digits than are read and printed, and no object has a key twice. -/
def Proper (D : Decoder) : Json → Prop
  | .float f => IsFloat D f
  | .arr xs => ProperElems D xs
  | .obj ms => (ms.map Prod.fst).Nodup ∧ ProperMembers D ms
  | .null => True
  | .bool _ => True
  | .int n => (Nat.toDigits 10 n.natAbs).length ≤ maxStrDigits
  | .str _ => True

def ProperElems (D : Decoder) : List Json → Prop
  | [] => True
  | x :: xs => Proper D x ∧ ProperElems D xs

def ProperMembers (D : Decoder) : List (Str × Json) → Prop
  | [] => True
  | (_, v) :: ms => Proper D v ∧ ProperMembers D ms
end

mutual
/-- The numbers of the value can be read back; an object may have a key twice. -/
def Readable (D : Decoder) : Json → Prop
  | .float f => IsFloat D f
  | .arr xs => ReadableElems D xs
  | .obj ms => ReadableMembers D ms
  | .null => True
  | .bool _ => True
  | .int n => (Nat.toDigits 10 n.natAbs).length ≤ maxStrDigits
  | .str _ => True

def ReadableElems (D : Decoder) : List Json → Prop
  | [] => True
  | x :: xs => Readable D x ∧ ReadableElems D xs

def ReadableMembers (D : Decoder) : List (Str × Json) → Prop
  | [] => True
  | (_, v) :: ms => Readable D v ∧ ReadableMembers D ms
end

mutual
/-- What a text of the value is read as: the last of the members with a key counts. -/
def decoded : Json → Json
  | .arr xs => .arr (decodedElems xs)
  | .obj ms => .obj (dictOf (decodedMembers ms))
  | .null => .null
  | .bool b => .bool b
  | .int n => .int n
  | .float f => .float f
  | .str s => .str s

def decodedElems : List Json → List Json
  | [] => []
  | x :: xs => decoded x :: decodedElems xs

def decodedMembers : List (Str × Json) → List (Str × Json)
  | [] => []
  | (k, v) :: ms => (k, decoded v) :: decodedMembers ms
end

variable {D : Decoder}

/-! ## Reading strings back -/

theorem hexDigitVal_hexDigit : ∀ n < 16, hexDigitVal (hexDigit n) = some n := by decide

theorem decodeUXXXX_hex4 {n : ℕ} (h : n < 0x10000) (t : Str) :
    decodeUXXXX (hex4 n ++ t) = some (n, t) := by
  have hval : n / 4096 % 16 * 4096 + n / 256 % 16 * 256 + n / 16 % 16 * 16 + n % 16 = n := by omega
  simp only [hex4, List.cons_append, List.nil_append, decodeUXXXX,
    hexDigitVal_hexDigit _ (Nat.mod_lt _ (by decide : 0 < 16))]
  show some _ = _
  rw [hval]

theorem scanChar_unicode {n : ℕ} (h : n < 0x10000) (hs : ¬(0xd800 ≤ n ∧ n < 0xe000)) (t : Str) :
    scanChar D (unicodeEscape n ++ t) = some (Char.ofNat n, t) := by
  have hhigh : isHighSurrogate n = false := by
    simp only [isHighSurrogate, decide_eq_false_iff_not]
    omega
  have hlow : isLowSurrogate n = false := by
    simp only [isLowSurrogate, decide_eq_false_iff_not]
    omega
  simp only [unicodeEscape, List.cons_append, scanChar, decodeUXXXX_hex4 h]
  simp [charOf, hhigh, hlow]

theorem scanChar_surrogates {n m : ℕ} (hn : 0xd800 ≤ n ∧ n < 0xdc00) (hm : 0xdc00 ≤ m ∧ m < 0xe000)
    (t : Str) : scanChar D (unicodeEscape n ++ (unicodeEscape m ++ t)) =
      some (Char.ofNat (0x10000 + (n - 0xd800) * 0x400 + (m - 0xdc00)), t) := by
  have hhigh : isHighSurrogate n = true := by simpa [isHighSurrogate] using hn
  have hlow : isLowSurrogate m = true := by simpa [isLowSurrogate] using hm
  have hn' : n < 0x10000 := by omega
  have hm' : m < 0x10000 := by omega
  simp only [unicodeEscape, List.cons_append, scanChar, decodeUXXXX_hex4 hn', decodeUXXXX_hex4 hm',
    hhigh, hlow, if_true]

theorem toNat_not_surrogate (c : Char) : ¬(0xd800 ≤ c.toNat ∧ c.toNat < 0xe000) := by
  rcases c.valid with h | ⟨h, _⟩ <;> simp only [Char.toNat] <;> omega

/-- The escape of a character is read as that character, whatever follows. -/
theorem scanChar_escape (c : Char) (t : Str) : scanChar D (escape c ++ t) = some (c, t) := by
  have hof : Char.ofNat c.toNat = c := Char.ofNat_toNat c
  have hsur := toNat_not_surrogate c
  unfold escape
  split
  · subst c; rfl
  split
  · subst c; rfl
  split
  · subst c; rfl
  split
  · subst c; rfl
  split
  · subst c; rfl
  split
  · rename_i h
    rw [← hof, h]
    rfl
  split
  · rename_i h
    rw [← hof, h]
    rfl
  split
  · rename_i hq hb _ _ _ _ _ h
    exact scanChar_plain h.1 hq hb t
  split
  · rename_i h
    rw [scanChar_unicode h hsur, hof]
  · have hlt := toNat_lt c
    rw [List.append_assoc, scanChar_surrogates ⟨by omega, by omega⟩ ⟨by omega, by omega⟩]
    rw [show 0x10000 + (0xd800 + (c.toNat - 0x10000) / 0x400 - 0xd800) * 0x400 +
      (0xdc00 + (c.toNat - 0x10000) % 0x400 - 0xdc00) = c.toNat by omega, hof]

theorem scanString_escapes (s r : Str) : ∀ {n : ℕ}, s.length < n →
    scanString D n (s.flatMap escape ++ '"' :: r) = some (s, r) := by
  induction s with
  | nil =>
    intro n hn
    obtain ⟨n, rfl⟩ := Nat.exists_eq_succ_of_ne_zero (by omega : n ≠ 0)
    rfl
  | cons c s ih =>
    intro n hn
    obtain ⟨n, rfl⟩ := Nat.exists_eq_succ_of_ne_zero (by omega : n ≠ 0)
    obtain ⟨d, t, hd, hne⟩ := escape_head c
    have hread : scanChar D (escape c ++ (s.flatMap escape ++ '"' :: r)) =
        some (c, s.flatMap escape ++ '"' :: r) := scanChar_escape c _
    rw [hd, List.cons_append] at hread
    simp only [List.flatMap_cons, List.append_assoc, hd, List.cons_append, scanString]
    split
    · rename_i heq
      exact absurd (List.cons.inj heq).1 hne
    · rw [hread]
      simp only [Option.bind_eq_bind, Option.bind_some, ih (by simpa using hn)]
      rfl

/-! ## Reading numbers back -/

/-- A positive number is not written with a leading zero. -/
theorem toDigits_head {n : ℕ} (h : 0 < n) : ∃ c t, Nat.toDigits 10 n = c :: t ∧ c ≠ '0' := by
  induction n using Nat.strong_induction_on with
  | _ n ih =>
    by_cases hlt : n < 10
    · refine ⟨_, [], Nat.toDigits_of_lt_base hlt, ?_⟩
      interval_cases n <;> decide
    · obtain ⟨c, t, hct, hc⟩ := ih (n / 10) (by omega) (by omega)
      refine ⟨c, t ++ [(n % 10).digitChar], ?_, hc⟩
      rw [Nat.toDigits_of_base_le (by decide) (by omega), hct, List.cons_append]

theorem intPart_toDigits (n : ℕ) {r : Str} (hr : ∀ c ∈ r.head?, c.isDigit = false) :
    intPart (Nat.toDigits 10 n ++ r) = some (Nat.toDigits 10 n, r) := by
  rcases Nat.eq_zero_or_pos n with rfl | hpos
  · rfl
  · obtain ⟨c, t, hct, hc⟩ := toDigits_head hpos
    have hdigits := digits_spec n
    rw [hct] at hdigits ⊢
    have hcd : c.isDigit = true := hdigits c (by simp)
    have hspan := span_append hdigits hr
    rw [List.cons_append] at hspan ⊢
    rw [intPart.eq_def]
    split
    · rename_i heq
      exact absurd (List.cons.inj heq).1 hc
    · rename_i heq
      obtain ⟨rfl, rfl⟩ := List.cons.inj heq
      rw [if_pos hcd, hspan]
    · rename_i heq
      exact absurd heq (List.cons_ne_nil _ _)

theorem fracPart_append {frac r : Str} (hfrac : IsFrac frac)
    (hr : ∀ c ∈ r.head?, c.isDigit = false ∧ c ≠ '.') : fracPart (frac ++ r) = (frac, r) := by
  rcases hfrac with rfl | ⟨ds, hne, hds, rfl⟩
  · rw [List.nil_append, fracPart.eq_def]
    split
    · exact absurd rfl (hr '.' rfl).2
    · rfl
  · obtain ⟨d, ds, rfl⟩ := List.exists_cons_of_ne_nil hne
    have hspan := span_append hds fun c hc => (hr c hc).1
    simp only [List.cons_append] at hspan ⊢
    simp only [fracPart, hspan]

theorem signPart_append {sign ds r : Str} (hne : ds ≠ []) (hds : ∀ c ∈ ds, c.isDigit = true)
    (hsign : sign = [] ∨ sign = "+".toList ∨ sign = "-".toList) :
    signPart (sign ++ ds ++ r) = (sign, ds ++ r) := by
  rcases hsign with rfl | rfl | rfl
  · obtain ⟨d, ds, rfl⟩ := List.exists_cons_of_ne_nil hne
    have hd : d.isDigit = true := hds d (by simp)
    rw [List.nil_append, List.cons_append, signPart.eq_def]
    split
    · rename_i heq
      rw [(List.cons.inj heq).1] at hd
      exact absurd hd (by decide)
    · rename_i heq
      rw [(List.cons.inj heq).1] at hd
      exact absurd hd (by decide)
    · rfl
  · rfl
  · rfl

theorem expPart_append {exp r : Str} (hexp : IsExp exp) (hr : Delimited r) :
    expPart (exp ++ r) = (exp, r) := by
  rcases hexp with rfl | ⟨e, sign, ds, he, hsign, hne, hds, rfl⟩
  · cases r with
    | nil => rfl
    | cons c r =>
      have hc : ¬(c = 'e' ∨ c = 'E') := by
        rintro (rfl | rfl)
        · exact hr.ne (by decide) r rfl
        · exact hr.ne (by decide) r rfl
      rw [List.nil_append, expPart, if_neg hc]
  · have hspan := span_append hds hr.not_digit
    rw [List.cons_append, expPart, if_pos he, signPart_append hne hds hsign]
    simp only [hspan]

theorem IsExp.head {exp r : Str} (hexp : IsExp exp) (hr : Delimited r) :
    ∀ c ∈ (exp ++ r).head?, c.isDigit = false ∧ c ≠ '.' := by
  intro c hc
  rcases hexp with rfl | ⟨e, sign, ds, he, _, _, _, rfl⟩
  · refine ⟨hr.not_digit c hc, ?_⟩
    rintro rfl
    have h := hr '.' hc
    exact absurd h (by decide)
  · obtain rfl : e = c := by simpa using hc
    rcases he with rfl | rfl <;> decide

theorem IsFrac.head {frac r : Str} (hfrac : IsFrac frac)
    (hr : ∀ c ∈ r.head?, c.isDigit = false ∧ c ≠ '.') :
    ∀ c ∈ (frac ++ r).head?, c.isDigit = false := by
  intro c hc
  rcases hfrac with rfl | ⟨ds, _, _, rfl⟩
  · exact (hr c hc).1
  · obtain rfl : '.' = c := by simpa using hc
    decide

/-- A number is read up to its end. -/
theorem scanUnsigned_append (negative : Bool) (n : ℕ) {frac exp r : Str} (hfrac : IsFrac frac)
    (hexp : IsExp exp) (hr : Delimited r) :
    scanUnsigned D negative (Nat.toDigits 10 n ++ (frac ++ (exp ++ r))) =
      if frac = [] ∧ exp = [] then
        if (Nat.toDigits 10 n).length ≤ maxStrDigits then
          some (.int (intOf negative (Nat.toDigits 10 n)), r)
        else none
      else some (.float (D.float (signText negative ++ Nat.toDigits 10 n ++ frac ++ exp)), r) := by
  have hexpHead := hexp.head hr
  have hint := intPart_toDigits n (hfrac.head hexpHead)
  simp only [scanUnsigned, hint, fracPart_append hfrac hexpHead, expPart_append hexp hr]

theorem scanAtom_digits (negative : Bool) (n : ℕ) (r : Str) :
    scanAtom D (signText negative ++ Nat.toDigits 10 n ++ r) =
      scanUnsigned D negative (Nat.toDigits 10 n ++ r) := by
  obtain ⟨c, t, hct⟩ := List.exists_cons_of_ne_nil (Nat.toDigits_ne_nil (n := n) (b := 10))
  have hc : c.isDigit = true := digits_spec n c (by simp [hct])
  rw [hct, List.append_assoc]
  exact scanAtom_digit negative hc (t ++ r)

theorem scanAtom_int {n : ℤ} (hn : (Nat.toDigits 10 n.natAbs).length ≤ maxStrDigits) {r : Str}
    (hr : Delimited r) :
    scanAtom D (decimal n ++ r) = some (.int n, r) := by
  have hnil : IsFrac [] ∧ IsExp [] := ⟨.inl rfl, .inl rfl⟩
  cases n with
  | ofNat n =>
    have h := scanUnsigned_append (D := D) false n hnil.1 hnil.2 hr
    have hatom := scanAtom_digits (D := D) false n r
    have hlength : (Nat.toDigits 10 n).length ≤ maxStrDigits := hn
    simp only [List.nil_append, and_self, if_true, hlength] at h
    simpa [signText, decimal, h, intOf] using hatom
  | negSucc n =>
    have h := scanUnsigned_append (D := D) true (n + 1) hnil.1 hnil.2 hr
    have hatom := scanAtom_digits (D := D) true (n + 1) r
    have hval : intOf true (Nat.toDigits 10 (n + 1)) = Int.negSucc n := by
      simp only [intOf, if_true, Nat.ofDigitChars_ten_toDigits]
      omega
    have hlength : (Nat.toDigits 10 (n + 1)).length ≤ maxStrDigits := hn
    simp only [List.nil_append, and_self, if_true, hval, hlength] at h
    simpa [signText, decimal, h] using hatom

theorem scanAtom_float {f : FloatLit} (hf : IsFloat D f) {r : Str} (hr : Delimited r) :
    scanAtom D (f.text ++ r) = some (.float f, r) := by
  rcases hf with rfl | rfl | rfl | ⟨⟨negative, n, frac, exp, hfrac, hexp, hne, htext⟩, hback⟩
  · rfl
  · rfl
  · rfl
  · have h := scanUnsigned_append (D := D) negative n hfrac hexp hr
    have hatom := scanAtom_digits (D := D) negative n (frac ++ (exp ++ r))
    rw [if_neg hne, ← htext, hback] at h
    rw [h] at hatom
    rw [htext, ← hatom]
    simp only [List.append_assoc]

/-! ## Reading values back -/

theorem Spread.split {ts us : List Str} (hus : us ≠ []) : ∀ {s : Str}, Spread (ts ++ us) s →
    ts ≠ [] → ∃ a w b, Spread ts a ∧ Blank w ∧ Spread us b ∧ s = a ++ (w ++ b) := by
  induction ts with
  | nil => exact fun _ hne => absurd rfl hne
  | cons t ts ih =>
    intro s hs _
    cases ts with
    | nil =>
      cases hs with
      | one t => exact absurd rfl hus
      | cons hw hs => exact ⟨t, _, _, .one t, hw, hs, rfl⟩
    | cons t' ts =>
      cases hs with
      | cons hw hs =>
        obtain ⟨a, w', b, ha, hw', hb, rfl⟩ := ih hs (List.cons_ne_nil _ _)
        exact ⟨t ++ (_ ++ a), w', b, .cons hw ha, hw', hb, by simp⟩

theorem Spread.uncons {t : Str} {us : List Str} {s : Str} (hs : Spread (t :: us) s) (hus : us ≠ []) :
    ∃ w b, Blank w ∧ Spread us b ∧ s = t ++ (w ++ b) := by
  cases hs with
  | one t => exact absurd rfl hus
  | cons hw hs => exact ⟨_, _, hw, hs, rfl⟩

theorem Spread.eq_one {t s : Str} (hs : Spread [t] s) : s = t := by
  cases hs with
  | one t => rfl
  | cons _ hs => cases hs

theorem Spread.head {c : Char} {t : Str} {ts : List Str} {s : Str} (hs : Spread ((c :: t) :: ts) s) :
    ∃ u, s = c :: u := by
  cases hs with
  | one => exact ⟨t, rfl⟩
  | cons _ _ => exact ⟨_, rfl⟩

theorem tokens_ne_nil (v : Json) : tokens v ≠ [] := by
  cases v <;> simp [tokens]

theorem elemTokens_ne_nil (xs : List Json) : elemTokens xs ≠ [] := by
  rcases xs with _ | ⟨x, _ | ⟨y, xs⟩⟩ <;> simp [elemTokens]

theorem memberTokens_ne_nil (ms : List (Str × Json)) : memberTokens ms ≠ [] := by
  rcases ms with _ | ⟨⟨k, v⟩, _ | ⟨m, ms⟩⟩ <;> simp [memberTokens]

theorem tokens_head (v : Json) : ∃ c t ts, tokens v = (c :: t) :: ts ∧ leadKind c = kind v := by
  obtain ⟨c, t, hct, hc⟩ := dumps_lead v
  cases v with
  | arr xs => exact ⟨'[', [], elemTokens xs, by simp [tokens], (by decide : leadKind '[' = 5)⟩
  | obj ms => exact ⟨'{', [], memberTokens ms, by simp [tokens], (by decide : leadKind '{' = 6)⟩
  | null => exact ⟨c, t, [], by simp [tokens, hct], hc⟩
  | bool b => exact ⟨c, t, [], by simp [tokens, hct], hc⟩
  | int n => exact ⟨c, t, [], by simp [tokens, hct], hc⟩
  | float f => exact ⟨c, t, [], by simp [tokens, hct], hc⟩
  | str s => exact ⟨c, t, [], by simp [tokens, hct], hc⟩

theorem kind_lt (v : Json) : kind v < 7 := by
  rcases v with _ | (_ | _) | _ | _ | _ | _ | _ <;> simp [kind]

/-- A text of a value begins with a character that tells the kind of the value. -/
theorem Spread.lead {v : Json} {s : Str} (hs : Spread (tokens v) s) :
    ∃ c u, s = c :: u ∧ leadKind c = kind v := by
  obtain ⟨c, t, ts, htokens, hc⟩ := tokens_head v
  rw [htokens] at hs
  obtain ⟨u, rfl⟩ := hs.head
  exact ⟨c, u, rfl, hc⟩

theorem Spread.not_blank {v : Json} {s : Str} (hs : Spread (tokens v) s) (r : Str) :
    ∀ c ∈ (s ++ r).head?, isBlank c = false := by
  obtain ⟨c, u, rfl, hc⟩ := hs.lead
  intro d hd
  obtain rfl : c = d := by simpa using hd
  by_contra hblank
  rw [leadKind_of_isBlank (by simpa using hblank)] at hc
  have := kind_lt v
  omega

theorem length_quote (s : Str) : s.length + 2 ≤ (quote s).length := by
  have h : s.length ≤ (s.flatMap escape).length := by
    induction s with
    | nil => simp
    | cons c s ih =>
      obtain ⟨d, t, hd, _⟩ := escape_head c
      simp only [List.flatMap_cons, List.length_append, List.length_cons, hd]
      omega
  simp only [quote, List.length_cons, List.length_append, List.length_nil]
  omega

theorem scanString_quote (s r : Str) {n : ℕ} (hn : s.length < n) {t : Str}
    (ht : quote s ++ r = '"' :: t) : scanString D n t = some (s, r) := by
  simp only [quote, List.cons_append, List.append_assoc, List.nil_append, List.cons.injEq,
    true_and] at ht
  rw [← ht]
  exact scanString_escapes s r hn

theorem scanOnce_atom_spread {v : Json} {s r : Str} {n : ℕ} (hkind : kind v < 4)
    (hs : Spread (tokens v) s) (hn : s.length ≤ n) :
    scanOnce D n (s ++ r) = scanAtom D (s ++ r) := by
  obtain ⟨c, u, rfl, hc⟩ := hs.lead
  obtain ⟨n, rfl⟩ := Nat.exists_eq_succ_of_ne_zero (by simp at hn; omega : n ≠ 0)
  exact scanOnce_atom (by omega) n (u ++ r)

/-! Members with distinct keys are their own dictionary. -/

theorem setItem_new {d : Dict} {key : Str} (h : key ∉ d.map Prod.fst) (value : Json) :
    setItem d key value = d ++ [(key, value)] := by
  induction d with
  | nil => rfl
  | cons m d ih =>
    simp only [List.map_cons, List.mem_cons, not_or] at h
    simp only [setItem, if_neg (Ne.symm h.1), ih h.2, List.cons_append]

theorem foldl_setItem {ms : List (Str × Json)} : ∀ {d : Dict}, ((d ++ ms).map Prod.fst).Nodup →
    ms.foldl (fun d m => setItem d m.1 m.2) d = d ++ ms := by
  induction ms with
  | nil => simp
  | cons m ms ih =>
    intro d h
    have hnew : m.1 ∉ d.map Prod.fst := by
      rw [List.map_append, List.nodup_append] at h
      exact fun hm => h.2.2 _ hm m.1 (by simp) rfl
    rw [List.foldl_cons, setItem_new hnew, ih (by simpa using h)]
    simp

theorem dictOf_eq {ms : List (Str × Json)} (h : (ms.map Prod.fst).Nodup) : dictOf ms = ms := by
  rw [dictOf, foldl_setItem (by simpa using h), List.nil_append]

theorem Spread.head_elem {x : Json} {xs : List Json} {s : Str}
    (hs : Spread (elemTokens (x :: xs)) s) :
    ∃ c u, s = c :: u ∧ isBlank c = false ∧ c ≠ ']' := by
  have hx : ∃ us, us ≠ [] ∧ elemTokens (x :: xs) = tokens x ++ us := by
    cases xs with
    | nil => exact ⟨_, List.cons_ne_nil _ _, rfl⟩
    | cons y ys => exact ⟨_, List.cons_ne_nil _ _, rfl⟩
  obtain ⟨us, hus, heq⟩ := hx
  rw [heq] at hs
  obtain ⟨a, w, b, ha, _, _, rfl⟩ := hs.split hus (tokens_ne_nil x)
  obtain ⟨c, u, rfl, hc⟩ := ha.lead
  have hlt := kind_lt x
  refine ⟨c, u ++ (w ++ b), rfl, ?_, ?_⟩
  · by_contra h
    rw [leadKind_of_isBlank (by simpa using h)] at hc
    omega
  · rintro rfl
    have h7 : leadKind ']' = 7 := by decide
    omega

theorem Spread.head_member {m : Str × Json} {ms : List (Str × Json)} {s : Str}
    (hs : Spread (memberTokens (m :: ms)) s) : ∃ u, s = '"' :: u := by
  cases ms with
  | nil => exact hs.head
  | cons m' ms => exact hs.head

mutual
/-- What a text of a value is read as, in front of any delimited rest. -/
theorem scanOnce_decoded : ∀ (v : Json) {s r : Str} {n : ℕ}, Readable D v → Spread (tokens v) s →
    Delimited r → s.length ≤ n → scanOnce D n (s ++ r) = some (decoded v, r)
  | .null, s, r, n, _, hs, _, hn => by
      rw [scanOnce_atom_spread (by simp [kind]) hs hn]
      rw [tokens] at hs
      rw [hs.eq_one]
      rfl
  | .bool b, s, r, n, _, hs, _, hn => by
      rw [scanOnce_atom_spread (by cases b <;> simp [kind]) hs hn]
      rw [tokens] at hs
      rw [hs.eq_one]
      cases b <;> rfl
  | .int i, s, r, n, hv, hs, hr, hn => by
      rw [scanOnce_atom_spread (by simp [kind]) hs hn]
      rw [tokens] at hs
      rw [hs.eq_one, dumps]
      exact scanAtom_int hv hr
  | .float f, s, r, n, hv, hs, hr, hn => by
      rw [scanOnce_atom_spread (by simp [kind]) hs hn]
      rw [tokens] at hs
      rw [hs.eq_one, dumps]
      exact scanAtom_float hv hr
  | .str u, s, r, n, _, hs, _, hn => by
      rw [tokens] at hs
      obtain rfl := hs.eq_one
      rw [dumps] at hn ⊢
      have hlen := length_quote u
      obtain ⟨n, rfl⟩ := Nat.exists_eq_succ_of_ne_zero (by omega : n ≠ 0)
      have hread := scanString_quote (D := D) u r (by omega : u.length < n) rfl
      show (scanString D n _).map _ = _
      rw [hread, Option.map_some, decoded]
  | .arr xs, s, r, n, hv, hs, _, hn => by
      rw [tokens] at hs
      obtain ⟨w, b, hw, hb, rfl⟩ := hs.uncons (elemTokens_ne_nil xs)
      change (w ++ b).length + 1 ≤ n at hn
      obtain ⟨n, rfl⟩ := Nat.exists_eq_succ_of_ne_zero (by omega : n ≠ 0)
      rw [List.length_append] at hn
      show scanOnce D (n + 1) ('[' :: (w ++ b ++ r)) = _
      rw [List.append_assoc]
      match xs, hv, hb with
      | [], _, hb =>
        rw [elemTokens] at hb
        obtain rfl := hb.eq_one
        have hskip : skipBlank (w ++ ("]".toList ++ r)) = ']' :: r :=
          skipBlank_to hw (by decide) r
        simp only [scanOnce, hskip, decoded, decodedElems]
      | x :: xs, hv, hb =>
        have hread := scanElems_decoded (x :: xs) (r := r) (n := n) (List.cons_ne_nil _ _)
          hv hb (by omega)
        obtain ⟨c, u, rfl, hblank, hclose⟩ := hb.head_elem
        exact scanOnce_arr hclose (skipBlank_to hw hblank (u ++ r)) hread
  | .obj ms, s, r, n, hv, hs, _, hn => by
      rw [tokens] at hs
      obtain ⟨w, b, hw, hb, rfl⟩ := hs.uncons (memberTokens_ne_nil ms)
      change (w ++ b).length + 1 ≤ n at hn
      obtain ⟨n, rfl⟩ := Nat.exists_eq_succ_of_ne_zero (by omega : n ≠ 0)
      rw [List.length_append] at hn
      show scanOnce D (n + 1) ('{' :: (w ++ b ++ r)) = _
      rw [List.append_assoc]
      match ms, hv, hb with
      | [], _, hb =>
        rw [memberTokens] at hb
        obtain rfl := hb.eq_one
        have hskip : skipBlank (w ++ (['}'] ++ r)) = '}' :: r := skipBlank_to hw (by decide) r
        simp only [scanOnce, hskip, decoded, decodedMembers, dictOf, List.foldl_nil]
      | m :: ms, hv, hb =>
        have hread := scanMembers_decoded (m :: ms) (r := r) (n := n) (List.cons_ne_nil _ _)
          hv hb (by omega)
        obtain ⟨u, rfl⟩ := hb.head_member
        exact scanOnce_obj (skipBlank_to hw (by decide) (u ++ r)) hread

theorem scanElems_decoded : ∀ (xs : List Json) {s r : Str} {n : ℕ}, xs ≠ [] → ReadableElems D xs →
    Spread (elemTokens xs) s → s.length ≤ n → scanElems D n (s ++ r) = some (decodedElems xs, r)
  | [], _, _, _, hne, _, _, _ => absurd rfl hne
  | [x], s, r, n, _, hv, hs, hn => by
      rw [elemTokens] at hs
      obtain ⟨a, w, b, ha, hw, hb, rfl⟩ := hs.split (List.cons_ne_nil _ _) (tokens_ne_nil x)
      obtain rfl := hb.eq_one
      change (a ++ (w ++ [']'])).length ≤ n at hn
      simp only [List.length_append, List.length_cons, List.length_nil] at hn
      obtain ⟨n, rfl⟩ := Nat.exists_eq_succ_of_ne_zero (by omega : n ≠ 0)
      have hx := scanOnce_decoded x (r := w ++ ']' :: r) (n := n) hv.1 ha
        (delimited_blank hw (by decide) r) (by omega)
      rw [List.append_assoc, List.append_assoc]
      exact scanElems_last hw hx
  | x :: y :: xs, s, r, n, _, hv, hs, hn => by
      change Spread (tokens x ++ ",".toList :: elemTokens (y :: xs)) s at hs
      obtain ⟨a, w, b, ha, hw, hb, rfl⟩ := hs.split (List.cons_ne_nil _ _) (tokens_ne_nil x)
      obtain ⟨w', b, hw', hb', rfl⟩ := hb.uncons (elemTokens_ne_nil _)
      change (a ++ (w ++ ',' :: (w' ++ b))).length ≤ n at hn
      simp only [List.length_append, List.length_cons] at hn
      obtain ⟨n, rfl⟩ := Nat.exists_eq_succ_of_ne_zero (by omega : n ≠ 0)
      have hx := scanOnce_decoded x (r := w ++ ',' :: (w' ++ (b ++ r))) (n := n) hv.1 ha
        (delimited_blank hw (by decide) _) (by omega)
      have hxs := scanElems_decoded (y :: xs) (r := r) (n := n) (List.cons_ne_nil _ _) hv.2 hb'
        (by omega)
      obtain ⟨c, u, rfl, hc, _⟩ := hb'.head_elem
      have hskip : skipBlank (w' ++ (c :: u ++ r)) = c :: u ++ r := skipBlank_to hw' hc _
      rw [← hskip] at hxs
      have hread := scanElems_more hw hx hxs
      simpa [decodedElems, List.append_assoc] using hread

theorem scanMembers_decoded : ∀ (ms : List (Str × Json)) {s r : Str} {n : ℕ}, ms ≠ [] →
    ReadableMembers D ms → Spread (memberTokens ms) s → s.length ≤ n →
    scanMembers D n (s ++ r) = some (decodedMembers ms, r)
  | [], _, _, _, hne, _, _, _ => absurd rfl hne
  | [(k, v)], s, r, n, _, hv, hs, hn => by
      rw [memberTokens] at hs
      obtain ⟨w, b, hw, hb, rfl⟩ := hs.uncons (List.cons_ne_nil _ _)
      obtain ⟨u, b, hu, hb', rfl⟩ := hb.uncons (by simp)
      obtain ⟨a, w', b, ha, hw', hb'', rfl⟩ := hb'.split (List.cons_ne_nil _ _) (tokens_ne_nil v)
      obtain rfl := hb''.eq_one
      change (quote k ++ (w ++ ':' :: (u ++ (a ++ (w' ++ ['}']))))).length ≤ n at hn
      have hlen := length_quote k
      simp only [List.length_append, List.length_cons, List.length_nil] at hn
      obtain ⟨n, rfl⟩ := Nat.exists_eq_succ_of_ne_zero (by omega : n ≠ 0)
      have hk := scanString_quote (D := D) k (w ++ ':' :: (u ++ (a ++ (w' ++ '}' :: r))))
        (by omega : k.length < n) rfl
      have hval := scanOnce_decoded v (r := w' ++ '}' :: r) (n := n) hv.1 ha
        (delimited_blank hw' (by decide) r) (by omega)
      have hskip := skipBlank_append hu (ha.not_blank (w' ++ '}' :: r))
      rw [← hskip] at hval
      have hread := scanMembers_last hw hw' hk hval
      simpa [decodedMembers, List.append_assoc, quote] using hread
  | (k, v) :: m :: ms, s, r, n, _, hv, hs, hn => by
      change Spread (quote k :: ":".toList ::
        (tokens v ++ ",".toList :: memberTokens (m :: ms))) s at hs
      obtain ⟨w, b, hw, hb, rfl⟩ := hs.uncons (List.cons_ne_nil _ _)
      obtain ⟨u, b, hu, hb', rfl⟩ := hb.uncons (by simp)
      obtain ⟨a, w', b, ha, hw', hb'', rfl⟩ := hb'.split (List.cons_ne_nil _ _) (tokens_ne_nil v)
      obtain ⟨x, b, hx, hm, rfl⟩ := hb''.uncons (memberTokens_ne_nil _)
      change (quote k ++ (w ++ ':' :: (u ++ (a ++ (w' ++ ',' :: (x ++ b)))))).length ≤ n at hn
      have hlen := length_quote k
      simp only [List.length_append, List.length_cons] at hn
      obtain ⟨n, rfl⟩ := Nat.exists_eq_succ_of_ne_zero (by omega : n ≠ 0)
      have hk := scanString_quote (D := D) k
        (w ++ ':' :: (u ++ (a ++ (w' ++ ',' :: (x ++ (b ++ r))))))
        (by omega : k.length < n) rfl
      have hval := scanOnce_decoded v (r := w' ++ ',' :: (x ++ (b ++ r))) (n := n) hv.1 ha
        (delimited_blank hw' (by decide) _) (by omega)
      have hms := scanMembers_decoded (m :: ms) (r := r) (n := n) (List.cons_ne_nil _ _) hv.2 hm
        (by omega)
      have hskip := skipBlank_append hu (ha.not_blank (w' ++ ',' :: (x ++ (b ++ r))))
      obtain ⟨z, rfl⟩ := hm.head_member
      have hskip' : skipBlank (x ++ ('"' :: z ++ r)) = '"' :: z ++ r :=
        skipBlank_to hx (by decide) _
      rw [← hskip] at hval
      rw [← hskip'] at hms
      have hread := scanMembers_more hw hw' hk hval hms
      simpa [decodedMembers, List.append_assoc, quote] using hread
end

mutual
/-- A proper value is read as it is. -/
theorem Proper.decoded_eq : ∀ v : Json, Proper D v → Readable D v ∧ decoded v = v
  | .null, _ => ⟨trivial, rfl⟩
  | .bool _, _ => ⟨trivial, rfl⟩
  | .int _, h => ⟨h, rfl⟩
  | .float _, h => ⟨h, rfl⟩
  | .str _, _ => ⟨trivial, rfl⟩
  | .arr xs, h => by
      obtain ⟨hread, hxs⟩ := ProperElems.decoded_eq xs h
      exact ⟨hread, by rw [decoded, hxs]⟩
  | .obj ms, h => by
      obtain ⟨hnodup, hproper⟩ := h
      obtain ⟨hread, hms⟩ := ProperMembers.decoded_eq ms hproper
      exact ⟨hread, by rw [decoded, hms, dictOf_eq hnodup]⟩

theorem ProperElems.decoded_eq : ∀ xs : List Json, ProperElems D xs →
    ReadableElems D xs ∧ decodedElems xs = xs
  | [], _ => ⟨trivial, rfl⟩
  | x :: xs, h => by
      obtain ⟨hreadx, hx⟩ := Proper.decoded_eq x h.1
      obtain ⟨hread, hxs⟩ := ProperElems.decoded_eq xs h.2
      exact ⟨⟨hreadx, hread⟩, by rw [decodedElems, hx, hxs]⟩

theorem ProperMembers.decoded_eq : ∀ ms : List (Str × Json), ProperMembers D ms →
    ReadableMembers D ms ∧ decodedMembers ms = ms
  | [], _ => ⟨trivial, rfl⟩
  | (k, v) :: ms, h => by
      obtain ⟨hreadv, hv⟩ := Proper.decoded_eq v h.1
      obtain ⟨hread, hms⟩ := ProperMembers.decoded_eq ms h.2
      exact ⟨⟨hreadv, hread⟩, by rw [decodedMembers, hv, hms]⟩
end

/-- A text of a value is read as that value, in front of any delimited rest. -/
theorem scanOnce_spread {v : Json} {s r : Str} {n : ℕ} (hv : Proper D v) (hs : Spread (tokens v) s)
    (hr : Delimited r) (hn : s.length ≤ n) : scanOnce D n (s ++ r) = some (v, r) := by
  obtain ⟨hread, heq⟩ := Proper.decoded_eq v hv
  rw [scanOnce_decoded v hread hs hr hn, heq]

theorem rawDecode_spread {v : Json} {s : Str} (hv : Proper D v) (hs : Spread (tokens v) s) {r : Str}
    (hr : Delimited r) : rawDecode D (s ++ r) = some (v, r) :=
  scanOnce_spread hv hs hr (by simp)

/-- An object is read up to its end, whatever follows. -/
theorem rawDecode_obj {data : Dict} {s : Str} (hdata : Proper D (.obj data))
    (hs : Spread (tokens (.obj data)) s) (r : Str) : rawDecode D (s ++ r) = some (.obj data, r) := by
  have hread := rawDecode_spread hdata hs (r := []) (by simp [Delimited])
  rw [List.append_nil] at hread
  exact rawDecode_append hread (by simp [Ended, kind]) r

/-! ## The printer -/

theorem Spread.append {ts us : List Str} {a w b : Str} (ha : Spread ts a) (hw : Blank w)
    (hb : Spread us b) : Spread (ts ++ us) (a ++ (w ++ b)) := by
  induction ha with
  | one t => exact .cons hw hb
  | cons hw' _ ih =>
    simp only [List.append_assoc, List.cons_append]
    exact .cons hw' ih

theorem Blank.nil : Blank [] := by
  intro c hc
  cases hc

theorem Blank.space : Blank " " := by
  intro c hc
  obtain rfl : c = ' ' := by simpa using hc
  decide

/-- What follows an element, respectively a member. -/
def elemTail : List Json → List Str
  | [] => ["]"]
  | x :: xs => "," :: elemTokens (x :: xs)

def memberTail : List (Str × Json) → List Str
  | [] => [['}']]
  | m :: ms => "," :: memberTokens (m :: ms)

theorem elemTokens_cons (x : Json) (xs : List Json) :
    elemTokens (x :: xs) = tokens x ++ elemTail xs := by
  cases xs <;> rfl

theorem memberTokens_cons (k : Str) (v : Json) (ms : List (Str × Json)) :
    memberTokens ((k, v) :: ms) = quote k :: ":".toList :: (tokens v ++ memberTail ms) := by
  cases ms <;> rfl

/-- The text of a member, as `dumps` sets it. -/
theorem member_spread {k : Str} {v : Json} {ts : List Str} {a b : Str} (hv : Spread (tokens v) a)
    (hts : Spread ts b) :
    Spread (quote k :: ":".toList :: (tokens v ++ ts)) (quote k ++ ": ".toList ++ a ++ b) := by
  have hrest : Spread (":".toList :: (tokens v ++ ts)) (":".toList ++ (" ".toList ++ (a ++ b))) :=
    .cons .space (hv.append .nil hts)
  rw [List.append_assoc, List.append_assoc]
  exact .cons (w := []) .nil hrest

mutual
theorem dumps_spread : ∀ v : Json, Spread (tokens v) (dumps v)
  | .null => .one _
  | .bool _ => .one _
  | .int _ => .one _
  | .float _ => .one _
  | .str _ => .one _
  | .arr [] => .cons (w := []) .nil (.one _)
  | .arr (x :: xs) => by
      have hrest := (dumps_spread x).append .nil (dumpsElems_spread xs)
      rw [dumps, tokens, elemTokens_cons]
      exact .cons (w := []) .nil hrest
  | .obj [] => .cons (w := []) .nil (.one _)
  | .obj ((k, v) :: ms) => by
      have hrest := member_spread (k := k) (dumps_spread v) (dumpsMembers_spread ms)
      rw [dumps, tokens, memberTokens_cons]
      exact .cons (w := []) .nil hrest

theorem dumpsElems_spread : ∀ xs : List Json, Spread (elemTail xs) (dumpsElems xs)
  | [] => .one _
  | x :: xs => by
      have hrest := (dumps_spread x).append .nil (dumpsElems_spread xs)
      rw [dumpsElems, elemTail, elemTokens_cons, List.append_assoc]
      exact .cons .space hrest

theorem dumpsMembers_spread : ∀ ms : List (Str × Json), Spread (memberTail ms) (dumpsMembers ms)
  | [] => .one _
  | (k, v) :: ms => by
      have hrest := member_spread (k := k) (dumps_spread v) (dumpsMembers_spread ms)
      rw [dumpsMembers, memberTail, memberTokens_cons]
      simp only [List.append_assoc] at hrest ⊢
      exact .cons .space hrest
end

theorem memberTokens_last : ∀ ms : List (Str × Json), ∃ us, memberTokens ms = us ++ [['}']]
  | [] => ⟨[], rfl⟩
  | [(k, v)] => ⟨quote k :: ":".toList :: tokens v, rfl⟩
  | (k, v) :: m :: ms => by
      obtain ⟨us, hus⟩ := memberTokens_last (m :: ms)
      refine ⟨quote k :: ":".toList :: (tokens v ++ ",".toList :: us), ?_⟩
      rw [memberTokens_cons, memberTail, hus]
      simp

/-- A text of an object is set in its braces. -/
theorem Spread.braces {ms : List (Str × Json)} {s : Str} (hs : Spread (tokens (.obj ms)) s) :
    ∃ b, s = '{' :: (b ++ ['}']) := by
  obtain ⟨us, hus⟩ := memberTokens_last ms
  rw [tokens, hus, ← List.cons_append] at hs
  obtain ⟨a, w, b, ha, _, hb, rfl⟩ := hs.split (List.cons_ne_nil _ _) (List.cons_ne_nil _ _)
  obtain ⟨a, rfl⟩ := ha.head
  obtain rfl := hb.eq_one
  exact ⟨a ++ w, by simp⟩

end AegisCode.Json
