import AegisCode.Text
import Mathlib.Data.List.Sort

/-!
# JSON texts

`dumps` is the printer with
`", "` and `": "` separators that escapes everything outside printable ASCII,
and `canon` sorts the keys of every object, so `dumps (canon v)` is the text of
a sort-keys dump. The main result is that a dumped text is readable in exactly
one way, whatever follows it: `dumps` is injective.
-/
namespace AegisCode
namespace Json

/-- Characters of number texts, the names `NaN` and `Infinity` included. -/
def isNumberChar (c : Char) : Bool :=
  c.isDigit || c ∈ "+-.eENaInfity".toList

/-- Characters that tell the text of a float from the text of an integer. -/
def isFloatMark (c : Char) : Bool := c ∈ ".eNI".toList

def startsNumber (c : Char) : Bool := c.isDigit || c ∈ "-NI".toList

/-- A float, known by the text it prints as (`1.0`, `1e+16`, `NaN`, ...). -/
structure FloatLit where
  text : Str
  numeric : text.all isNumberChar = true
  marked : text.any isFloatMark = true
  starts : (text.head?.any startsNumber) = true

end Json

inductive Json where
  | null
  | bool (b : Bool)
  | int (n : ℤ)
  | float (f : Json.FloatLit)
  | str (s : Str)
  | arr (xs : List Json)
  | obj (ms : List (Str × Json))

namespace Json

/-! ## Printing -/

def hexDigit (n : ℕ) : Char := "0123456789abcdef".toList.getD n '0'

def hex4 (n : ℕ) : Str :=
  [hexDigit (n / 4096 % 16), hexDigit (n / 256 % 16), hexDigit (n / 16 % 16), hexDigit (n % 16)]

def unicodeEscape (n : ℕ) : Str := '\\' :: 'u' :: hex4 n

/-- One character of a string literal; beyond U+FFFF as a surrogate pair. -/
def escape (c : Char) : Str :=
  if c = '"' then "\\\""
  else if c = '\\' then "\\\\"
  else if c = '\n' then "\\n"
  else if c = '\r' then "\\r"
  else if c = '\t' then "\\t"
  else if c.toNat = 0x0c then "\\f"
  else if c.toNat = 0x08 then "\\b"
  else if 0x20 ≤ c.toNat ∧ c.toNat ≤ 0x7e then [c]
  else if c.toNat < 0x10000 then unicodeEscape c.toNat
  else unicodeEscape (0xd800 + (c.toNat - 0x10000) / 0x400) ++
    unicodeEscape (0xdc00 + (c.toNat - 0x10000) % 0x400)

def quote (s : Str) : Str := '"' :: (s.flatMap escape ++ ['"'])

/-- The decimal text of an integer. -/
def decimal : ℤ → Str
  | .ofNat n => Nat.toDigits 10 n
  | .negSucc n => '-' :: Nat.toDigits 10 (n + 1)

mutual
def dumps : Json → Str
  | .null => "null"
  | .bool true => "true"
  | .bool false => "false"
  | .int n => decimal n
  | .float f => f.text
  | .str s => quote s
  | .arr [] => "[]"
  | .arr (x :: xs) => '[' :: (dumps x ++ dumpsElems xs)
  | .obj [] => ['{', '}']
  | .obj ((k, v) :: ms) => '{' :: (quote k ++ ": ".toList ++ dumps v ++ dumpsMembers ms)

/-- The rest of an array after its first element, closing bracket included. -/
def dumpsElems : List Json → Str
  | [] => "]"
  | x :: xs => ", ".toList ++ dumps x ++ dumpsElems xs

/-- The rest of an object after its first member, closing brace included. -/
def dumpsMembers : List (Str × Json) → Str
  | [] => ['}']
  | (k, v) :: ms => ", ".toList ++ quote k ++ ": ".toList ++ dumps v ++ dumpsMembers ms
end

mutual
/-- The same value with the keys of every object in ascending order. -/
def canon : Json → Json
  | .arr xs => .arr (canonElems xs)
  | .obj ms => .obj ((canonMembers ms).insertionSort fun a b => a.1 ≤ b.1)
  | .null => .null
  | .bool b => .bool b
  | .int n => .int n
  | .float f => .float f
  | .str s => .str s

def canonElems : List Json → List Json
  | [] => []
  | x :: xs => canon x :: canonElems xs

def canonMembers : List (Str × Json) → List (Str × Json)
  | [] => []
  | (k, v) :: ms => (k, canon v) :: canonMembers ms
end

/-- Equal as JSON values: equal up to the order of keys at every depth. -/
def Same (v w : Json) : Prop := canon v = canon w

/-! ## Reading a printed text back

The texts below are followed by an arbitrary rest, so that each lemma applies in
the middle of a longer text. -/

def hexVal (c : Char) : ℕ := "0123456789abcdef".toList.idxOf c

def hex4Val (a b c d : Char) : ℕ :=
  hexVal a * 4096 + hexVal b * 256 + hexVal c * 16 + hexVal d

/-- The low half of a surrogate pair whose high half was `n`. -/
def unescapeLow (n : ℕ) : Str → Option (Char × Str)
  | '\\' :: 'u' :: a :: b :: c :: d :: t =>
      some (Char.ofNat (0x10000 + (n - 0xd800) * 0x400 + (hex4Val a b c d - 0xdc00)), t)
  | _ => none

/-- What a backslash and the letter `e` stand for. -/
def escaped (e : Char) : Char :=
  if e = 'n' then '\n' else if e = 'r' then '\r' else if e = 't' then '\t'
  else if e = 'f' then Char.ofNat 0x0c else if e = 'b' then Char.ofNat 0x08 else e

/-- Read one character of a string literal, with what follows it. -/
def unescape : Str → Option (Char × Str)
  | '\\' :: 'u' :: a :: b :: c :: d :: t =>
      if 0xd800 ≤ hex4Val a b c d ∧ hex4Val a b c d < 0xdc00 then
        unescapeLow (hex4Val a b c d) t
      else some (Char.ofNat (hex4Val a b c d), t)
  | '\\' :: e :: t => some (escaped e, t)
  | c :: t => some (c, t)
  | [] => none

theorem hexVal_hexDigit : ∀ n < 16, hexVal (hexDigit n) = n := by decide

theorem hex4Val_hex4 {n : ℕ} (h : n < 0x10000) :
    hex4Val (hexDigit (n / 4096 % 16)) (hexDigit (n / 256 % 16)) (hexDigit (n / 16 % 16))
      (hexDigit (n % 16)) = n := by
  simp only [hex4Val, hexVal_hexDigit _ (Nat.mod_lt _ (by decide : 0 < 16))]
  omega

theorem unescape_unicode {n : ℕ} (h : n < 0x10000) (hs : ¬(0xd800 ≤ n ∧ n < 0xdc00)) (t : Str) :
    unescape (unicodeEscape n ++ t) = some (Char.ofNat n, t) := by
  simp only [unicodeEscape, hex4, List.cons_append, List.nil_append, unescape, hex4Val_hex4 h]
  rw [if_neg hs]

theorem unescape_surrogates {n m : ℕ} (h : 0xd800 ≤ n ∧ n < 0xdc00) (hm : m < 0x10000) (t : Str) :
    unescape (unicodeEscape n ++ (unicodeEscape m ++ t)) =
      some (Char.ofNat (0x10000 + (n - 0xd800) * 0x400 + (m - 0xdc00)), t) := by
  simp only [unicodeEscape, hex4, List.cons_append, List.nil_append, unescape, unescapeLow]
  rw [hex4Val_hex4 (by omega), hex4Val_hex4 hm, if_pos h]

/-- A scalar value below U+10000 is not the high half of a surrogate pair. -/
theorem not_surrogate (c : Char) : ¬(0xd800 ≤ c.toNat ∧ c.toNat < 0xdc00) := by
  rcases c.valid with h | ⟨h, _⟩ <;> simp only [Char.toNat] <;> omega

theorem toNat_lt (c : Char) : c.toNat < 0x110000 := by
  rcases c.valid with h | ⟨_, h⟩ <;> simp only [Char.toNat] <;> omega

theorem unescape_plain {c : Char} (h : c ≠ '\\') (t : Str) : unescape (c :: t) = some (c, t) := by
  rw [unescape.eq_def]
  split <;> simp_all

/-- The escape of a character reads back as that character, whatever follows. -/
theorem unescape_escape (c : Char) (t : Str) : unescape (escape c ++ t) = some (c, t) := by
  have hof : Char.ofNat c.toNat = c := Char.ofNat_toNat c
  unfold escape
  split
  · subst c; rfl
  split
  · subst c; rfl
  split
  · subst c; rfl
  split
  · subst c; rfl
  split
  · subst c; rfl
  split
  · rename_i h
    rw [← hof, h]
    rfl
  split
  · rename_i h
    rw [← hof, h]
    rfl
  split
  · exact unescape_plain (by assumption) t
  split
  · rw [unescape_unicode (by assumption) (not_surrogate c), hof]
  · have hlt := toNat_lt c
    rw [List.append_assoc, unescape_surrogates ⟨by omega, by omega⟩ (by omega)]
    rw [show 0x10000 + (0xd800 + (c.toNat - 0x10000) / 0x400 - 0xd800) * 0x400 +
      (0xdc00 + (c.toNat - 0x10000) % 0x400 - 0xdc00) = c.toNat by omega, hof]

/-- An escape never begins with a quotation mark. -/
theorem escape_head (c : Char) : ∃ d t, escape c = d :: t ∧ d ≠ '"' := by
  unfold escape
  split_ifs with h
  all_goals first | exact ⟨_, _, rfl, by decide⟩ | exact ⟨c, [], rfl, h⟩

theorem escapes_inj : ∀ {s s' r r' : Str},
    s.flatMap escape ++ '"' :: r = s'.flatMap escape ++ '"' :: r' → s = s' ∧ r = r'
  | [], [], r, r', h => by simpa using h
  | [], c :: s', r, r', h => by
      obtain ⟨d, t, hd, hne⟩ := escape_head c
      simp [hd, Ne.symm hne] at h
  | c :: s, [], r, r', h => by
      obtain ⟨d, t, hd, hne⟩ := escape_head c
      simp [hd, hne] at h
  | c :: s, c' :: s', r, r', h => by
      have hread := congrArg unescape h
      simp only [List.flatMap_cons, List.append_assoc, unescape_escape, Option.some.injEq,
        Prod.mk.injEq] at hread
      obtain ⟨rfl, hrest⟩ := hread
      obtain ⟨rfl, rfl⟩ := escapes_inj hrest
      exact ⟨rfl, rfl⟩

theorem quote_inj {s s' r r' : Str} (h : quote s ++ r = quote s' ++ r') : s = s' ∧ r = r' := by
  simp only [quote, List.cons_append, List.append_assoc, List.nil_append, List.cons.injEq,
    true_and] at h
  exact escapes_inj h

/-! Numbers end where the first character that cannot belong to a number stands. -/

/-- The rest of a text after a value: empty, or at a delimiter. -/
def Delimited (r : Str) : Prop := ∀ c ∈ r.head?, isNumberChar c = false

theorem takeWhile_number {t r : Str} (ht : t.all isNumberChar = true) (hr : Delimited r) :
    (t ++ r).takeWhile isNumberChar = t := by
  rw [List.takeWhile_append_of_pos (by simpa using ht)]
  cases r with
  | nil => simp
  | cons c r => simp [hr c rfl]

theorem number_inj {t t' r r' : Str} (ht : t.all isNumberChar = true)
    (ht' : t'.all isNumberChar = true) (hr : Delimited r) (hr' : Delimited r')
    (h : t ++ r = t' ++ r') : t = t' ∧ r = r' := by
  have heq : t = t' := by
    rw [← takeWhile_number ht hr, h, takeWhile_number ht' hr']
  subst heq
  exact ⟨rfl, List.append_cancel_left h⟩

theorem digits_spec (n : ℕ) : ∀ c ∈ Nat.toDigits 10 n, c.isDigit = true := fun _ hc =>
  Nat.isDigit_of_mem_toDigits (by decide) (by decide) hc

theorem decimal_numeric (n : ℤ) : (decimal n).all isNumberChar = true := by
  cases n with
  | ofNat n =>
    simp only [decimal, List.all_eq_true]
    intro c hc
    simp [isNumberChar, digits_spec n c hc]
  | negSucc n =>
    simp only [decimal, List.all_cons, Bool.and_eq_true, List.all_eq_true]
    refine ⟨by decide, fun c hc => ?_⟩
    simp [isNumberChar, digits_spec (n + 1) c hc]

theorem not_mark_of_isDigit {c : Char} (h : c.isDigit = true) : isFloatMark c = false := by
  by_contra hm
  simp only [isFloatMark, Bool.not_eq_false, decide_eq_true_eq] at hm
  revert h
  simp at hm
  rcases hm with rfl | rfl | rfl | rfl <;> decide

theorem decimal_unmarked (n : ℤ) : (decimal n).any isFloatMark = false := by
  cases n with
  | ofNat n =>
    simp only [decimal, List.any_eq_false]
    exact fun c hc => by simp [not_mark_of_isDigit (digits_spec n c hc)]
  | negSucc n =>
    simp only [decimal, List.any_cons, Bool.or_eq_false_iff, List.any_eq_false]
    exact ⟨by decide, fun c hc => by simp [not_mark_of_isDigit (digits_spec (n + 1) c hc)]⟩

theorem toDigits_inj {m n : ℕ} (h : Nat.toDigits 10 m = Nat.toDigits 10 n) : m = n := by
  have := congrArg (fun l => Nat.ofDigitChars 10 l 0) h
  simpa using this

theorem decimal_inj {m n : ℤ} (h : decimal m = decimal n) : m = n := by
  have minus (k : ℕ) (t : Str) : Nat.toDigits 10 k ≠ '-' :: t := by
    intro hk
    have := digits_spec k '-' (by simp [hk])
    revert this
    decide
  cases m <;> cases n <;> simp only [decimal] at h
  · rw [toDigits_inj h]
  · exact absurd h (minus _ _)
  · exact absurd h.symm (minus _ _)
  · simp only [List.cons.injEq, true_and] at h
    have := toDigits_inj h
    grind

/-! Values of different kinds begin with different characters. -/

def kind : Json → ℕ
  | .null => 0
  | .bool true => 1
  | .bool false => 2
  | .int _ => 3
  | .float _ => 3
  | .str _ => 4
  | .arr _ => 5
  | .obj _ => 6

def leadKind (c : Char) : ℕ :=
  if c = 'n' then 0 else if c = 't' then 1 else if c = 'f' then 2
  else if startsNumber c then 3
  else if c = '"' then 4 else if c = '[' then 5 else if c = '{' then 6 else 7

theorem leadKind_startsNumber {c : Char} (h : startsNumber c = true) : leadKind c = 3 := by
  have hn : c ≠ 'n' ∧ c ≠ 't' ∧ c ≠ 'f' := by
    refine ⟨?_, ?_, ?_⟩ <;> rintro rfl <;> revert h <;> decide
  simp [leadKind, hn, h]

theorem dumps_lead (v : Json) : ∃ c t, dumps v = c :: t ∧ leadKind c = kind v := by
  cases v with
  | null => exact ⟨_, _, rfl, by decide⟩
  | bool b => cases b <;> exact ⟨_, _, rfl, by decide⟩
  | int n =>
    cases n with
    | negSucc n => exact ⟨'-', _, rfl, (by decide : leadKind '-' = 3)⟩
    | ofNat n =>
      obtain ⟨c, t, hct⟩ := List.exists_cons_of_ne_nil (Nat.toDigits_ne_nil (n := n) (b := 10))
      have hc := digits_spec n c (by simp [hct])
      exact ⟨c, t, by simp [dumps, decimal, hct], leadKind_startsNumber (by simp [startsNumber, hc])⟩
  | float f =>
    have hstart := f.starts
    cases htext : f.text with
    | nil => simp [htext] at hstart
    | cons c t =>
      refine ⟨c, t, by simp [dumps, htext], leadKind_startsNumber ?_⟩
      simpa [htext] using hstart
  | str s => exact ⟨'"', _, rfl, (by decide : leadKind '"' = 4)⟩
  | arr xs =>
    have h : leadKind '[' = 5 := by decide
    cases xs with
    | nil => exact ⟨'[', "]", by simp [dumps], h⟩
    | cons x xs => exact ⟨'[', _, by rw [dumps], h⟩
  | obj ms =>
    have h : leadKind '{' = 6 := by decide
    cases ms with
    | nil => exact ⟨'{', ['}'], by simp [dumps], h⟩
    | cons m ms => exact ⟨'{', _, by rw [dumps], h⟩

theorem kind_eq {v w : Json} {r r' : Str} (h : dumps v ++ r = dumps w ++ r') : kind v = kind w := by
  obtain ⟨c, t, hv, hc⟩ := dumps_lead v
  obtain ⟨d, u, hw, hd⟩ := dumps_lead w
  rw [hv, hw, List.cons_append, List.cons_append, List.cons.injEq] at h
  rw [← hc, ← hd, h.1]

/-- No value begins with the character that closes an array or an object. -/
theorem dumps_ne_close {v : Json} {c : Char} (hc : c = ']' ∨ c = '}') (r t : Str) :
    dumps v ++ r ≠ c :: t := by
  intro h
  obtain ⟨d, u, hv, hd⟩ := dumps_lead v
  rw [hv, List.cons_append, List.cons.injEq] at h
  have h7 : leadKind d = 7 := by rcases hc with rfl | rfl <;> rw [h.1] <;> decide
  rw [h7] at hd
  rcases v with _ | (_ | _) | _ | _ | _ | _ | _ <;> simp [kind] at hd

theorem delimited_elems (xs : List Json) (r : Str) : Delimited (dumpsElems xs ++ r) := by
  intro c hc
  cases xs <;> simp [dumpsElems] at hc <;> subst c <;> decide

theorem delimited_members (ms : List (Str × Json)) (r : Str) : Delimited (dumpsMembers ms ++ r) := by
  intro c hc
  cases ms <;> simp [dumpsMembers] at hc <;> subst c <;> decide

theorem int_ne_float {n : ℤ} {f : FloatLit} {r r' : Str} (hr : Delimited r) (hr' : Delimited r') :
    dumps (.int n) ++ r ≠ dumps (.float f) ++ r' := by
  intro h
  have heq := (number_inj (decimal_numeric n) f.numeric hr hr' (by simpa [dumps] using h)).1
  have hmark := f.marked
  rw [← heq, decimal_unmarked] at hmark
  contradiction

mutual
/-- A printed value is read in one way only, in front of any delimited rest. -/
theorem dumps_append_inj : ∀ (v w : Json) {r r' : Str}, Delimited r → Delimited r' →
    dumps v ++ r = dumps w ++ r' → v = w ∧ r = r'
  | .null, w, r, r', _, _, h => by
      have hk := kind_eq h
      rcases w with _ | (_ | _) | _ | _ | _ | _ | _ <;> simp [kind] at hk
      exact ⟨rfl, by simpa [dumps] using h⟩
  | .bool b, w, r, r', _, _, h => by
      have hk := kind_eq h
      rcases w with _ | (_ | _) | _ | _ | _ | _ | _ <;> cases b <;> simp [kind] at hk <;>
        exact ⟨rfl, by simpa [dumps] using h⟩
  | .int n, w, r, r', hr, hr', h => by
      have hk := kind_eq h
      rcases w with _ | (_ | _) | m | f | _ | _ | _ <;> simp [kind] at hk
      · obtain ⟨htext, hrest⟩ := number_inj (decimal_numeric n) (decimal_numeric m) hr hr'
          (by simpa [dumps] using h)
        exact ⟨by rw [decimal_inj htext], hrest⟩
      · exact absurd h (int_ne_float hr hr')
  | .float f, w, r, r', hr, hr', h => by
      have hk := kind_eq h
      rcases w with _ | (_ | _) | m | g | _ | _ | _ <;> simp [kind] at hk
      · exact absurd h.symm (int_ne_float hr' hr)
      · obtain ⟨htext, hrest⟩ := number_inj f.numeric g.numeric hr hr' (by simpa [dumps] using h)
        obtain ⟨t, _, _, _⟩ := f
        obtain ⟨t', _, _, _⟩ := g
        obtain rfl : t = t' := htext
        exact ⟨rfl, hrest⟩
  | .str s, w, r, r', _, _, h => by
      have hk := kind_eq h
      rcases w with _ | (_ | _) | _ | _ | s' | _ | _ <;> simp [kind] at hk
      have htext : quote s ++ r = quote s' ++ r' := by simpa [dumps] using h
      obtain ⟨rfl, hrest⟩ := quote_inj htext
      exact ⟨rfl, hrest⟩
  | .arr xs, w, r, r', _, _, h => by
      have hk := kind_eq h
      rcases w with _ | (_ | _) | _ | _ | _ | ys | _ <;> simp [kind] at hk
      match xs, ys with
      | [], [] => exact ⟨rfl, by simpa [dumps] using h⟩
      | [], y :: ys =>
        simp only [dumps, List.append_assoc, List.cons_append] at h
        exact absurd (List.cons.inj h).2.symm (dumps_ne_close (.inl rfl) _ _)
      | x :: xs, [] =>
        simp only [dumps, List.append_assoc, List.cons_append] at h
        exact absurd (List.cons.inj h).2 (dumps_ne_close (.inl rfl) _ _)
      | x :: xs, y :: ys =>
        simp only [dumps, List.append_assoc, List.cons_append, List.cons.injEq, true_and] at h
        obtain ⟨rfl, hrest⟩ := dumps_append_inj x y (delimited_elems xs r) (delimited_elems ys r') h
        obtain ⟨rfl, rfl⟩ := dumpsElems_append_inj xs ys hrest
        exact ⟨rfl, rfl⟩
  | .obj ms, w, r, r', _, _, h => by
      have hk := kind_eq h
      rcases w with _ | (_ | _) | _ | _ | _ | _ | ns <;> simp [kind] at hk
      match ms, ns with
      | [], [] => exact ⟨rfl, by simpa [dumps] using h⟩
      | [], (k, v) :: ns => simp [dumps, quote] at h
      | (k, v) :: ms, [] => simp [dumps, quote] at h
      | (k, v) :: ms, (k', v') :: ns =>
        simp only [dumps, List.append_assoc, List.cons_append, List.cons.injEq, true_and] at h
        obtain ⟨rfl, hcolon⟩ := quote_inj h
        obtain ⟨rfl, hrest⟩ := dumps_append_inj v v' (delimited_members ms r)
          (delimited_members ns r') (List.append_cancel_left hcolon)
        obtain ⟨rfl, rfl⟩ := dumpsMembers_append_inj ms ns hrest
        exact ⟨rfl, rfl⟩

theorem dumpsElems_append_inj : ∀ (xs ys : List Json) {r r' : Str},
    dumpsElems xs ++ r = dumpsElems ys ++ r' → xs = ys ∧ r = r'
  | [], [], r, r', h => ⟨rfl, by simpa [dumpsElems] using h⟩
  | [], y :: ys, r, r', h => by simp [dumpsElems] at h
  | x :: xs, [], r, r', h => by simp [dumpsElems] at h
  | x :: xs, y :: ys, r, r', h => by
      simp only [dumpsElems, List.append_assoc] at h
      obtain ⟨rfl, hrest⟩ := dumps_append_inj x y (delimited_elems xs r) (delimited_elems ys r')
        (List.append_cancel_left h)
      obtain ⟨rfl, rfl⟩ := dumpsElems_append_inj xs ys hrest
      exact ⟨rfl, rfl⟩

theorem dumpsMembers_append_inj : ∀ (ms ns : List (Str × Json)) {r r' : Str},
    dumpsMembers ms ++ r = dumpsMembers ns ++ r' → ms = ns ∧ r = r'
  | [], [], r, r', h => ⟨rfl, by simpa [dumpsMembers] using h⟩
  | [], (k, v) :: ns, r, r', h => by simp [dumpsMembers] at h
  | (k, v) :: ms, [], r, r', h => by simp [dumpsMembers] at h
  | (k, v) :: ms, (k', v') :: ns, r, r', h => by
      simp only [dumpsMembers, List.append_assoc] at h
      obtain ⟨rfl, hcolon⟩ := quote_inj (List.append_cancel_left h)
      obtain ⟨rfl, hrest⟩ := dumps_append_inj v v' (delimited_members ms r)
        (delimited_members ns r') (List.append_cancel_left hcolon)
      obtain ⟨rfl, rfl⟩ := dumpsMembers_append_inj ms ns hrest
      exact ⟨rfl, rfl⟩
end

theorem dumps_injective : Function.Injective dumps := by
  intro v w h
  have hnil : Delimited [] := by simp [Delimited]
  exact (dumps_append_inj v w hnil hnil (by simpa using h)).1

/-- Sort-keys dumps agree exactly on values that are the same up to key order. -/
theorem dumps_canon_eq_iff {v w : Json} : dumps (canon v) = dumps (canon w) ↔ Same v w :=
  dumps_injective.eq_iff

example : dumps (canon (.obj
    [("b".toList, .arr [.int (-12), .null]), ("a".toList, .str "é\n".toList)])) =
    "\x7b\"a\": \"\\u00e9\\n\", \"b\": [-12, null]\x7d".toList := by decide

end Json
end AegisCode
