import AegisCode.Action
import Mathlib.Data.List.TakeWhile

/-!
# Reading JSON texts

The decoder of the standard library: `rawDecode` reads one value at the front of
a text and returns what follows it, `loads` reads a whole text. Each reader that
calls itself takes the number of characters it may still look at.
-/
namespace AegisCode.Json

/-- What the decoder takes from outside: `float`, which knows a float by the
text it prints as, and a stand-in for an unpaired surrogate, which is not a
scalar value. -/
structure Decoder where
  float : Str → FloatLit
  unpaired : ℕ → Char

def nan : FloatLit := ⟨"NaN", by decide, by decide, by decide⟩

def infinity : FloatLit := ⟨"Infinity", by decide, by decide, by decide⟩

def negInfinity : FloatLit := ⟨"-Infinity", by decide, by decide, by decide⟩

/-- White space between tokens. -/
def isBlank (c : Char) : Bool := c ∈ " \t\n\r".toList

def skipBlank (s : Str) : Str := s.dropWhile isBlank

/-! ## Strings -/

def hexDigitVal (c : Char) : Option ℕ :=
  if c.isDigit then some (c.toNat - '0'.toNat)
  else if 'a' ≤ c ∧ c ≤ 'f' then some (c.toNat - 'a'.toNat + 10)
  else if 'A' ≤ c ∧ c ≤ 'F' then some (c.toNat - 'A'.toNat + 10)
  else none

/-- Four hexadecimal digits, as after a backslash and a `u`. -/
def decodeUXXXX : Str → Option (ℕ × Str)
  | a :: b :: c :: d :: t => do
      let a ← hexDigitVal a
      let b ← hexDigitVal b
      let c ← hexDigitVal c
      let d ← hexDigitVal d
      return (a * 4096 + b * 256 + c * 16 + d, t)
  | _ => none

def isHighSurrogate (n : ℕ) : Bool := 0xd800 ≤ n ∧ n < 0xdc00

def isLowSurrogate (n : ℕ) : Bool := 0xdc00 ≤ n ∧ n < 0xe000

/-- The character of a code unit that stands by itself. -/
def charOf (D : Decoder) (n : ℕ) : Char :=
  if isHighSurrogate n ∨ isLowSurrogate n then D.unpaired n else Char.ofNat n

/-- The one-letter escapes. -/
def backslash (e : Char) : Option Char :=
  if e = '"' then some '"' else if e = '\\' then some '\\' else if e = '/' then some '/'
  else if e = 'b' then some (Char.ofNat 0x08) else if e = 'f' then some (Char.ofNat 0x0c)
  else if e = 'n' then some '\n' else if e = 'r' then some '\r' else if e = 't' then some '\t'
  else none

/-- One character of a string literal. Control characters must be escaped. -/
def scanChar (D : Decoder) : Str → Option (Char × Str)
  | '\\' :: 'u' :: t =>
      match decodeUXXXX t with
      | none => none
      | some (n, t) =>
        if isHighSurrogate n then
          match t with
          | '\\' :: 'u' :: t' =>
            match decodeUXXXX t' with
            | none => none
            | some (m, t') =>
              if isLowSurrogate m then
                some (Char.ofNat (0x10000 + (n - 0xd800) * 0x400 + (m - 0xdc00)), t')
              else some (charOf D n, t)
          | t => some (charOf D n, t)
        else some (charOf D n, t)
  | '\\' :: e :: t => (backslash e).map fun c => (c, t)
  | c :: t => if c.toNat < 0x20 ∨ c = '"' ∨ c = '\\' then none else some (c, t)
  | [] => none

/-- The rest of a string literal, after its opening quotation mark. -/
def scanString (D : Decoder) : ℕ → Str → Option (Str × Str)
  | 0, _ => none
  | n + 1, s =>
      match s with
      | '"' :: t => some ([], t)
      | s => do
          let (c, t) ← scanChar D s
          let (cs, r) ← scanString D n t
          return (c :: cs, r)

/-! ## Numbers -/

/-- The integer part: no zero stands in front of another digit. -/
def intPart : Str → Option (Str × Str)
  | '0' :: t => some ("0", t)
  | c :: t => if c.isDigit then some ((c :: t).span Char.isDigit) else none
  | [] => none

/-- The fraction of a number; empty unless a digit follows the point. -/
def fracPart : Str → Str × Str
  | '.' :: t =>
      match t.span Char.isDigit with
      | ([], _) => ([], '.' :: t)
      | (ds, r) => ('.' :: ds, r)
  | t => ([], t)

/-- A sign, if there is one. -/
def signPart : Str → Str × Str
  | '+' :: t => ("+", t)
  | '-' :: t => ("-", t)
  | t => ([], t)

/-- The exponent of a number; empty unless it has a digit. -/
def expPart : Str → Str × Str
  | [] => ([], [])
  | c :: t =>
      if c = 'e' ∨ c = 'E' then
        match (signPart t).2.span Char.isDigit with
        | ([], _) => ([], c :: t)
        | (ds, r) => (c :: ((signPart t).1 ++ ds), r)
      else ([], c :: t)

/-- `int` of a text of digits, with the sign in front of it. -/
def intOf (negative : Bool) (ds : Str) : ℤ :=
  if negative then -(Nat.ofDigitChars 10 ds 0 : ℤ) else Nat.ofDigitChars 10 ds 0

def signText (negative : Bool) : Str := if negative then "-" else []

/-- `sys.get_int_max_str_digits()`, unless it was changed. -/
def maxStrDigits : ℕ := 4300

/-- What follows the sign of a number. -/
def scanUnsigned (D : Decoder) (negative : Bool) (s : Str) : Option (Json × Str) :=
  match intPart s with
  | none => none
  | some (ds, t) =>
      let frac := (fracPart t).1
      let exp := (expPart (fracPart t).2).1
      let r := (expPart (fracPart t).2).2
      if frac = [] ∧ exp = [] then
        if ds.length ≤ maxStrDigits then some (.int (intOf negative ds), r) else none
      else some (.float (D.float (signText negative ++ ds ++ frac ++ exp)), r)

/-- Names and numbers. -/
def scanAtom (D : Decoder) (s : Str) : Option (Json × Str) :=
  if "null".toList <+: s then some (.null, s.drop 4)
  else if "true".toList <+: s then some (.bool true, s.drop 4)
  else if "false".toList <+: s then some (.bool false, s.drop 5)
  else if "NaN".toList <+: s then some (.float nan, s.drop 3)
  else if "Infinity".toList <+: s then some (.float infinity, s.drop 8)
  else if "-Infinity".toList <+: s then some (.float negInfinity, s.drop 9)
  else match s with
    | '-' :: t => scanUnsigned D true t
    | s => scanUnsigned D false s

/-! ## Values -/

/-- `d[key] = value`: a key keeps its place, a new one goes last. -/
def setItem (d : Dict) (key : Str) (value : Json) : Dict :=
  match d with
  | [] => [(key, value)]
  | (k, v) :: d => if k = key then (k, value) :: d else (k, v) :: setItem d key value

/-- The dictionary of a list of members, the last of equal keys winning. -/
def dictOf (members : List (Str × Json)) : Dict :=
  members.foldl (fun d m => setItem d m.1 m.2) []

mutual
def scanOnce (D : Decoder) : ℕ → Str → Option (Json × Str)
  | 0, _ => none
  | n + 1, s =>
      match s with
      | '"' :: t => (scanString D n t).map fun (s, r) => (.str s, r)
      | '{' :: t =>
        match skipBlank t with
        | '}' :: r => some (.obj [], r)
        | t => (scanMembers D n t).map fun (ms, r) => (.obj (dictOf ms), r)
      | '[' :: t =>
        match skipBlank t with
        | ']' :: r => some (.arr [], r)
        | t => (scanElems D n t).map fun (xs, r) => (.arr xs, r)
      | s => scanAtom D s

/-- The members of an object from a key on, closing brace included. -/
def scanMembers (D : Decoder) : ℕ → Str → Option (List (Str × Json) × Str)
  | 0, _ => none
  | n + 1, s =>
      match s with
      | '"' :: t =>
        match scanString D n t with
        | none => none
        | some (k, t) =>
          match skipBlank t with
          | ':' :: t =>
            match scanOnce D n (skipBlank t) with
            | none => none
            | some (v, t) =>
              match skipBlank t with
              | '}' :: r => some ([(k, v)], r)
              | ',' :: t => (scanMembers D n (skipBlank t)).map fun (ms, r) => ((k, v) :: ms, r)
              | _ => none
          | _ => none
      | _ => none

/-- The elements of an array from one of them on, closing bracket included. -/
def scanElems (D : Decoder) : ℕ → Str → Option (List Json × Str)
  | 0, _ => none
  | n + 1, s =>
      match scanOnce D n s with
      | none => none
      | some (v, t) =>
        match skipBlank t with
        | ']' :: r => some ([v], r)
        | ',' :: t => (scanElems D n (skipBlank t)).map fun (vs, r) => (v :: vs, r)
        | _ => none
end

/-! The decoder fails in two ways: at a syntax error, and at an integer that has
more digits than `int` reads. -/

/-- The number of digits of a number that is an integer with too many. -/
def excessUnsigned (s : Str) : Option ℕ :=
  match intPart s with
  | none => none
  | some (ds, t) =>
      if (fracPart t).1 = [] ∧ (expPart (fracPart t).2).1 = [] ∧ maxStrDigits < ds.length then
        some ds.length
      else none

def excessAtom (s : Str) : Option ℕ :=
  match s with
  | '-' :: t => excessUnsigned t
  | s => excessUnsigned s

mutual
/-- The digits of the integer at which the decoder stops, if it stops at one. -/
def excessOnce (D : Decoder) : ℕ → Str → Option ℕ
  | 0, _ => none
  | n + 1, s =>
      match s with
      | '"' :: _ => none
      | '{' :: t =>
        match skipBlank t with
        | '}' :: _ => none
        | t => excessMembers D n t
      | '[' :: t =>
        match skipBlank t with
        | ']' :: _ => none
        | t => excessElems D n t
      | s => excessAtom s

def excessMembers (D : Decoder) : ℕ → Str → Option ℕ
  | 0, _ => none
  | n + 1, s =>
      match s with
      | '"' :: t =>
        match scanString D n t with
        | none => none
        | some (_, t) =>
          match skipBlank t with
          | ':' :: t =>
            match scanOnce D n (skipBlank t) with
            | none => excessOnce D n (skipBlank t)
            | some (_, t) =>
              match skipBlank t with
              | ',' :: t => excessMembers D n (skipBlank t)
              | _ => none
          | _ => none
      | _ => none

def excessElems (D : Decoder) : ℕ → Str → Option ℕ
  | 0, _ => none
  | n + 1, s =>
      match scanOnce D n s with
      | none => excessOnce D n s
      | some (_, t) =>
        match skipBlank t with
        | ',' :: t => excessElems D n (skipBlank t)
        | _ => none
end

/-- The value at the front of a text, and what follows it. -/
def rawDecode (D : Decoder) (s : Str) : Option (Json × Str) := scanOnce D s.length s

/-- The digits of the integer at which `rawDecode` stops, if it stops at one. -/
def excess (D : Decoder) (s : Str) : Option ℕ := excessOnce D s.length s

/-- A text that is one value and white space around it. -/
def loads (D : Decoder) (s : Str) : Option Json :=
  match rawDecode D (skipBlank s) with
  | some (v, r) => if skipBlank r = [] then some v else none
  | none => none

/-! ## Lemmas of the readers -/

def Blank (w : Str) : Prop := ∀ c ∈ w, isBlank c = true

variable {D : Decoder}

theorem scanChar_plain {c : Char} (h : 0x20 ≤ c.toNat) (hq : c ≠ '"') (hb : c ≠ '\\') (t : Str) :
    scanChar D (c :: t) = some (c, t) := by
  rw [scanChar.eq_def]
  split <;> simp_all

theorem span_append {p : Char → Bool} {ds r : Str} (hds : ∀ c ∈ ds, p c = true)
    (hr : ∀ c ∈ r.head?, p c = false) : (ds ++ r).span p = (ds, r) := by
  rw [List.span_eq_takeWhile_dropWhile, List.takeWhile_append_of_pos hds,
    List.dropWhile_append_of_pos hds]
  cases r with
  | nil => simp
  | cons c r => simp [hr c rfl]

theorem Delimited.not_digit {r : Str} (hr : Delimited r) : ∀ c ∈ r.head?, c.isDigit = false := by
  intro c hc
  have h := hr c hc
  simp only [isNumberChar, Bool.or_eq_false_iff] at h
  exact h.1

theorem Delimited.ne {r : Str} (hr : Delimited r) {d : Char} (hd : isNumberChar d = true) (t : Str) :
    r ≠ d :: t := by
  rintro rfl
  have h := hr d rfl
  rw [hd] at h
  exact absurd h (by decide)

theorem scanAtom_digit (negative : Bool) {c : Char} (hc : c.isDigit = true) (t : Str) :
    scanAtom D (signText negative ++ c :: t) = scanUnsigned D negative (c :: t) := by
  have hne : ∀ d, d.isDigit = false → d ≠ c := by
    rintro d hd rfl
    rw [hc] at hd
    contradiction
  have hI := hne 'I' (by decide)
  have hother : 'n' ≠ c ∧ 't' ≠ c ∧ 'f' ≠ c ∧ 'N' ≠ c ∧ '-' ≠ c :=
    ⟨hne _ (by decide), hne _ (by decide), hne _ (by decide), hne _ (by decide), hne _ (by decide)⟩
  obtain ⟨hn, ht, hf, hN, hm⟩ := hother
  cases negative with
  | true => simp [signText, scanAtom, hI]
  | false =>
    simp only [signText, scanAtom]
    simp [hI, hn, ht, hf, hN, hm]
    split
    · rename_i heq
      exact absurd (List.cons.inj heq).1.symm hm
    · rfl

theorem skipBlank_append {w t : Str} (hw : Blank w) (ht : ∀ c ∈ t.head?, isBlank c = false) :
    skipBlank (w ++ t) = t := by
  rw [skipBlank, List.dropWhile_append_of_pos hw]
  cases t with
  | nil => rfl
  | cons c t => simp [ht c rfl]

theorem leadKind_of_isBlank {c : Char} (h : isBlank c = true) : leadKind c = 7 := by
  have hc : c = ' ' ∨ c = '\t' ∨ c = '\n' ∨ c = '\r' := by simpa [isBlank] using h
  rcases hc with rfl | rfl | rfl | rfl <;> decide

theorem delimited_blank {w : Str} (hw : Blank w) {c : Char} (hc : isNumberChar c = false) (t : Str) :
    Delimited (w ++ c :: t) := by
  intro d hd
  cases w with
  | nil =>
    obtain rfl : c = d := by simpa using hd
    exact hc
  | cons e w =>
    obtain rfl : e = d := by simpa using hd
    have he : e = ' ' ∨ e = '\t' ∨ e = '\n' ∨ e = '\r' := by simpa [isBlank] using hw e (by simp)
    rcases he with rfl | rfl | rfl | rfl <;> decide

/-- Only strings, arrays and objects are not read as atoms. -/
theorem scanOnce_atom {c : Char} (hc : leadKind c < 4) (n : ℕ) (t : Str) :
    scanOnce D (n + 1) (c :: t) = scanAtom D (c :: t) := by
  rw [scanOnce.eq_def]
  split
  · simp_all
  · rename_i heq
    obtain rfl := Nat.succ.inj heq
    split
    · rename_i h
      rw [(List.cons.inj h).1] at hc
      exact absurd hc (by decide)
    · rename_i h
      rw [(List.cons.inj h).1] at hc
      exact absurd hc (by decide)
    · rename_i h
      rw [(List.cons.inj h).1] at hc
      exact absurd hc (by decide)
    · rfl

/-! One step of each reader, past the white space in its way. -/

theorem skipBlank_to {w : Str} (hw : Blank w) {c : Char} (hc : isBlank c = false) (t : Str) :
    skipBlank (w ++ c :: t) = c :: t :=
  skipBlank_append hw (by simpa using hc)

theorem scanElems_last {n : ℕ} {v : Json} {s w r : Str} (hw : Blank w)
    (hv : scanOnce D n s = some (v, w ++ ']' :: r)) : scanElems D (n + 1) s = some ([v], r) := by
  have hskip := skipBlank_to hw (by decide : isBlank ']' = false) r
  simp only [scanElems, hv, hskip]

theorem scanElems_more {n : ℕ} {v : Json} {vs : List Json} {s w t r : Str} (hw : Blank w)
    (hv : scanOnce D n s = some (v, w ++ ',' :: t))
    (hvs : scanElems D n (skipBlank t) = some (vs, r)) :
    scanElems D (n + 1) s = some (v :: vs, r) := by
  have hskip := skipBlank_to hw (by decide : isBlank ',' = false) t
  simp only [scanElems, hv, hskip, hvs, Option.map_some]

theorem scanMembers_last {n : ℕ} {k : Str} {v : Json} {s w u w' r : Str} (hw : Blank w)
    (hw' : Blank w') (hk : scanString D n s = some (k, w ++ ':' :: u))
    (hv : scanOnce D n (skipBlank u) = some (v, w' ++ '}' :: r)) :
    scanMembers D (n + 1) ('"' :: s) = some ([(k, v)], r) := by
  have hskip := skipBlank_to hw (by decide : isBlank ':' = false) u
  have hskip' := skipBlank_to hw' (by decide : isBlank '}' = false) r
  simp only [scanMembers, hk, hskip, hv, hskip']

theorem scanMembers_more {n : ℕ} {k : Str} {v : Json} {ms : List (Str × Json)}
    {s w u w' t r : Str} (hw : Blank w) (hw' : Blank w')
    (hk : scanString D n s = some (k, w ++ ':' :: u))
    (hv : scanOnce D n (skipBlank u) = some (v, w' ++ ',' :: t))
    (hms : scanMembers D n (skipBlank t) = some (ms, r)) :
    scanMembers D (n + 1) ('"' :: s) = some ((k, v) :: ms, r) := by
  have hskip := skipBlank_to hw (by decide : isBlank ':' = false) u
  have hskip' := skipBlank_to hw' (by decide : isBlank ',' = false) t
  simp only [scanMembers, hk, hskip, hv, hskip', hms, Option.map_some]

/-- The text that reads as the elements does not begin with the closing bracket. -/
theorem scanOnce_arr {n : ℕ} {c : Char} {xs : List Json} {t u r : Str} (hc : c ≠ ']')
    (ht : skipBlank t = c :: u) (hxs : scanElems D n (c :: u) = some (xs, r)) :
    scanOnce D (n + 1) ('[' :: t) = some (.arr xs, r) := by
  simp only [scanOnce, ht]
  split
  · rename_i heq
    exact absurd (List.cons.inj heq).1 hc
  · rw [hxs, Option.map_some]

theorem scanOnce_obj {n : ℕ} {ms : List (Str × Json)} {t u r : Str}
    (ht : skipBlank t = '"' :: u) (hms : scanMembers D n ('"' :: u) = some (ms, r)) :
    scanOnce D (n + 1) ('{' :: t) = some (.obj (dictOf ms), r) := by
  rw [scanOnce, ht]
  show (scanMembers D n ('"' :: u)).map _ = _
  rw [hms, Option.map_some]

/-! ## What follows does not matter

An array or an object that has been read ends where it ends: a longer text
begins with the same value. -/

theorem decodeUXXXX_append {p t : Str} {n : ℕ} (h : decodeUXXXX p = some (n, t)) (q : Str) :
    decodeUXXXX (p ++ q) = some (n, t ++ q) := by
  match p, h with
  | a :: b :: c :: d :: p, h =>
    simp only [decodeUXXXX, List.cons_append] at h ⊢
    cases ha : hexDigitVal a <;> simp [ha] at h ⊢
    cases hb : hexDigitVal b <;> simp [hb] at h ⊢
    cases hc : hexDigitVal c <;> simp [hc] at h ⊢
    cases hd : hexDigitVal d <;> simp [hd] at h ⊢
    simp [h]

/-- Enough of the text is left to see that no second half of a pair follows. -/
theorem scanChar_append {p t : Str} {c : Char} (h : scanChar D p = some (c, t)) (ht : t ≠ [])
    (ht' : t ≠ ['\\']) (q : Str) : scanChar D (p ++ q) = some (c, t ++ q) := by
  rw [scanChar.eq_def] at h
  split at h
  · rename_i p
    split at h
    · contradiction
    · rename_i n u hn
      have hn' := decodeUXXXX_append hn q
      simp only [List.cons_append, scanChar, hn']
      by_cases hhigh : isHighSurrogate n = true
      · rw [if_pos hhigh] at h ⊢
        split at h
        · rename_i u
          split at h
          · contradiction
          · rename_i m u' hm
            have hm' := decodeUXXXX_append hm q
            simp only [List.cons_append, hm']
            by_cases hlow : isLowSurrogate m = true
            · rw [if_pos hlow] at h ⊢
              obtain ⟨rfl, rfl⟩ := Prod.mk.inj (Option.some.inj h)
              rfl
            · rw [if_neg hlow] at h ⊢
              obtain ⟨rfl, rfl⟩ := Prod.mk.inj (Option.some.inj h)
              rfl
        · rename_i hpair
          obtain ⟨rfl, rfl⟩ := Prod.mk.inj (Option.some.inj h)
          match u, ht, ht', hpair with
          | [d], _, hd, _ =>
            split
            · rename_i heq
              rw [(List.cons.inj heq).1] at hd
              exact absurd rfl hd
            · rfl
          | d :: e :: u, _, _, hpair =>
            split
            · rename_i heq
              obtain ⟨hd, he⟩ := List.cons.inj heq
              rw [hd, (List.cons.inj he).1] at hpair
              exact absurd rfl (hpair u)
            · rfl
      · rw [if_neg hhigh] at h ⊢
        obtain ⟨rfl, rfl⟩ := Prod.mk.inj (Option.some.inj h)
        rfl
  · rename_i e u hu
    cases he : backslash e with
    | none => simp [he] at h
    | some d =>
      simp only [he, Option.map_some, Option.some.injEq, Prod.mk.injEq] at h
      obtain ⟨rfl, rfl⟩ := h
      rw [List.cons_append, List.cons_append, scanChar.eq_def]
      simp [he]
  · rename_i d u _ _
    split_ifs at h with hd
    obtain ⟨rfl, rfl⟩ := Prod.mk.inj (Option.some.inj h)
    simp only [not_or, not_lt] at hd
    exact scanChar_plain hd.1 hd.2.1 hd.2.2 (u ++ q)
  · contradiction

theorem scanString_nil (n : ℕ) : scanString D n [] = none := by
  cases n <;> rfl

theorem scanString_backslash (n : ℕ) : scanString D n ['\\'] = none := by
  cases n <;> rfl

theorem scanString_succ {n : ℕ} {p v t : Str} (h : scanString D (n + 1) p = some (v, t)) :
    (p = '"' :: t ∧ v = []) ∨ ∃ c cs u, scanChar D p = some (c, u) ∧
      scanString D n u = some (cs, t) ∧ v = c :: cs := by
  rw [scanString.eq_def] at h
  dsimp only at h
  split at h
  · obtain ⟨rfl, rfl⟩ := Prod.mk.inj (Option.some.inj h)
    exact .inl ⟨rfl, rfl⟩
  · obtain ⟨⟨c, u⟩, hc, h⟩ := Option.bind_eq_some_iff.1 h
    obtain ⟨⟨cs, r⟩, hcs, h⟩ := Option.bind_eq_some_iff.1 h
    obtain ⟨rfl, rfl⟩ := Prod.mk.inj (Option.some.inj h)
    exact .inr ⟨c, cs, u, hc, hcs, rfl⟩

theorem scanString_step {n : ℕ} {p u cs t : Str} {c : Char} (hc : scanChar D p = some (c, u))
    (hcs : scanString D n u = some (cs, t)) : scanString D (n + 1) p = some (c :: cs, t) := by
  rw [scanString.eq_def]
  dsimp only
  split
  · rw [scanChar.eq_def] at hc
    simp at hc
  · simp only [hc, Option.bind_eq_bind, Option.bind_some, hcs]
    rfl

theorem scanString_append : ∀ {n m : ℕ} {p v t : Str}, scanString D n p = some (v, t) → n ≤ m →
    ∀ q, scanString D m (p ++ q) = some (v, t ++ q) := by
  intro n
  induction n with
  | zero => exact fun h => absurd h (by simp [scanString])
  | succ n ih =>
    intro m p v t h hm q
    obtain ⟨m, rfl⟩ := Nat.exists_eq_succ_of_ne_zero (by omega : m ≠ 0)
    rcases scanString_succ h with ⟨rfl, rfl⟩ | ⟨c, cs, u, hc, hcs, rfl⟩
    · rfl
    · have hne : u ≠ [] := by
        rintro rfl
        rw [scanString_nil] at hcs
        contradiction
      have hne' : u ≠ ['\\'] := by
        rintro rfl
        rw [scanString_backslash] at hcs
        contradiction
      exact scanString_step (scanChar_append hc hne hne' q) (ih hcs (by omega) q)

theorem span_append_rest {f : Char → Bool} {p ds t : Str} (h : p.span f = (ds, t)) (ht : t ≠ [])
    (q : Str) : (p ++ q).span f = (ds, t ++ q) := by
  rw [List.span_eq_takeWhile_dropWhile] at h
  obtain ⟨hds, hrest⟩ := Prod.mk.inj h
  obtain ⟨c, t, rfl⟩ := List.exists_cons_of_ne_nil ht
  have hp : p = ds ++ c :: t := by rw [← hds, ← hrest, List.takeWhile_append_dropWhile]
  have hc : f c = false := by
    have hhead := List.head?_dropWhile_not f p
    rw [hrest] at hhead
    simpa using hhead
  have hall : ∀ d ∈ ds, f d = true := fun d hd => List.mem_takeWhile_imp (hds.symm ▸ hd)
  rw [hp, List.append_assoc]
  exact span_append hall (by simpa using hc)

theorem intPart_append {p ds t : Str} (h : intPart p = some (ds, t)) (ht : t ≠ []) (q : Str) :
    intPart (p ++ q) = some (ds, t ++ q) := by
  rw [intPart.eq_def] at h
  split at h
  · obtain ⟨rfl, rfl⟩ := Prod.mk.inj (Option.some.inj h)
    rfl
  · rename_i c u hc
    split_ifs at h with hdigit
    have hspan := span_append_rest (Option.some.inj h) ht q
    rw [List.cons_append] at hspan ⊢
    rw [intPart, if_pos hdigit, hspan]
    exact hc
  · contradiction

theorem intPart_head {p ds t : Str} (h : intPart p = some (ds, t)) :
    ∃ c u, p = c :: u ∧ c.isDigit = true := by
  rw [intPart.eq_def] at h
  split at h
  · exact ⟨_, _, rfl, by decide⟩
  · split_ifs at h with hdigit
    exact ⟨_, _, rfl, hdigit⟩
  · contradiction

theorem fracPart_rest {p : Str} (ht : (fracPart p).2 ≠ [])
    (hdot : ∀ u, (fracPart p).2 ≠ '.' :: u) (q : Str) :
    fracPart (p ++ q) = ((fracPart p).1, (fracPart p).2 ++ q) := by
  rw [fracPart.eq_def] at ht hdot
  rw [fracPart.eq_def p]
  split at ht
  · rename_i u
    split at ht
    · rename_i v hspan
      simp only [hspan] at hdot
      exact absurd rfl (hdot u)
    · rename_i ds v hds hspan
      have hspan' := span_append_rest hspan ht q
      simp only [List.cons_append, fracPart, hspan']
  · rename_i hp
    cases p with
    | nil => exact absurd rfl ht
    | cons c u =>
      rw [List.cons_append, fracPart]
      intro v hv
      exact hp u (by rw [(List.cons.inj hv).1])

theorem signPart_rest {p : Str} (ht : (signPart p).2 ≠ []) (q : Str) :
    signPart (p ++ q) = ((signPart p).1, (signPart p).2 ++ q) := by
  match p, ht with
  | '+' :: u, _ => rfl
  | '-' :: u, _ => rfl
  | [], ht => exact absurd rfl ht
  | c :: u, _ =>
    rw [List.cons_append, signPart.eq_def, signPart.eq_def (c :: u)]
    split <;> simp_all

theorem expPart_rest {p : Str} (ht : (expPart p).2 ≠ [])
    (he : ∀ c u, (expPart p).2 = c :: u → c ≠ 'e' ∧ c ≠ 'E') (q : Str) :
    expPart (p ++ q) = ((expPart p).1, (expPart p).2 ++ q) := by
  cases p with
  | nil => exact absurd rfl ht
  | cons c u =>
    rw [expPart] at ht he
    rw [List.cons_append, expPart, expPart]
    by_cases hc : c = 'e' ∨ c = 'E'
    · simp only [if_pos hc] at ht he ⊢
      cases hspan : (signPart u).2.span Char.isDigit with
      | mk ds v =>
        cases ds with
        | nil =>
          simp only [hspan] at he
          have := he c u rfl
          tauto
        | cons d ds =>
          simp only [hspan] at ht
          have hspan' := span_append_rest hspan ht q
          have hne : (signPart u).2 ≠ [] := by
            intro h0
            rw [h0] at hspan
            exact absurd hspan (by simp [List.span_eq_takeWhile_dropWhile])
          simp only [signPart_rest hne q, hspan']
    · simp only [if_neg hc, List.cons_append]

theorem scanUnsigned_rest {negative : Bool} {p t : Str} {v : Json}
    (h : scanUnsigned D negative p = some (v, t)) (ht : t ≠ []) (hdel : Delimited t) (q : Str) :
    scanUnsigned D negative (p ++ q) = some (v, t ++ q) := by
  rw [scanUnsigned] at h
  cases hint : intPart p with
  | none =>
    rw [hint] at h
    contradiction
  | some m =>
    obtain ⟨ds, u⟩ := m
    simp only [hint] at h
    have hrest : (expPart (fracPart u).2).2 = t := by
      split_ifs at h
      · exact (Prod.mk.inj (Option.some.inj h)).2
      · exact (Prod.mk.inj (Option.some.inj h)).2
    have hexp := expPart_rest (p := (fracPart u).2) (by rw [hrest]; exact ht)
      (by
        rw [hrest]
        rintro c w rfl
        constructor <;> rintro rfl
        · exact hdel.ne (d := 'e') (by decide) w rfl
        · exact hdel.ne (d := 'E') (by decide) w rfl) q
    have hne : (fracPart u).2 ≠ [] := by
      intro h0
      rw [h0] at hrest
      exact ht hrest.symm
    have hdot : ∀ w, (fracPart u).2 ≠ '.' :: w := by
      intro w h0
      rw [h0] at hrest
      exact hdel.ne (by decide) w hrest.symm
    have hfrac := fracPart_rest hne hdot q
    have hne' : u ≠ [] := by
      rintro rfl
      exact hne rfl
    have hint' := intPart_append hint hne' q
    rw [scanUnsigned, hint']
    simp only [hfrac, hexp, hrest]
    split_ifs at h ⊢
    · rw [(Prod.mk.inj (Option.some.inj h)).1]
    · rw [(Prod.mk.inj (Option.some.inj h)).1]

theorem scanUnsigned_head {negative : Bool} {p t : Str} {v : Json}
    (h : scanUnsigned D negative p = some (v, t)) : ∃ c u, p = c :: u ∧ c.isDigit = true := by
  rw [scanUnsigned] at h
  cases hint : intPart p with
  | none =>
    rw [hint] at h
    contradiction
  | some m => exact intPart_head hint

theorem scanAtom_rest {p t : Str} {v : Json} (h : scanAtom D p = some (v, t)) (ht : t ≠ [])
    (hdel : Delimited t) (q : Str) : scanAtom D (p ++ q) = some (v, t ++ q) := by
  rw [scanAtom.eq_def] at h
  split_ifs at h with h1 h2 h3 h4 h5 h6
  · obtain ⟨u, rfl⟩ := h1
    obtain ⟨rfl, rfl⟩ := Prod.mk.inj (Option.some.inj h)
    rfl
  · obtain ⟨u, rfl⟩ := h2
    obtain ⟨rfl, rfl⟩ := Prod.mk.inj (Option.some.inj h)
    rfl
  · obtain ⟨u, rfl⟩ := h3
    obtain ⟨rfl, rfl⟩ := Prod.mk.inj (Option.some.inj h)
    rfl
  · obtain ⟨u, rfl⟩ := h4
    obtain ⟨rfl, rfl⟩ := Prod.mk.inj (Option.some.inj h)
    rfl
  · obtain ⟨u, rfl⟩ := h5
    obtain ⟨rfl, rfl⟩ := Prod.mk.inj (Option.some.inj h)
    rfl
  · obtain ⟨u, rfl⟩ := h6
    obtain ⟨rfl, rfl⟩ := Prod.mk.inj (Option.some.inj h)
    rfl
  · split at h
    · have hrest := scanUnsigned_rest h ht hdel q
      obtain ⟨c, u, rfl, hc⟩ := scanUnsigned_head h
      exact (scanAtom_digit true hc (u ++ q)).trans hrest
    · have hrest := scanUnsigned_rest h ht hdel q
      obtain ⟨c, u, rfl, hc⟩ := scanUnsigned_head h
      exact (scanAtom_digit false hc (u ++ q)).trans hrest

theorem scanUnsigned_kind {negative : Bool} {p t : Str} {v : Json}
    (h : scanUnsigned D negative p = some (v, t)) : kind v = 3 := by
  rw [scanUnsigned] at h
  split at h
  · contradiction
  · dsimp only at h
    split_ifs at h
    · rw [← (Prod.mk.inj (Option.some.inj h)).1]
      rfl
    · rw [← (Prod.mk.inj (Option.some.inj h)).1]
      rfl

/-- What is read as an atom is one, and its first character shows it. -/
theorem scanAtom_lead {p t : Str} {v : Json} (h : scanAtom D p = some (v, t)) :
    kind v < 4 ∧ ∃ c u, p = c :: u ∧ leadKind c < 4 := by
  rw [scanAtom.eq_def] at h
  split_ifs at h with h1 h2 h3 h4 h5 h6
  · obtain ⟨u, rfl⟩ := h1
    rw [← (Prod.mk.inj (Option.some.inj h)).1]
    exact ⟨by decide, _, _, rfl, by decide⟩
  · obtain ⟨u, rfl⟩ := h2
    rw [← (Prod.mk.inj (Option.some.inj h)).1]
    exact ⟨by decide, _, _, rfl, by decide⟩
  · obtain ⟨u, rfl⟩ := h3
    rw [← (Prod.mk.inj (Option.some.inj h)).1]
    exact ⟨by decide, _, _, rfl, by decide⟩
  · obtain ⟨u, rfl⟩ := h4
    rw [← (Prod.mk.inj (Option.some.inj h)).1]
    exact ⟨by simp [kind], _, _, rfl, by decide⟩
  · obtain ⟨u, rfl⟩ := h5
    rw [← (Prod.mk.inj (Option.some.inj h)).1]
    exact ⟨by simp [kind], _, _, rfl, by decide⟩
  · obtain ⟨u, rfl⟩ := h6
    rw [← (Prod.mk.inj (Option.some.inj h)).1]
    exact ⟨by simp [kind], _, _, rfl, by decide⟩
  · split at h
    · have hkind := scanUnsigned_kind h
      exact ⟨by omega, _, _, rfl, by decide⟩
    · have hkind := scanUnsigned_kind h
      obtain ⟨c, u, rfl, hc⟩ := scanUnsigned_head h
      have hlead := leadKind_startsNumber (by simp [startsNumber, hc] : startsNumber c = true)
      exact ⟨by omega, c, u, rfl, by omega⟩

theorem skipBlank_eq {t : Str} : ∃ w, Blank w ∧ t = w ++ skipBlank t := by
  refine ⟨t.takeWhile isBlank, fun c hc => List.mem_takeWhile_imp hc, ?_⟩
  rw [skipBlank, List.takeWhile_append_dropWhile]

theorem skipBlank_head {t u : Str} {c : Char} (h : skipBlank t = c :: u) : isBlank c = false := by
  have hhead := List.head?_dropWhile_not isBlank t
  rw [show t.dropWhile isBlank = c :: u from h] at hhead
  simpa using hhead

theorem skipBlank_rest {t : Str} (h : skipBlank t ≠ []) (q : Str) :
    skipBlank (t ++ q) = skipBlank t ++ q := by
  obtain ⟨w, hw, ht⟩ := skipBlank_eq (t := t)
  obtain ⟨c, u, hcu⟩ := List.exists_cons_of_ne_nil h
  rw [ht, hcu, List.append_assoc, List.cons_append, skipBlank_to hw (skipBlank_head hcu),
    skipBlank_to hw (skipBlank_head hcu), List.cons_append]

/-! What a successful step of each reader has read. -/

theorem scanElems_succ {n : ℕ} {p r : Str} {xs : List Json}
    (h : scanElems D (n + 1) p = some (xs, r)) :
    (∃ v w, Blank w ∧ scanOnce D n p = some (v, w ++ ']' :: r) ∧ xs = [v]) ∨
      ∃ v vs w t, Blank w ∧ scanOnce D n p = some (v, w ++ ',' :: t) ∧
        scanElems D n (skipBlank t) = some (vs, r) ∧ xs = v :: vs := by
  rw [scanElems] at h
  cases hv : scanOnce D n p with
  | none =>
    rw [hv] at h
    contradiction
  | some m =>
    obtain ⟨v, t⟩ := m
    obtain ⟨w, hw, ht⟩ := skipBlank_eq (t := t)
    simp only [hv] at h
    split at h
    · rename_i u hu
      obtain ⟨rfl, rfl⟩ := Prod.mk.inj (Option.some.inj h)
      rw [hu] at ht
      exact .inl ⟨v, w, hw, by rw [ht], rfl⟩
    · rename_i u hu
      obtain ⟨⟨vs, r'⟩, hvs, h⟩ := Option.map_eq_some_iff.1 h
      obtain ⟨rfl, rfl⟩ := Prod.mk.inj h
      rw [hu] at ht
      exact .inr ⟨v, vs, w, u, hw, by rw [ht], hvs, rfl⟩
    · contradiction

theorem scanMembers_succ {n : ℕ} {p r : Str} {ms : List (Str × Json)}
    (h : scanMembers D (n + 1) p = some (ms, r)) :
    ∃ s k v w u w', p = '"' :: s ∧ Blank w ∧ Blank w' ∧
      scanString D n s = some (k, w ++ ':' :: u) ∧
      ((scanOnce D n (skipBlank u) = some (v, w' ++ '}' :: r) ∧ ms = [(k, v)]) ∨
        ∃ t ms', scanOnce D n (skipBlank u) = some (v, w' ++ ',' :: t) ∧
          scanMembers D n (skipBlank t) = some (ms', r) ∧ ms = (k, v) :: ms') := by
  rw [scanMembers.eq_def] at h
  dsimp only at h
  split at h
  · rename_i s
    split at h
    · contradiction
    · rename_i k t hk
      obtain ⟨w, hw, ht⟩ := skipBlank_eq (t := t)
      split at h
      · rename_i u hu
        rw [hu] at ht
        split at h
        · contradiction
        · rename_i v x hv
          obtain ⟨w', hw', hx⟩ := skipBlank_eq (t := x)
          split at h
          · rename_i y hy
            obtain ⟨rfl, rfl⟩ := Prod.mk.inj (Option.some.inj h)
            rw [hy] at hx
            exact ⟨s, k, v, w, u, w', rfl, hw, hw', by rw [hk, ht], .inl ⟨by rw [hv, hx], rfl⟩⟩
          · rename_i y hy
            obtain ⟨⟨ms', r'⟩, hms, h⟩ := Option.map_eq_some_iff.1 h
            obtain ⟨rfl, rfl⟩ := Prod.mk.inj h
            rw [hy] at hx
            exact ⟨s, k, v, w, u, w', rfl, hw, hw', by rw [hk, ht],
              .inr ⟨y, ms', by rw [hv, hx], hms, rfl⟩⟩
          · contradiction
      · contradiction
  · contradiction

theorem scanOnce_succ {n : ℕ} {p t : Str} {v : Json} (h : scanOnce D (n + 1) p = some (v, t)) :
    (∃ u s, p = '"' :: u ∧ scanString D n u = some (s, t) ∧ v = .str s) ∨
    (∃ u, p = '{' :: u ∧ ((skipBlank u = '}' :: t ∧ v = .obj []) ∨
      ∃ ms, scanMembers D n (skipBlank u) = some (ms, t) ∧ v = .obj (dictOf ms))) ∨
    (∃ u, p = '[' :: u ∧ ((skipBlank u = ']' :: t ∧ v = .arr []) ∨
      ∃ xs, (∀ y, skipBlank u ≠ ']' :: y) ∧ scanElems D n (skipBlank u) = some (xs, t) ∧
        v = .arr xs)) ∨
    scanAtom D p = some (v, t) := by
  rw [scanOnce.eq_def] at h
  dsimp only at h
  split at h
  · rename_i u
    obtain ⟨⟨s, r⟩, hs, h⟩ := Option.map_eq_some_iff.1 h
    obtain ⟨rfl, rfl⟩ := Prod.mk.inj h
    exact .inl ⟨u, s, rfl, hs, rfl⟩
  · rename_i u
    split at h
    · rename_i y hy
      obtain ⟨rfl, rfl⟩ := Prod.mk.inj (Option.some.inj h)
      exact .inr (.inl ⟨u, rfl, .inl ⟨hy, rfl⟩⟩)
    · obtain ⟨⟨ms, r⟩, hms, h⟩ := Option.map_eq_some_iff.1 h
      obtain ⟨rfl, rfl⟩ := Prod.mk.inj h
      exact .inr (.inl ⟨u, rfl, .inr ⟨ms, hms, rfl⟩⟩)
  · rename_i u
    split at h
    · rename_i y hy
      obtain ⟨rfl, rfl⟩ := Prod.mk.inj (Option.some.inj h)
      exact .inr (.inr (.inl ⟨u, rfl, .inl ⟨hy, rfl⟩⟩))
    · rename_i hne
      obtain ⟨⟨xs, r⟩, hxs, h⟩ := Option.map_eq_some_iff.1 h
      obtain ⟨rfl, rfl⟩ := Prod.mk.inj h
      exact .inr (.inr (.inl ⟨u, rfl, .inr ⟨xs, hne, hxs, rfl⟩⟩))
  · exact .inr (.inr (.inr h))

theorem scanMembers_head {n : ℕ} {p r : Str} {ms : List (Str × Json)}
    (h : scanMembers D n p = some (ms, r)) : ∃ s, p = '"' :: s := by
  cases n with
  | zero => simp [scanMembers] at h
  | succ n =>
    obtain ⟨s, _, _, _, _, _, rfl, _⟩ := scanMembers_succ h
    exact ⟨s, rfl⟩

/-- The end of a value shows in its text: a number must be followed by something. -/
def Ended (v : Json) (t : Str) : Prop := kind v < 4 → t ≠ [] ∧ Delimited t

theorem ended_blank {v : Json} {w : Str} (hw : Blank w) {c : Char} (hc : isNumberChar c = false)
    (t : Str) : Ended v (w ++ c :: t) :=
  fun _ => ⟨by simp, delimited_blank hw hc t⟩

/-- The readers of one depth do not depend on what follows. -/
structure Extends (D : Decoder) (n : ℕ) : Prop where
  value : ∀ {m : ℕ} {p t : Str} {v : Json}, scanOnce D n p = some (v, t) → Ended v t → n ≤ m →
    ∀ q, scanOnce D m (p ++ q) = some (v, t ++ q)
  members : ∀ {m : ℕ} {p t : Str} {ms : List (Str × Json)}, scanMembers D n p = some (ms, t) →
    n ≤ m → ∀ q, scanMembers D m (p ++ q) = some (ms, t ++ q)
  elems : ∀ {m : ℕ} {p t : Str} {xs : List Json}, scanElems D n p = some (xs, t) →
    n ≤ m → ∀ q, scanElems D m (p ++ q) = some (xs, t ++ q)

theorem scanOnce_nil (n : ℕ) : scanOnce D n [] = none := by
  cases n <;> rfl

theorem scanMembers_nil (n : ℕ) : scanMembers D n [] = none := by
  cases n <;> rfl

theorem scanElems_nil (n : ℕ) : scanElems D n [] = none := by
  cases n with
  | zero => rfl
  | succ n => rw [scanElems, scanOnce_nil]

/-- A reader that succeeds past the white space had something left to read. -/
theorem skipBlank_ne_nil {α : Type} {f : Str → Option α} {t : Str} {a : α} (hf : f [] = none)
    (h : f (skipBlank t) = some a) : skipBlank t ≠ [] := by
  intro h0
  rw [h0, hf] at h
  contradiction

theorem Extends.elems_step {n : ℕ} (ih : Extends D n) {m : ℕ} {p r : Str} {xs : List Json}
    (h : scanElems D (n + 1) p = some (xs, r)) (hm : n ≤ m) (q : Str) :
    scanElems D (m + 1) (p ++ q) = some (xs, r ++ q) := by
  rcases scanElems_succ h with ⟨v, w, hw, hv, rfl⟩ | ⟨v, vs, w, t, hw, hv, hvs, rfl⟩
  · have hv' := ih.value hv (ended_blank hw (by decide) r) hm q
    rw [List.append_assoc] at hv'
    exact scanElems_last hw hv'
  · have hv' := ih.value hv (ended_blank hw (by decide) t) hm q
    rw [List.append_assoc] at hv'
    have hvs' := ih.elems hvs hm q
    rw [← skipBlank_rest (skipBlank_ne_nil (scanElems_nil n) hvs) q] at hvs'
    exact scanElems_more hw hv' hvs'

theorem Extends.members_step {n : ℕ} (ih : Extends D n) {m : ℕ} {p r : Str}
    {ms : List (Str × Json)} (h : scanMembers D (n + 1) p = some (ms, r)) (hm : n ≤ m) (q : Str) :
    scanMembers D (m + 1) (p ++ q) = some (ms, r ++ q) := by
  obtain ⟨s, k, v, w, u, w', rfl, hw, hw', hk, hv⟩ := scanMembers_succ h
  have hk' := scanString_append hk hm q
  rw [List.append_assoc] at hk'
  rcases hv with ⟨hv, rfl⟩ | ⟨t, ms', hv, hms, rfl⟩
  · have hv' := ih.value hv (ended_blank hw' (by decide) r) hm q
    rw [← skipBlank_rest (skipBlank_ne_nil (scanOnce_nil n) hv) q, List.append_assoc] at hv'
    exact scanMembers_last hw hw' hk' hv'
  · have hv' := ih.value hv (ended_blank hw' (by decide) t) hm q
    rw [← skipBlank_rest (skipBlank_ne_nil (scanOnce_nil n) hv) q, List.append_assoc] at hv'
    have hms' := ih.members hms hm q
    rw [← skipBlank_rest (skipBlank_ne_nil (scanMembers_nil n) hms) q] at hms'
    exact scanMembers_more hw hw' hk' hv' hms'

theorem Extends.value_step {n : ℕ} (ih : Extends D n) {m : ℕ} {p t : Str} {v : Json}
    (h : scanOnce D (n + 1) p = some (v, t)) (hend : Ended v t) (hm : n ≤ m) (q : Str) :
    scanOnce D (m + 1) (p ++ q) = some (v, t ++ q) := by
  rcases scanOnce_succ h with ⟨u, s, rfl, hs, rfl⟩ | ⟨u, rfl, hobj⟩ | ⟨u, rfl, harr⟩ | hatom
  · show (scanString D m (u ++ q)).map _ = _
    rw [scanString_append hs hm q, Option.map_some]
  · rcases hobj with ⟨hu, rfl⟩ | ⟨ms, hms, rfl⟩
    · have hu' := skipBlank_rest (by rw [hu]; exact List.cons_ne_nil _ _) q
      rw [hu] at hu'
      rw [List.cons_append, scanOnce]
      simp only [hu', List.cons_append]
    · have hms' := ih.members hms hm q
      have hrest := skipBlank_rest (skipBlank_ne_nil (scanMembers_nil n) hms) q
      obtain ⟨s, hs⟩ := scanMembers_head hms
      rw [hs] at hms' hrest
      exact scanOnce_obj hrest hms'
  · rcases harr with ⟨hu, rfl⟩ | ⟨xs, hclose, hxs, rfl⟩
    · have hu' := skipBlank_rest (by rw [hu]; exact List.cons_ne_nil _ _) q
      rw [hu] at hu'
      rw [List.cons_append, scanOnce]
      simp only [hu', List.cons_append]
    · have hxs' := ih.elems hxs hm q
      have hne := skipBlank_ne_nil (scanElems_nil n) hxs
      have hrest := skipBlank_rest hne q
      obtain ⟨c, s, hs⟩ := List.exists_cons_of_ne_nil hne
      rw [hs] at hxs' hrest hclose
      exact scanOnce_arr (fun hc => hclose s (by rw [hc])) hrest hxs'
  · obtain ⟨hkind, c, u, rfl, hc⟩ := scanAtom_lead hatom
    obtain ⟨ht, hdel⟩ := hend hkind
    rw [List.cons_append, scanOnce_atom hc]
    exact scanAtom_rest hatom ht hdel q

theorem extends_all (n : ℕ) : Extends D n := by
  induction n with
  | zero =>
    exact ⟨fun h => by simp [scanOnce] at h, fun h => by simp [scanMembers] at h,
      fun h => by simp [scanElems] at h⟩
  | succ n ih =>
    refine ⟨fun {m _ _ _} h hend hm q => ?_, fun {m _ _ _} h hm q => ?_,
      fun {m _ _ _} h hm q => ?_⟩
    · obtain ⟨m, rfl⟩ : ∃ k, m = k + 1 := ⟨m - 1, by omega⟩
      exact ih.value_step h hend (by omega) q
    · obtain ⟨m, rfl⟩ : ∃ k, m = k + 1 := ⟨m - 1, by omega⟩
      exact ih.members_step h (by omega) q
    · obtain ⟨m, rfl⟩ : ∃ k, m = k + 1 := ⟨m - 1, by omega⟩
      exact ih.elems_step h (by omega) q

theorem rawDecode_append {p t : Str} {v : Json} (h : rawDecode D p = some (v, t))
    (hend : Ended v t) (q : Str) : rawDecode D (p ++ q) = some (v, t ++ q) :=
  (extends_all _).value h hend (by simp) q

theorem rawDecode_brace {p t : Str} {v : Json} (h : rawDecode D ('{' :: p) = some (v, t)) :
    kind v = 6 := by
  rcases scanOnce_succ h with ⟨u, s, hu, _⟩ | ⟨u, _, hobj⟩ | ⟨u, hu, _⟩ | hatom
  · exact absurd (List.cons.inj hu).1 (by decide)
  · rcases hobj with ⟨_, rfl⟩ | ⟨ms, _, rfl⟩
    · rfl
    · rfl
  · exact absurd (List.cons.inj hu).1 (by decide)
  · obtain ⟨_, c, u, hu, hc⟩ := scanAtom_lead hatom
    rw [← (List.cons.inj hu).1] at hc
    exact absurd hc (by decide)

/-- `t` is what is left of `p` when something has been read. -/
def Rest (p t : Str) : Prop := ∃ u, u ≠ [] ∧ p = u ++ t

theorem Rest.cons {p t : Str} (h : Rest p t) (c : Char) : Rest (c :: p) t := by
  obtain ⟨u, hu, rfl⟩ := h
  exact ⟨c :: u, List.cons_ne_nil _ _, rfl⟩

theorem rest_cons (c : Char) (t : Str) : Rest (c :: t) t := ⟨[c], List.cons_ne_nil _ _, rfl⟩

theorem Rest.trans {p t r : Str} (h : Rest p t) (h' : Rest t r) : Rest p r := by
  obtain ⟨u, hu, rfl⟩ := h
  obtain ⟨v, _, rfl⟩ := h'
  exact ⟨u ++ v, by simp [hu], by rw [List.append_assoc]⟩

theorem Rest.append {p w t : Str} (h : Rest p (w ++ t)) : Rest p t := by
  obtain ⟨u, hu, rfl⟩ := h
  exact ⟨u ++ w, by simp [hu], by rw [List.append_assoc]⟩

theorem Rest.prepend {p t : Str} (h : Rest p t) (w : Str) : Rest (w ++ p) t := by
  obtain ⟨u, hu, rfl⟩ := h
  exact ⟨w ++ u, by simp [hu], by rw [List.append_assoc]⟩

theorem Rest.length_lt {p t : Str} (h : Rest p t) : t.length < p.length := by
  obtain ⟨u, hu, rfl⟩ := h
  have hpos := List.length_pos_iff.mpr hu
  rw [List.length_append]
  omega

theorem Rest.of_skipBlank {p t : Str} (h : Rest (skipBlank p) t) : Rest p t := by
  obtain ⟨w, _, hw⟩ := skipBlank_eq (t := p)
  rw [hw]
  exact h.prepend w

theorem rest_decodeUXXXX {p t : Str} {n : ℕ} (h : decodeUXXXX p = some (n, t)) : Rest p t := by
  match p, h with
  | a :: b :: c :: d :: p, h =>
    simp only [decodeUXXXX] at h
    obtain ⟨_, _, h⟩ := Option.bind_eq_some_iff.1 h
    obtain ⟨_, _, h⟩ := Option.bind_eq_some_iff.1 h
    obtain ⟨_, _, h⟩ := Option.bind_eq_some_iff.1 h
    obtain ⟨_, _, h⟩ := Option.bind_eq_some_iff.1 h
    obtain ⟨_, rfl⟩ := Prod.mk.inj (Option.some.inj h)
    exact ⟨[a, b, c, d], List.cons_ne_nil _ _, rfl⟩

theorem rest_scanChar {p t : Str} {c : Char} (h : scanChar D p = some (c, t)) : Rest p t := by
  rw [scanChar.eq_def] at h
  split at h
  · rename_i p
    split at h
    · contradiction
    · rename_i n u hn
      have hu : Rest ('\\' :: 'u' :: p) u := ((rest_decodeUXXXX hn).cons _).cons _
      split_ifs at h
      · split at h
        · rename_i u'
          split at h
          · contradiction
          · rename_i m x hm
            have hx : Rest ('\\' :: 'u' :: u') x := ((rest_decodeUXXXX hm).cons _).cons _
            split_ifs at h
            · obtain ⟨_, rfl⟩ := Prod.mk.inj (Option.some.inj h)
              exact hu.trans hx
            · obtain ⟨_, rfl⟩ := Prod.mk.inj (Option.some.inj h)
              exact hu
        · obtain ⟨_, rfl⟩ := Prod.mk.inj (Option.some.inj h)
          exact hu
      · obtain ⟨_, rfl⟩ := Prod.mk.inj (Option.some.inj h)
        exact hu
  · obtain ⟨_, _, h⟩ := Option.map_eq_some_iff.1 h
    obtain ⟨_, rfl⟩ := Prod.mk.inj h
    exact (rest_cons _ _).cons _
  · split_ifs at h
    obtain ⟨_, rfl⟩ := Prod.mk.inj (Option.some.inj h)
    exact rest_cons _ _
  · contradiction

theorem rest_scanString : ∀ {n : ℕ} {p v t : Str}, scanString D n p = some (v, t) → Rest p t := by
  intro n
  induction n with
  | zero => exact fun h => absurd h (by simp [scanString])
  | succ n ih =>
    intro p v t h
    rcases scanString_succ h with ⟨rfl, _⟩ | ⟨c, cs, u, hc, hcs, _⟩
    · exact rest_cons _ _
    · exact (rest_scanChar hc).trans (ih hcs)

theorem span_eq_append {f : Char → Bool} {p ds t : Str} (h : p.span f = (ds, t)) : p = ds ++ t := by
  rw [List.span_eq_takeWhile_dropWhile] at h
  obtain ⟨rfl, rfl⟩ := Prod.mk.inj h
  exact (List.takeWhile_append_dropWhile).symm

theorem rest_intPart {p ds t : Str} (h : intPart p = some (ds, t)) : Rest p t := by
  rw [intPart.eq_def] at h
  split at h
  · obtain ⟨_, rfl⟩ := Prod.mk.inj (Option.some.inj h)
    exact rest_cons _ _
  · rename_i c u _
    split_ifs at h with hdigit
    have hspan := Option.some.inj h
    rw [List.span_eq_takeWhile_dropWhile] at hspan
    obtain ⟨hds, rfl⟩ := Prod.mk.inj hspan
    rw [List.takeWhile_cons_of_pos hdigit] at hds
    refine ⟨ds, hds ▸ List.cons_ne_nil _ _, ?_⟩
    exact span_eq_append (Option.some.inj h)
  · contradiction

theorem fracPart_eq_append (p : Str) : p = (fracPart p).1 ++ (fracPart p).2 := by
  rw [fracPart.eq_def]
  split
  · split
    · rfl
    · rename_i hspan
      rw [List.cons_append, ← span_eq_append hspan]
  · rfl

theorem signPart_eq_append (p : Str) : p = (signPart p).1 ++ (signPart p).2 := by
  rw [signPart.eq_def]
  split <;> rfl

theorem expPart_eq_append (p : Str) : p = (expPart p).1 ++ (expPart p).2 := by
  cases p with
  | nil => rfl
  | cons c t =>
    rw [expPart]
    split_ifs
    · split
      · rfl
      · rename_i hspan
        have hsign := signPart_eq_append t
        rw [span_eq_append hspan] at hsign
        simpa using hsign
    · rfl

theorem rest_scanUnsigned {negative : Bool} {p t : Str} {v : Json}
    (h : scanUnsigned D negative p = some (v, t)) : Rest p t := by
  rw [scanUnsigned] at h
  cases hint : intPart p with
  | none =>
    rw [hint] at h
    contradiction
  | some m =>
    obtain ⟨ds, u⟩ := m
    simp only [hint] at h
    have hrest : (expPart (fracPart u).2).2 = t := by
      split_ifs at h
      · exact (Prod.mk.inj (Option.some.inj h)).2
      · exact (Prod.mk.inj (Option.some.inj h)).2
    have hu := fracPart_eq_append u
    rw [expPart_eq_append (fracPart u).2, hrest] at hu
    have hint := rest_intPart hint
    rw [hu] at hint
    exact hint.append.append

theorem rest_scanAtom {p t : Str} {v : Json} (h : scanAtom D p = some (v, t)) : Rest p t := by
  rw [scanAtom.eq_def] at h
  have hname : ∀ {name : Str} {w : Json}, name ≠ [] → name <+: p →
      some (w, p.drop name.length) = some (v, t) → Rest p t := by
    rintro name w hne ⟨u, rfl⟩ heq
    obtain ⟨_, rfl⟩ := Prod.mk.inj (Option.some.inj heq)
    exact ⟨name, hne, by rw [List.drop_left]⟩
  split_ifs at h with h1 h2 h3 h4 h5 h6
  · exact hname (by decide) h1 h
  · exact hname (by decide) h2 h
  · exact hname (by decide) h3 h
  · exact hname (by decide) h4 h
  · exact hname (by decide) h5 h
  · exact hname (by decide) h6 h
  · split at h
    · exact (rest_scanUnsigned h).cons _
    · exact rest_scanUnsigned h

/-- The readers of one depth leave a proper suffix. -/
structure Consumes (D : Decoder) (n : ℕ) : Prop where
  value : ∀ {p t : Str} {v : Json}, scanOnce D n p = some (v, t) → Rest p t
  members : ∀ {p t : Str} {ms : List (Str × Json)}, scanMembers D n p = some (ms, t) → Rest p t
  elems : ∀ {p t : Str} {xs : List Json}, scanElems D n p = some (xs, t) → Rest p t

theorem consumes_all (n : ℕ) : Consumes D n := by
  induction n with
  | zero =>
    exact ⟨fun h => by simp [scanOnce] at h, fun h => by simp [scanMembers] at h,
      fun h => by simp [scanElems] at h⟩
  | succ n ih =>
    refine ⟨fun {p t v} h => ?_, fun {p t ms} h => ?_, fun {p t xs} h => ?_⟩
    · rcases scanOnce_succ h with ⟨u, s, rfl, hs, _⟩ | ⟨u, rfl, hobj⟩ | ⟨u, rfl, harr⟩ | hatom
      · exact (rest_scanString hs).cons _
      · rcases hobj with ⟨hu, _⟩ | ⟨ms, hms, _⟩
        · have hclose : Rest (skipBlank u) t := hu ▸ rest_cons _ _
          exact hclose.of_skipBlank.cons _
        · exact (ih.members hms).of_skipBlank.cons _
      · rcases harr with ⟨hu, _⟩ | ⟨xs, _, hxs, _⟩
        · have hclose : Rest (skipBlank u) t := hu ▸ rest_cons _ _
          exact hclose.of_skipBlank.cons _
        · exact (ih.elems hxs).of_skipBlank.cons _
      · exact rest_scanAtom hatom
    · obtain ⟨s, k, v, w, u, w', rfl, _, _, hk, hv⟩ := scanMembers_succ h
      have hkey : Rest ('"' :: s) u := ((rest_scanString hk).append.trans (rest_cons _ _)).cons _
      rcases hv with ⟨hv, _⟩ | ⟨x, ms', hv, hms, _⟩
      · have hvalue : Rest u t := (ih.value hv).of_skipBlank.append.trans (rest_cons _ _)
        exact hkey.trans hvalue
      · have hvalue : Rest u x := (ih.value hv).of_skipBlank.append.trans (rest_cons _ _)
        exact (hkey.trans hvalue).trans (ih.members hms).of_skipBlank
    · rcases scanElems_succ h with ⟨v, w, _, hv, _⟩ | ⟨v, vs, w, x, _, hv, hvs, _⟩
      · exact (ih.value hv).append.trans (rest_cons _ _)
      · have hvalue : Rest p x := (ih.value hv).append.trans (rest_cons _ _)
        exact hvalue.trans (ih.elems hvs).of_skipBlank

theorem rest_rawDecode {p t : Str} {v : Json} (h : rawDecode D p = some (v, t)) : Rest p t :=
  (consumes_all _).value h

/-! ## Where no integer is too long

A decoder that succeeds has met no integer with too many digits. -/

theorem excessUnsigned_eq_none {negative : Bool} {p t : Str} {v : Json}
    (h : scanUnsigned D negative p = some (v, t)) : excessUnsigned p = none := by
  rw [scanUnsigned] at h
  rw [excessUnsigned]
  split at h
  · contradiction
  · rename_i ds u hint
    dsimp only at h
    rw [if_neg]
    rintro ⟨hfrac, hexp, hlong⟩
    rw [if_pos ⟨hfrac, hexp⟩, if_neg (not_le.mpr hlong)] at h
    contradiction

theorem excessAtom_eq_none {p t : Str} {v : Json} (h : scanAtom D p = some (v, t)) :
    excessAtom p = none := by
  rw [scanAtom.eq_def] at h
  split_ifs at h with h1 h2 h3 h4 h5 h6
  · obtain ⟨u, rfl⟩ := h1
    rfl
  · obtain ⟨u, rfl⟩ := h2
    rfl
  · obtain ⟨u, rfl⟩ := h3
    rfl
  · obtain ⟨u, rfl⟩ := h4
    rfl
  · obtain ⟨u, rfl⟩ := h5
    rfl
  · obtain ⟨u, rfl⟩ := h6
    rfl
  · split at h
    · exact excessUnsigned_eq_none h
    · rename_i hminus
      rw [excessAtom.eq_def]
      split
      · exact absurd rfl (hminus _)
      · exact excessUnsigned_eq_none h

/-- The readers of one depth meet no long integer where they succeed. -/
structure Unexceeded (D : Decoder) (n : ℕ) : Prop where
  value : ∀ {p t : Str} {v : Json}, scanOnce D n p = some (v, t) → excessOnce D n p = none
  members : ∀ {p t : Str} {ms : List (Str × Json)}, scanMembers D n p = some (ms, t) →
    excessMembers D n p = none
  elems : ∀ {p t : Str} {xs : List Json}, scanElems D n p = some (xs, t) →
    excessElems D n p = none

theorem unexceeded_all (n : ℕ) : Unexceeded D n := by
  induction n with
  | zero => exact ⟨fun _ => rfl, fun _ => rfl, fun _ => rfl⟩
  | succ n ih =>
    refine ⟨fun {p t v} h => ?_, fun {p t ms} h => ?_, fun {p t xs} h => ?_⟩
    · rcases scanOnce_succ h with ⟨u, s, rfl, _, _⟩ | ⟨u, rfl, hobj⟩ | ⟨u, rfl, harr⟩ | hatom
      · rfl
      · rw [excessOnce]
        split
        · rfl
        · rename_i hclose
          rcases hobj with ⟨hu, _⟩ | ⟨ms, hms, _⟩
          · exact absurd hu (hclose _)
          · exact ih.members hms
      · rw [excessOnce]
        split
        · rfl
        · rename_i hclose
          rcases harr with ⟨hu, _⟩ | ⟨xs, _, hxs, _⟩
          · exact absurd hu (hclose _)
          · exact ih.elems hxs
      · obtain ⟨_, c, u, rfl, hc⟩ := scanAtom_lead hatom
        rw [excessOnce.eq_def]
        dsimp only
        split
        · rfl
        · rename_i heq
          rw [(List.cons.inj heq).1] at hc
          exact absurd hc (by decide)
        · rename_i heq
          rw [(List.cons.inj heq).1] at hc
          exact absurd hc (by decide)
        · exact excessAtom_eq_none hatom
    · obtain ⟨s, k, v, w, u, w', rfl, hw, hw', hk, hv⟩ := scanMembers_succ h
      rw [excessMembers, hk]
      dsimp only
      rw [skipBlank_to hw (by decide)]
      rcases hv with ⟨hv, _⟩ | ⟨x, ms', hv, hms, _⟩
      · simp only [hv, skipBlank_to hw' (by decide : isBlank '}' = false)]
        rfl
      · simp only [hv, skipBlank_to hw' (by decide : isBlank ',' = false)]
        exact ih.members hms
    · rcases scanElems_succ h with ⟨v, w, hw, hv, _⟩ | ⟨v, vs, w, x, hw, hv, hvs, _⟩
      · rw [excessElems, hv]
        dsimp only
        rw [skipBlank_to hw (by decide)]
        rfl
      · rw [excessElems, hv]
        dsimp only
        rw [skipBlank_to hw (by decide)]
        exact ih.elems hvs

theorem excess_eq_none {p t : Str} {v : Json} (h : rawDecode D p = some (v, t)) :
    excess D p = none :=
  (unexceeded_all _).value h

/-! A value that cannot be read stops the object it stands in. -/

theorem scanMembers_none {n : ℕ} {k s w u : Str} (hw : Blank w)
    (hk : scanString D n s = some (k, w ++ ':' :: u)) (hv : scanOnce D n (skipBlank u) = none) :
    scanMembers D (n + 1) ('"' :: s) = none ∧
      excessMembers D (n + 1) ('"' :: s) = excessOnce D n (skipBlank u) := by
  have hskip := skipBlank_to hw (by decide : isBlank ':' = false) u
  simp only [scanMembers, excessMembers, hk, hskip, hv, and_self]

theorem scanOnce_obj_none {n : ℕ} {t u : Str} (ht : skipBlank t = '"' :: u)
    (hms : scanMembers D n ('"' :: u) = none) :
    scanOnce D (n + 1) ('{' :: t) = none ∧
      excessOnce D (n + 1) ('{' :: t) = excessMembers D n ('"' :: u) := by
  constructor
  · rw [scanOnce, ht]
    show (scanMembers D n ('"' :: u)).map _ = _
    rw [hms, Option.map_none]
  · rw [excessOnce, ht]
    rfl

end AegisCode.Json
