import Mathlib.Data.Char
import Mathlib.Data.List.Lex
import Mathlib.Tactic

/-!
# Text

Strings are lists of Unicode scalar values, so that every function on them is a
list recursion. Below are the string methods the rest of the development needs,
under the names they have in Python.
-/
namespace AegisCode

/-- Text: a list of Unicode scalar values. -/
abbrev Str := List Char

instance : Coe String Str := ⟨String.toList⟩

/-- Decided over the characters of the text, not over all characters. -/
instance (priority := 2000) decidableForallMem (s : Str) (p : Char → Prop) [DecidablePred p] :
    Decidable (∀ c ∈ s, p c) := List.decidableBAll p s

instance (priority := 2000) decidableForallHead (o : Option Char) (p : Char → Prop) [DecidablePred p] :
    Decidable (∀ c ∈ o, p c) := Option.decidableForallMem o

instance (priority := 2000) lawfulBEqStr : LawfulBEq Str := inferInstanceAs (LawfulBEq (List Char))

namespace Str

/-- `s.startswith(p)`. -/
def startsWith (s p : Str) : Bool := p.isPrefixOf s

theorem startsWith_iff {s p : Str} : startsWith s p = true ↔ p <+: s :=
  List.isPrefixOf_iff_prefix

/-- `p in s` for strings: `p` occurs somewhere in `s`. -/
def contains (p : Str) : Str → Bool
  | [] => p.isEmpty
  | c :: s => p.isPrefixOf (c :: s) || contains p s

/-- White space, as `isspace` and the class `\\s` of a regular expression have it. -/
def isSpace (c : Char) : Bool :=
  (9 ≤ c.toNat ∧ c.toNat ≤ 13) ∨ (0x1c ≤ c.toNat ∧ c.toNat ≤ 0x20) ∨ c.toNat = 0x85 ∨
    c.toNat = 0xa0 ∨ c.toNat = 0x1680 ∨ (0x2000 ≤ c.toNat ∧ c.toNat ≤ 0x200a) ∨
    c.toNat = 0x2028 ∨ c.toNat = 0x2029 ∨ c.toNat = 0x202f ∨ c.toNat = 0x205f ∨ c.toNat = 0x3000

/-- `s.split(sep, 1)`: what stands before and after the first separator. -/
def partition (sep : Char) (s : Str) : Str × Option Str :=
  match s.span (· ≠ sep) with
  | (a, []) => (a, none)
  | (a, _ :: b) => (a, some b)

/-- `sep.join(xs)`. -/
def join (sep : Str) (xs : List Str) : Str := sep.intercalate xs

/-- One character inside the quotes of a `repr`. -/
def reprChar (quote c : Char) : Str :=
  if c = quote ∨ c = '\\' then ['\\', c]
  else if c = '\n' then "\\n" else if c = '\r' then "\\r" else if c = '\t' then "\\t"
  else if c.toNat < 0x20 ∨ (0x7f ≤ c.toNat ∧ c.toNat < 0xa1) ∨ c.toNat = 0xad then
    "\\x".toList ++ (Nat.toDigits 16 (0x100 + c.toNat)).drop 1
  else [c]

/-- `repr(s)`, with every character beyond U+00FF taken for a printable one. -/
def repr (s : Str) : Str :=
  let quote := if '\'' ∈ s ∧ '"' ∉ s then '"' else '\''
  quote :: (s.flatMap (reprChar quote) ++ [quote])

/-- `repr` of a list of strings. -/
def reprList (xs : List Str) : Str :=
  '[' :: (join ", " (xs.map repr) ++ [']'])

end Str

/-- A part without `d` at the front of a text ends before the first `d`. -/
theorem eq_append_of_not_mem {p b c t : Str} {d : Char} (hd : d ∉ p) (h : b ++ d :: t = p ++ c) :
    ∃ z, b = p ++ z ∧ c = z ++ d :: t := by
  rcases List.append_eq_append_iff.1 h with ⟨x, rfl, hx⟩ | ⟨x, rfl, rfl⟩
  · cases x with
    | nil => exact ⟨[], by simp, by simpa using hx.symm⟩
    | cons e x =>
      obtain ⟨rfl, _⟩ := List.cons.inj hx
      exact absurd (by simp) hd
  · exact ⟨x, rfl, rfl⟩

/-! ## Digests -/

/-- A hash function as `hexdigest` shows it: a text of 64 characters. -/
structure Digest where
  hexdigest : Str → Str
  length_hexdigest : ∀ s, (hexdigest s).length = 64

/-- No two of the given texts share a digest. -/
def Digest.CollisionFree (H : Digest) (texts : Set Str) : Prop := Set.InjOn H.hexdigest texts

/-- A digest of fixed length in front of a text can be told apart from it. -/
theorem Digest.append_inj {p p' b b' : Str} (hp : p.length = 64) (hp' : p'.length = 64)
    (h : p ++ b = p' ++ b') : p = p' ∧ b = b' :=
  List.append_inj h (hp.trans hp'.symm)

/-- A digest known on one text only; every other text gets the same filler. -/
def Digest.single (text digest : Str) (h : digest.length = 64) : Digest where
  hexdigest s := if s = text then digest else List.replicate 64 'f'
  length_hexdigest s := by split_ifs <;> simp [h]

theorem Digest.single_self (text digest : Str) (h : digest.length = 64) :
    (Digest.single text digest h).hexdigest text = digest := if_pos rfl

theorem Digest.single_of_ne {text digest s : Str} (h : digest.length = 64) (hs : s ≠ text) :
    (Digest.single text digest h).hexdigest s = List.replicate 64 'f' := if_neg hs

/-- A digest known on these texts only. -/
def Digest.known (digests : List (Str × Str)) (h : ∀ p ∈ digests, p.2.length = 64) : Digest where
  hexdigest s := (digests.lookup s).getD (List.replicate 64 'f')
  length_hexdigest s := by
    cases hs : digests.lookup s with
    | none => rfl
    | some digest =>
      obtain ⟨before, after, rfl, _⟩ := List.lookup_eq_some_iff.mp hs
      exact h (s, digest) (by simp)

theorem Digest.known_mem {digests : List (Str × Str)} {h : ∀ p ∈ digests, p.2.length = 64} {s : Str}
    (hs : s ∈ digests.map Prod.fst) : (s, (Digest.known digests h).hexdigest s) ∈ digests := by
  have hdigest : (Digest.known digests h).hexdigest s =
    (digests.lookup s).getD (List.replicate 64 'f') := rfl
  rw [hdigest]
  cases hlookup : digests.lookup s with
  | none =>
    obtain ⟨p, hp, rfl⟩ := List.mem_map.mp hs
    have hne := List.lookup_eq_none_iff.mp hlookup p hp
    simp at hne
  | some digest =>
    obtain ⟨before, after, rfl, _⟩ := List.lookup_eq_some_iff.mp hlookup
    simp

/-- Texts with different digests do not collide. -/
theorem Digest.known_collisionFree {digests : List (Str × Str)}
    {h : ∀ p ∈ digests, p.2.length = 64} (hnodup : (digests.map Prod.snd).Nodup) :
    (Digest.known digests h).CollisionFree {s | s ∈ digests.map Prod.fst} := by
  intro s hs t ht heq
  have hpair := List.inj_on_of_nodup_map hnodup (Digest.known_mem (h := h) hs)
    (Digest.known_mem (h := h) ht) heq
  exact (Prod.mk.inj hpair).1

end AegisCode
