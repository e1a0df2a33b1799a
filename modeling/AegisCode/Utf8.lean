import AegisCode.FileTools

/-!
# UTF-8 there and back

Text comes back from its bytes as it was: the decoder reads the bytes of every character as
that character, and only the bytes of the null character look binary.
-/
namespace AegisCode

variable {n bits need lo hi : ℕ} {bs : List UInt8}

/-! ## The first byte of a character -/

theorem leadByte_one (h : n ≤ 0x7f) : leadByte n = ([Char.ofNat n], none) :=
  if_pos (Nat.lt_succ_of_le h)

theorem leadByte_two (h : 2 ≤ n) (h' : n < 0x20) :
    leadByte (n + 0xc0) = ([], some { need := 1, bits := n }) := by
  unfold leadByte
  rw [if_neg (by omega), if_pos (by omega), Nat.add_sub_cancel]

theorem leadByte_three (h : n < 0x10) : leadByte (n + 0xe0) = ([], some
    { need := 2, bits := n, lo := if n = 0 then 0xa0 else 0x80
      hi := if n = 0xd then 0x9f else 0xbf }) := by
  interval_cases n <;> rfl

theorem leadByte_four (h : n ≤ 4) : leadByte (n + 0xf0) = ([], some
    { need := 3, bits := n, lo := if n = 0 then 0x90 else 0x80
      hi := if n = 4 then 0x8f else 0xbf }) := by
  interval_cases n <;> rfl

theorem decodeFrom_lead (h : n < 256) : decodeFrom none (UInt8.ofNat n :: bs) =
    (leadByte n).1 ++ decodeFrom (leadByte n).2 bs := by
  rw [decodeFrom, UInt8.toNat_ofNat_of_lt' h]

/-! ## The others -/

theorem decodeFrom_last (h : n < 0x40) (hlo : lo ≤ n + 0x80) (hhi : n + 0x80 ≤ hi) :
    decodeFrom (some { need := 1, bits := bits, lo := lo, hi := hi })
      (UInt8.ofNat (n + 0x80) :: bs) = Char.ofNat (bits * 64 + n) :: decodeFrom none bs := by
  rw [decodeFrom, UInt8.toNat_ofNat_of_lt' (show n + 0x80 < 256 by omega), Nat.add_sub_cancel]
  exact if_pos ⟨hlo, hhi⟩

theorem decodeFrom_more (h : n < 0x40) (hlo : lo ≤ n + 0x80) (hhi : n + 0x80 ≤ hi) :
    decodeFrom (some { need := need + 2, bits := bits, lo := lo, hi := hi })
      (UInt8.ofNat (n + 0x80) :: bs) =
    decodeFrom (some { need := need + 1, bits := bits * 64 + n }) bs := by
  rw [decodeFrom, UInt8.toNat_ofNat_of_lt' (show n + 0x80 < 256 by omega), Nat.add_sub_cancel]
  exact if_pos ⟨hlo, hhi⟩

theorem decodeFrom_utf8EncodeChar (c : Char) (bs : List UInt8) :
    decodeFrom none (String.utf8EncodeChar c ++ bs) = c :: decodeFrom none bs := by
  have hvalid : c.val.toNat < 0xd800 ∨ 0xdfff < c.val.toNat ∧ c.val.toNat < 0x110000 := c.valid
  have hchar : ∀ n, n = c.val.toNat → Char.ofNat n = c := by
    rintro n rfl
    exact Char.ofNat_toNat c
  unfold String.utf8EncodeChar
  generalize c.val.toNat = v at hvalid hchar
  dsimp only
  split_ifs with h₁ h₂ h₃
  · rw [List.singleton_append, decodeFrom_lead (by omega), leadByte_one h₁, hchar v rfl]
    rfl
  · rw [List.cons_append, List.singleton_append, decodeFrom_lead (by omega),
      leadByte_two (by omega) (by omega), List.nil_append,
      decodeFrom_last (by omega) (by omega) (by omega), hchar _ (by omega)]
  · have hmod : v / 4096 % 0x10 = v / 4096 := Nat.mod_eq_of_lt (by omega)
    rw [hmod, List.cons_append, List.cons_append, List.singleton_append,
      decodeFrom_lead (by omega), leadByte_three (by omega), List.nil_append,
      decodeFrom_more (by omega) (by split_ifs <;> omega) (by split_ifs <;> omega),
      decodeFrom_last (by omega) (by omega) (by omega), hchar _ (by omega)]
  · have hmod : v / 262144 % 0x08 = v / 262144 := Nat.mod_eq_of_lt (by omega)
    rw [hmod, List.cons_append, List.cons_append, List.cons_append, List.singleton_append,
      decodeFrom_lead (by omega), leadByte_four (by omega), List.nil_append,
      decodeFrom_more (by omega) (by split_ifs <;> omega) (by split_ifs <;> omega),
      decodeFrom_more (by omega) (by omega) (by omega),
      decodeFrom_last (by omega) (by omega) (by omega), hchar _ (by omega)]

/-- Text is decoded to what was encoded. -/
@[simp] theorem decodeUtf8_encodeUtf8 (s : Str) : decodeUtf8 (encodeUtf8 s) = s := by
  unfold decodeUtf8 encodeUtf8
  induction s with
  | nil => rfl
  | cons c s ih => rw [List.flatMap_cons, decodeFrom_utf8EncodeChar, ih]

theorem zero_mem_utf8EncodeChar {c : Char} : 0 ∈ String.utf8EncodeChar c ↔ c = '\x00' := by
  have hzero : ∀ n < 256, (0 : UInt8) = UInt8.ofNat n ↔ n = 0 := by
    intro n hn
    rw [← UInt8.toNat_inj, UInt8.toNat_ofNat_of_lt' hn]
    exact eq_comm
  have hc : c = '\x00' ↔ c.val.toNat = 0 := by
    rw [← Char.toNat_inj]
    rfl
  rw [hc]
  unfold String.utf8EncodeChar
  generalize c.val.toNat = v
  dsimp only
  split_ifs <;> simp (disch := omega) only [List.mem_cons, List.not_mem_nil, or_false, hzero] <;>
    omega

/-- Text without a null character is read as text. -/
theorem isBinary_encodeUtf8 {s : Str} : isBinary (encodeUtf8 s) = true ↔ '\x00' ∈ s := by
  unfold isBinary encodeUtf8
  simp [zero_mem_utf8EncodeChar]

end AegisCode
