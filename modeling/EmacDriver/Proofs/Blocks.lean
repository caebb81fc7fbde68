import EmacDriver.Common

namespace EmacDriver
open Bytes

variable {m : Buf} {c : BitVec 32}

/-- The byte loop on its own. -/
theorem copyBytes_eq (m : Buf) {d8 s8 count : Nat} (h : s8 + count ≤ d8 ∨ d8 + count ≤ s8) :
    copyBytes m d8 s8 count = copy m d8 m s8 count := by
  induction count generalizing m d8 s8 with
  | zero => rw [copyBytes, copy, patch_zero]
  | succ count ih =>
    have hone : store8 m d8 (m s8) = copy m d8 m s8 1 := by
      apply patch_congr
      intro i hi
      obtain rfl : i = 0 := by omega
      rfl
    rw [copyBytes, hone, ih _ (by omega), copy_copy_next m (by omega), Nat.add_comm 1]

theorem fillBytes_eq (m : Buf) (s8 count : Nat) :
    fillBytes c m s8 count = fill m s8 count (UInt8.ofBitVec (c.setWidth 8)) := by
  induction count generalizing m s8 with
  | zero => rw [fillBytes, fill, patch_zero]
  | succ count ih => rw [fillBytes, ih, store8, fill_fill_next, Nat.add_comm 1]

/-- The words copied and the bytes that remain make up the copy. -/
theorem copyWords_copyBytes (m : Buf) {dl sl count : Nat}
    (h : sl + count ≤ dl ∨ dl + count ≤ sl) :
    copyBytes (copyWords m dl sl count).1 (copyWords m dl sl count).2.1
      (copyWords m dl sl count).2.2.1 (copyWords m dl sl count).2.2.2 = copy m dl m sl count := by
  induction count using Nat.strong_induction_on generalizing m dl sl with
  | _ count ih =>
    rw [copyWords]
    by_cases h8 : 8 ≤ count
    · rw [if_pos h8, store64_load64, ih (count - 8) (by omega) _ (by omega)]
      have hnext := copy_copy_next m (o := dl) (p := sl) (k := 8) (n := count - 8) (by omega)
      rw [hnext, Nat.add_sub_cancel' h8]
    · rw [if_neg h8]
      exact copyBytes_eq m h

def Repeats (cl : UInt64) (v : UInt8) : Prop := ∀ i < 8, bytes64 cl i = v

theorem fillWords_fillBytes {cl : UInt64} (hcl : Repeats cl (UInt8.ofBitVec (c.setWidth 8)))
    (m : Buf) (sl count : Nat) :
    fillBytes c (fillWords cl m sl count).1 (fillWords cl m sl count).2.1
      (fillWords cl m sl count).2.2 = fill m sl count (UInt8.ofBitVec (c.setWidth 8)) := by
  induction count using Nat.strong_induction_on generalizing m sl with
  | _ count ih =>
    rw [fillWords]
    by_cases h8 : 8 ≤ count
    · rw [if_pos h8, ih (count - 8) (by omega), store64, patch_congr hcl, fill_fill_next,
        Nat.add_sub_cancel' h8]
    · rw [if_neg h8]
      exact fillBytes_eq m sl count

theorem lowByte_toNat (c : BitVec 32) :
    (UInt64.ofBitVec ((c &&& 0xff).signExtend 64)).toNat = c.toNat % 256 := by
  have hbound : (c &&& 0xff).toNat = c.toNat % 256 := by
    rw [BitVec.toNat_and]
    exact Nat.and_two_pow_sub_one_eq_mod c.toNat 8
  have hmsb : (c &&& 0xff).msb = false := by
    rw [BitVec.msb_eq_false_iff_two_mul_lt, hbound]
    omega
  rw [UInt64.toNat_ofBitVec, BitVec.signExtend_eq_setWidth_of_msb_false hmsb,
    BitVec.toNat_setWidth, hbound]
  omega

/-- One round, while the word is not full. -/
theorem fillWord_succ_toNat {i : Nat} (h : (fillWord c i).toNat < 2 ^ 56) :
    (fillWord c (i + 1)).toNat = (fillWord c i).toNat * 256 + c.toNat % 256 := by
  have hlow : c.toNat % 256 < 2 ^ 8 := Nat.mod_lt _ (by omega)
  have hshift : (fillWord c i <<< 8).toNat = (fillWord c i).toNat <<< 8 := by
    have h8 : (8 : UInt64).toNat % 64 = 8 := rfl
    rw [UInt64.toNat_shiftLeft, h8, Nat.shiftLeft_eq]
    omega
  rw [fillWord, UInt64.toNat_or, hshift, lowByte_toNat, ← Nat.shiftLeft_add_eq_or_of_lt hlow,
    Nat.shiftLeft_eq]

/-- The bytes of the word so far. -/
theorem fillWord_bytes (c : BitVec 32) {i : Nat} (hi : i ≤ 8) :
    (fillWord c i).toNat < 256 ^ i ∧
      ∀ j < i, (fillWord c i).toNat / 256 ^ j % 256 = c.toNat % 256 := by
  induction i with
  | zero => exact ⟨Nat.one_pos, by omega⟩
  | succ i ih =>
    obtain ⟨hlt, hbytes⟩ := ih (by omega)
    have hroom : (fillWord c i).toNat < 2 ^ 56 := by
      have hpow : 256 ^ i ≤ 256 ^ 7 := Nat.pow_le_pow_right (by omega) (by omega)
      omega
    have hbyte : c.toNat % 256 < 256 := Nat.mod_lt _ (by omega)
    rw [fillWord_succ_toNat hroom]
    constructor
    · rw [Nat.pow_succ]
      omega
    · intro j hj
      cases j with
      | zero =>
        rw [Nat.pow_zero, Nat.div_one]
        omega
      | succ j =>
        have hdiv : ((fillWord c i).toNat * 256 + c.toNat % 256) / 256 = (fillWord c i).toNat := by
          omega
        rw [Nat.pow_succ', ← Nat.div_div_eq_div_mul, hdiv]
        exact hbytes j (by omega)

/-- Eight rounds put the low byte of `c` into each byte of the word. -/
theorem fillWord_repeats (c : BitVec 32) :
    Repeats (fillWord c 8) (UInt8.ofBitVec (c.setWidth 8)) := by
  intro i hi
  apply UInt8.toNat_inj.mp
  rw [bytes64, (fillWord_bytes c (Nat.le_refl 8)).2 i hi]
  simp

/-- Aligned or not, a copy of the bytes. -/
theorem memcpy_eq (m : Buf) {dest src count : Nat}
    (h : src + count ≤ dest ∨ dest + count ≤ src) :
    memcpy m dest src count = (dest, copy m dest m src count) := by
  rw [memcpy]
  by_cases hsame : src = dest
  · obtain rfl : count = 0 := by omega
    rw [if_pos hsame, copy, patch_zero]
  · rw [if_neg hsame]
    by_cases halign : (dest ||| src) &&& (8 - 1) = 0
    · rw [if_pos halign]
      exact congrArg (dest, ·) (copyWords_copyBytes m h)
    · rw [if_neg halign]
      exact congrArg (dest, ·) (copyBytes_eq m h)

/-- By words or by bytes, and through `int` or not, `memset` fills with the low byte of `c`. -/
theorem memset_eq (m : Buf) (s : Nat) (c : BitVec 32) (count : Nat) :
    memset m s c count = (s, fill m s count (UInt8.ofBitVec (c.setWidth 8))) := by
  rw [memset]
  by_cases halign : s &&& (8 - 1) = 0
  · rw [if_pos halign]
    exact congrArg (s, ·) (fillWords_fillBytes (fillWord_repeats c) m s count)
  · rw [if_neg halign]
    exact congrArg (s, ·) (fillBytes_eq m s count)

/-- The copy and the fill by words are those by bytes: the range holds the source or the
low byte of `c`, and the bytes around it are as before. -/
theorem memcpy_memset_bytewise (m : Buf) (dest src s count : Nat) (c : BitVec 32) :
    (src + count ≤ dest ∨ dest + count ≤ src →
      memcpy m dest src count = (dest, copyBytes m dest src count) ∧
      (∀ i < count, (memcpy m dest src count).2 (dest + i) = m (src + i)) ∧
      ∀ a, a < dest ∨ dest + count ≤ a → (memcpy m dest src count).2 a = m a) ∧
    memset m s c count = (s, fillBytes c m s count) ∧
    (∀ i < count, (memset m s c count).2 (s + i) = UInt8.ofBitVec (c.setWidth 8)) ∧
    ∀ a, a < s ∨ s + count ≤ a → (memset m s c count).2 a = m a := by
  refine ⟨?_, ?_, ?_, ?_⟩
  · intro h
    rw [memcpy_eq m h, copyBytes_eq m h]
    dsimp only
    exact ⟨rfl, fun i hi => patch_on hi, fun a ha => patch_off ha⟩
  · rw [memset_eq, fillBytes_eq]
  · intro i hi
    rw [memset_eq]
    dsimp only
    exact patch_on hi
  · intro a ha
    rw [memset_eq]
    dsimp only
    exact patch_off ha

/-- A word and three bytes copied, and an unaligned fill. -/
theorem memcpy_memset_eleven :
    let m : Buf := fun i => UInt8.ofNat i
    memcpy m 16 0 11 = (16, copyBytes m 16 0 11) ∧ (memcpy m 16 0 11).2 26 = 10 ∧
      (memset m 3 0x1a5 9).2 11 = 0xa5 := by
  intro m
  obtain ⟨hcopy, -⟩ := memcpy_memset_bytewise m 16 0 3 11 0x1a5
  obtain ⟨-, -, hfill, -⟩ := memcpy_memset_bytewise m 16 0 3 9 0x1a5
  obtain ⟨hbytes, hcopied, -⟩ := hcopy (by decide)
  exact ⟨hbytes, hcopied 10 (by decide), hfill 8 (by decide)⟩

end EmacDriver
