import EmacDriver.Checksum

namespace EmacDriver
open Bytes OnesSum

def rfc1071Sum (b : Buf) (o nbytes : Nat) : Nat := sum (wordsBE b o nbytes)

def flipBit (b : Buf) (i k : Nat) : Buf := store8 b i (UInt8.ofNat ((b i).toNat ^^^ 2 ^ k))

theorem flip_value : ∀ x < 256, ∀ k < 8,
    x ^^^ 2 ^ k = if x.testBit k then x - 2 ^ k else x + 2 ^ k := by
  decide +kernel

theorem testBit_le : ∀ x < 256, ∀ k < 8, x.testBit k = true → 2 ^ k ≤ x := by
  decide +kernel

theorem flip_lt : ∀ x < 256, ∀ k < 8, x ^^^ 2 ^ k < 256 := by
  decide +kernel

theorem flipBit_toNat (b : Buf) (i k : Nat) (hk : k < 8) :
    (flipBit b i k i).toNat = (b i).toNat ^^^ 2 ^ k := by
  rw [flipBit, store8_same, UInt8.toNat_ofNat', Nat.mod_eq_of_lt (flip_lt _ (b i).toNat_lt k hk)]

/-- The mask `0xfffe` lets two sums pass. -/
theorem ipChecksumOk_iff_rfc1071 (b : Buf) (o nbytes : Nat) (h : nbytes ≤ 65535) :
    ipChecksumOk b o nbytes = true ↔
      rfc1071Sum b o nbytes = 0xffff ∨ rfc1071Sum b o nbytes = 0xfeff := by
  rw [ipChecksumOk_iff b o nbytes h, rfc1071Sum, sum_BE_ones, sum_BE_feff]

/-- Accepted totals are 0 or -1 modulo 65535, so a change by a power of two up
to 2^15 leads from one to the other only if it is a change by 1. -/
theorem accepted_totals {t p : Nat} (hp : 1 ≤ p) (hp' : p ≤ 32768)
    (ht : canon t = 65535 ∨ canon t = 65534) :
    ((canon (t + p) = 65535 ∨ canon (t + p) = 65534) ↔ p = 1 ∧ canon t = 65534) ∧
    (p ≤ t → ((canon (t - p) = 65535 ∨ canon (t - p) = 65534) ↔ p = 1 ∧ canon t = 65535)) := by
  have hones : ∀ u, canon u = 65535 ↔ 0 < u ∧ u % 65535 = 0 := by
    intro u
    exact canon_eq_ones
  have hless : ∀ u, canon u = 65534 ↔ u % 65535 = 65534 := by
    intro u
    exact canon_eq_of_lt (by omega) (by omega)
  simp only [hones, hless] at *
  constructor
  · omega
  · intro _
    omega

/-- A single flipped bit moves the total by its place value. -/
theorem flipBit_sum (b : Buf) (o i k : Nat) (hi : i < 20) (hk : k < 8) :
    (wordsLE (flipBit b (o + i) k) o 20).sum +
        (if i % 2 = 0 then 1 else 256) * (b (o + i)).toNat =
      (wordsLE b o 20).sum +
        (if i % 2 = 0 then 1 else 256) * ((b (o + i)).toNat ^^^ 2 ^ k) := by
  have hoff : ∀ j, j ≠ o + i → flipBit b (o + i) k j = b j := by
    intro j hj
    unfold flipBit
    exact patch_off (by omega)
  have hu := wordsLE_sum_update (b := b) (c := flipBit b (o + i) k) (n := 20)
    (Nat.le_add_right o i) (by omega) hoff
  rw [Nat.add_sub_cancel_left, flipBit_toNat b (o + i) k hk] at hu
  exact hu

/-- After a flip the header passes only if the flip undoes, or does, a change
of its sum by one: the lowest bit of a word as the machine loads it. -/
theorem flipBit_accepted (b : Buf) (o i k : Nat) (hi : i < 20) (hk : k < 8)
    (hok : ipChecksumOk b o 20 = true) :
    ipChecksumOk (flipBit b (o + i) k) o 20 = true ↔
      i % 2 = 0 ∧ k = 0 ∧ ((b (o + i)).toNat.testBit 0 = true ↔ rfc1071Sum b o 20 = 0xffff) := by
  have hx := (b (o + i)).toNat_lt
  have hs := flipBit_sum b o i k hi hk
  have hpow1 : 1 ≤ 2 ^ k := Nat.one_le_two_pow
  have hpow7 : 2 ^ k ≤ 128 := Nat.pow_le_pow_right (by omega : 1 ≤ 2) (by omega : k ≤ 7)
  have hpow0 : 2 ^ k = 1 ↔ k = 0 := by simp
  rw [ipChecksumOk_iff _ o 20 (by omega), sum_eq_canon _ (wordsLE_le _ o 20)] at hok ⊢
  rw [rfc1071Sum, sum_BE_ones, sum_eq_canon _ (wordsLE_le b o 20)]
  rw [flip_value _ hx k hk] at hs
  have hle := testBit_le _ hx k hk
  have hacc := accepted_totals (t := (wordsLE b o 20).sum)
    (p := (if i % 2 = 0 then 1 else 256) * 2 ^ k) (by split <;> omega) (by split <;> omega) hok
  have hp1 : (if i % 2 = 0 then 1 else 256) * 2 ^ k = 1 ↔ i % 2 = 0 ∧ k = 0 := by
    split <;> omega
  generalize (b (o + i)).toNat = x at *
  generalize (wordsLE b o 20).sum = t at *
  generalize (wordsLE (flipBit b (o + i) k) o 20).sum = t' at *
  rw [hp1] at hacc
  generalize (if i % 2 = 0 then 1 else 256) = w at *
  cases hbit : x.testBit k with
  | true =>
    have hwx : w * 2 ^ k ≤ w * x := Nat.mul_le_mul_left w (hle hbit)
    rw [hbit, if_pos rfl, Nat.mul_sub] at hs
    have hle : w * 2 ^ k ≤ t := by omega
    have ht : t' = t - w * 2 ^ k := by omega
    rw [ht, hacc.2 hle]
    constructor
    · rintro ⟨⟨hi2, rfl⟩, hc⟩
      exact ⟨hi2, rfl, by simp [hbit, hc]⟩
    · rintro ⟨hi2, rfl, hc⟩
      exact ⟨⟨hi2, rfl⟩, hc.mp hbit⟩
  | false =>
    rw [hbit, if_neg (by decide), Nat.mul_add] at hs
    have ht : t' = t + w * 2 ^ k := by omega
    rw [ht, hacc.1]
    constructor
    · rintro ⟨⟨hi2, rfl⟩, hc⟩
      exact ⟨hi2, rfl, by simp [hbit, hc]⟩
    · rintro ⟨hi2, rfl, hc⟩
      refine ⟨⟨hi2, rfl⟩, ?_⟩
      rw [hbit] at hc
      rcases hok with h | h
      · simp [h] at hc
      · exact h

/-- The test accepts one sum too many. It is right about every buffer but those
that sum to 0xfeff in network order, and it misses a flipped bit exactly when
the flip of the lowest bit of an even byte leads from 0xffff to 0xfeff or back. -/
theorem ip_checksum_ok_iff (b : Buf) (o : Nat) :
    (∀ nbytes ≤ 65535, (ipChecksumOk b o nbytes = true ↔ rfc1071Sum b o nbytes = 0xffff) ↔
      rfc1071Sum b o nbytes ≠ 0xfeff) ∧
    (ipChecksumOk b o 20 = true → ∀ i < 20, ∀ k < 8,
      (ipChecksumOk (flipBit b (o + i) k) o 20 = false ↔
        ¬ (i % 2 = 0 ∧ k = 0 ∧
          ((b (o + i)).toNat.testBit 0 = true ↔ rfc1071Sum b o 20 = 0xffff)))) := by
  constructor
  · intro nbytes h
    rw [ipChecksumOk_iff_rfc1071 b o nbytes h]
    omega
  · intro hok i hi k hk
    rw [← flipBit_accepted b o i k hi hk hok, Bool.not_eq_true]

def sampleHeader : Buf :=
  ofList [0x45, 0, 0, 28, 0, 0, 0, 0, 64, 1, 0x31, 0x77, 192, 168, 100, 3, 192, 168, 100, 22]

theorem ip_checksum_ok_iff_sample :
    (ipChecksumOk sampleHeader 0 20 = true ↔ rfc1071Sum sampleHeader 0 20 = 0xffff) ∧
      ipChecksumOk (flipBit sampleHeader (0 + 1) 0) 0 20 = false :=
  ⟨((ip_checksum_ok_iff sampleHeader 0).1 20 (by omega)).mpr (by decide +kernel),
    ((ip_checksum_ok_iff sampleHeader 0).2 (by decide +kernel) 1 (by omega) 0 (by omega)).mpr
      (by decide)⟩

/-- Version 4 with header length 5 and with header length 4 are told apart by
the lowest bit of the first byte only, and both pass. -/
theorem ip_checksum_ok_misses :
    (¬ ∀ (b : Buf) (o nbytes : Nat), nbytes ≤ 65535 →
        (ipChecksumOk b o nbytes = true ↔ rfc1071Sum b o nbytes = 0xffff)) ∧
    (¬ ∀ (b : Buf) (o i k : Nat), ipChecksumOk b o 20 = true → i < 20 → k < 8 →
        ipChecksumOk (flipBit b (o + i) k) o 20 = false) := by
  constructor
  · intro h
    have hiff := h (flipBit sampleHeader 0 0) 0 20 (by omega)
    revert hiff
    decide +kernel
  · intro h
    have hflip := h sampleHeader 0 0 0 (by decide +kernel) (by omega) (by omega)
    revert hflip
    decide +kernel

end EmacDriver
