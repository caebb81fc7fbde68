import EmacDriver.CInt
import EmacDriver.Lib.OnesSum

namespace EmacDriver
open Bytes OnesSum

def sumWords (b : Buf) : Nat → Nat → Int → Int
  | o, nbytes + 2, sum => sumWords b (o + 2) nbytes (toInt (sum + (load16 b o).toNat))
  | o, 1, sum => toInt (sum + (b o).toNat)
  | _, 0, sum => sum

def computeIpChecksum (b : Buf) (o nbytes : Nat) : Nat :=
  let sum := sumWords b o nbytes 0
  -- `x & 0xffff` of a two's complement int is its residue
  let sum := toInt (sum / 65536 + sum % 65536)
  let sum := toInt (sum + sum / 65536)
  toUnsigned ((-sum - 1) % 65536)

/-- `~x & 0xffff` of an `unsigned` is `0xffff` less its low half. -/
def addIpChecksums (offset sum new : Nat) : Nat :=
  let sum := 65535 - sum % 65536
  let new := 65535 - new % 65536
  let new := if offset &&& 1 ≠ 0 then new >>> 8 &&& 0xff ||| new <<< 8 &&& 0xff00 else new
  let checksum := sum + new
  let checksum := if checksum > 0xffff then checksum - 0xffff else checksum
  65535 - checksum % 65536

def ipChecksumOk (b : Buf) (o nbytes : Nat) : Bool := (computeIpChecksum b o nbytes &&& 0xfffe) == 0

/-- As long as the total fits an `int` the loop adds without wrapping. -/
theorem sumWords_eq (b : Buf) (o nbytes t : Nat)
    (h : t + (wordsLE b o nbytes).sum < 2147483648) :
    sumWords b o nbytes t = (t + (wordsLE b o nbytes).sum : Nat) := by
  fun_induction wordsLE b o nbytes generalizing t with
  | case1 o n ih =>
    simp only [List.sum_cons] at h ⊢
    rw [sumWords, toInt_of_range (by omega) (by omega), ← Int.natCast_add,
      ih (t + (load16 b o).toNat) (by omega), Nat.add_assoc]
  | case2 o =>
    simp only [List.sum_cons, List.sum_nil] at h ⊢
    rw [sumWords, toInt_of_range (by omega) (by omega)]
    omega
  | case3 => simp [sumWords]

/-- The checksum is the complement of the end-around-carry sum. -/
theorem computeIpChecksum_eq (b : Buf) (o nbytes : Nat) (h : nbytes ≤ 65535) :
    computeIpChecksum b o nbytes = 65535 - sum (wordsLE b o nbytes) := by
  have ht := wordsLE_sum_le b o nbytes
  have hs := sumWords_eq b o nbytes 0 (by omega)
  rw [sum_eq_canon _ (wordsLE_le b o nbytes)]
  simp only [Nat.zero_add, Int.natCast_zero] at hs
  unfold computeIpChecksum
  rw [hs]
  generalize (wordsLE b o nbytes).sum = t at *
  have hf := fold_twice (t := t) (by omega)
  have hc := canon_le t
  have hr : ∀ u : Nat, u < 131072 → toInt (u : Int) = u := fun u hu =>
    toInt_of_range (by omega) (by omega)
  have h1 : ((t : Int) / 65536 + (t : Int) % 65536) = ((t / 65536 + t % 65536 : Nat) : Int) := by
    omega
  simp only [h1]
  rw [hr _ (by omega), ← hf]
  generalize hv : t / 65536 + t % 65536 = v
  have h2 : (v : Int) + (v : Int) / 65536 = ((v + v / 65536 : Nat) : Int) := by omega
  rw [h2, hr _ (by omega), toUnsigned_of_range (by omega) (by omega)]
  omega

theorem and_fffe {c : Nat} (h : c ≤ 65535) : c &&& 0xfffe = 0 ↔ c ≤ 1 := by
  have hd : (c &&& 0xfffe) / 2 = c / 2 := by
    rw [Nat.and_div_two]
    exact (Nat.and_two_pow_sub_one_eq_mod (c / 2) 15).trans (Nat.mod_eq_of_lt (by omega))
  have hm : (c &&& 0xfffe) % 2 = 0 := by
    rw [← Nat.and_one_is_mod, Nat.and_assoc]
    exact Nat.and_zero c
  omega

/-- The mask lets two sums through: all ones, and one short of it. -/
theorem ipChecksumOk_iff (b : Buf) (o nbytes : Nat) (h : nbytes ≤ 65535) :
    ipChecksumOk b o nbytes = true ↔
      sum (wordsLE b o nbytes) = 65535 ∨ sum (wordsLE b o nbytes) = 65534 := by
  have hc : sum (wordsLE b o nbytes) ≤ 65535 := by
    rw [sum_eq_canon _ (wordsLE_le b o nbytes)]
    exact canon_le _
  rw [ipChecksumOk, computeIpChecksum_eq b o nbytes h, beq_iff_eq, and_fffe (by omega)]
  omega

/-- Two folds leave 16 bits. -/
theorem computeIpChecksum_lt (b : Buf) (o nbytes : Nat) (h : nbytes ≤ 65535) :
    computeIpChecksum b o nbytes < 65536 := by
  rw [computeIpChecksum_eq b o nbytes h]
  omega

/-- Store the checksum over a field that was zero, and the words sum to all ones. -/
theorem sum_store_checksum (b : Buf) (o nbytes j : Nat) (h : nbytes ≤ 65535)
    (hj : 2 * j + 2 ≤ nbytes) (hz : load16 b (o + 2 * j) = 0) :
    sum (wordsLE (store16 b (o + 2 * j) (UInt16.ofNat (computeIpChecksum b o nbytes))) o nbytes) =
      65535 := by
  rw [sum_eq_canon _ (wordsLE_le _ o nbytes)]
  have hs := wordsLE_sum_store16 b o nbytes j (UInt16.ofNat (computeIpChecksum b o nbytes)) hj
  generalize (wordsLE (store16 _ _ _) o nbytes).sum = t' at *
  have hlt := computeIpChecksum_lt b o nbytes h
  have hz' : (0 : UInt16).toNat = 0 := rfl
  rw [hz, hz', Nat.add_zero, UInt16.toNat_ofNat', Nat.mod_eq_of_lt hlt,
    computeIpChecksum_eq b o nbytes h, sum_eq_canon _ (wordsLE_le _ o nbytes)] at hs
  rw [canon_eq_ones]
  generalize (wordsLE b o nbytes).sum = t at *
  unfold canon at hs
  split at hs <;> omega

/-- A buffer with its checksum stored passes. -/
theorem ipChecksumOk_store (b : Buf) (o nbytes j : Nat) (h : nbytes ≤ 65535)
    (hj : 2 * j + 2 ≤ nbytes) (hz : load16 b (o + 2 * j) = 0) :
    ipChecksumOk (store16 b (o + 2 * j) (UInt16.ofNat (computeIpChecksum b o nbytes))) o nbytes =
      true := by
  rw [ipChecksumOk_iff _ o nbytes h]
  exact .inl (sum_store_checksum b o nbytes j h hj hz)

theorem ipChecksumOk_congr {b c : Buf} {o n : Nat} (hn : n ≤ 65535)
    (h : ∀ i, o ≤ i → i < o + n → b i = c i) : ipChecksumOk b o n = ipChecksumOk c o n := by
  rw [Bool.eq_iff_iff, ipChecksumOk_iff b o n hn, ipChecksumOk_iff c o n hn, wordsLE_congr h]

end EmacDriver
