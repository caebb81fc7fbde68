import EmacDriver.Proofs.ChecksumSpec

namespace EmacDriver
open Bytes OnesSum

/-- What each `sum += word` gives before it is stored in the `int`. -/
def additions (b : Buf) : Nat → Nat → Int → List Int
  | o, nbytes + 2, sum =>
    (sum + (load16 b o).toNat) ::
      additions b (o + 2) nbytes (toInt (sum + (load16 b o).toNat))
  | o, 1, sum => [sum + (b o).toNat]
  | _, 0, _ => []

def folds (sum : Int) : List Int :=
  [sum / 65536 + sum % 65536,
    toInt (sum / 65536 + sum % 65536) + toInt (sum / 65536 + sum % 65536) / 65536]

def FitsInt (x : Int) : Prop := -2147483648 ≤ x ∧ x ≤ 2147483647

/-- No sum of up to 65535 bytes leaves the `int`. -/
theorem additions_fit (b : Buf) (o nbytes t : Nat)
    (h : t + (wordsLE b o nbytes).sum < 2147483648) :
    ∀ x ∈ additions b o nbytes t, FitsInt x := by
  fun_induction wordsLE b o nbytes generalizing t with
  | case1 o n ih =>
    simp only [List.sum_cons] at h
    have hword : (t : Int) + (load16 b o).toNat = (t + (load16 b o).toNat : Nat) := by simp
    have htoInt : toInt (t + (load16 b o).toNat : Nat) = (t + (load16 b o).toNat : Nat) :=
      toInt_of_range (by omega) (by omega)
    rw [additions, hword, htoInt]
    intro x hx
    rcases List.mem_cons.mp hx with rfl | hx
    · constructor <;> omega
    · exact ih _ (by omega) x hx
  | case2 o =>
    simp only [List.sum_cons, List.sum_nil] at h
    intro x hx
    rw [additions, List.mem_singleton] at hx
    subst hx
    constructor <;> omega
  | case3 =>
    intro x hx
    cases hx

theorem folds_fit {t : Nat} (h : t < 2147483648) : ∀ x ∈ folds t, FitsInt x := by
  have hfold : toInt ((t : Int) / 65536 + (t : Int) % 65536) =
      (t : Int) / 65536 + (t : Int) % 65536 := toInt_of_range (by omega) (by omega)
  intro x hx
  simp only [folds, hfold, List.mem_cons, List.not_mem_nil, or_false] at hx
  rcases hx with rfl | rfl
  · constructor <;> omega
  · constructor <;> omega

/-- The two bytes of a stored word, low byte first. -/
theorem store16_bytes (b : Buf) (p x : Nat) (h : x < 65536) :
    ((store16 b p (UInt16.ofNat x) p).toNat = x % 256) ∧
      (store16 b p (UInt16.ofNat x) (p + 1)).toNat = x / 256 := by
  simp [patch, bytes16]
  omega

/-- Up to 65535 bytes the `int` holds every intermediate value, two folds leave
the end-around-carry sum, and the result stored in memory order is the
checksum of RFC 1071 stored high byte first. -/
theorem compute_ip_checksum_rfc1071 (b : Buf) (o nbytes : Nat) (h : nbytes ≤ 65535) :
    (∀ x ∈ additions b o nbytes 0 ++ folds (sumWords b o nbytes 0), FitsInt x) ∧
    computeIpChecksum b o nbytes = 65535 - sum (wordsLE b o nbytes) ∧
    ∀ (c : Buf) (p : Nat),
      (store16 c p (UInt16.ofNat (computeIpChecksum b o nbytes)) p).toNat =
          (65535 - rfc1071Sum b o nbytes) / 256 ∧
        (store16 c p (UInt16.ofNat (computeIpChecksum b o nbytes)) (p + 1)).toNat =
          (65535 - rfc1071Sum b o nbytes) % 256 := by
  have hle := wordsLE_sum_le b o nbytes
  have hsum := sumWords_eq b o nbytes 0 (by omega)
  have hcs := computeIpChecksum_eq b o nbytes h
  have hlow : sum (wordsLE b o nbytes) ≤ 65535 := by
    rw [sum_eq_canon _ (wordsLE_le b o nbytes)]
    exact canon_le _
  refine ⟨?_, hcs, ?_⟩
  · intro x hx
    rcases List.mem_append.mp hx with hx | hx
    · exact additions_fit b o nbytes 0 (by omega) x hx
    · rw [Int.natCast_zero] at hsum
      rw [hsum, Nat.zero_add] at hx
      exact folds_fit (by omega) x hx
  · intro c p
    have hbytes := store16_bytes c p (computeIpChecksum b o nbytes)
      (computeIpChecksum_lt b o nbytes h)
    have hswap : 65535 - rfc1071Sum b o nbytes = swapBytes (computeIpChecksum b o nbytes) := by
      rw [rfc1071Sum, sum_wordsBE, hcs, swapBytes_compl hlow]
    have hlt := computeIpChecksum_lt b o nbytes h
    rw [hswap, hbytes.1, hbytes.2]
    unfold swapBytes
    omega

theorem compute_ip_checksum_rfc1071_odd :
    computeIpChecksum (ofList [0x45, 0, 7]) 0 3 =
      65535 - sum (wordsLE (ofList [0x45, 0, 7]) 0 3) :=
  (compute_ip_checksum_rfc1071 (ofList [0x45, 0, 7]) 0 3 (by omega)).2.1

/-- The two masked shifts of `add_ip_checksums` exchange the bytes. -/
theorem shifts_eq_swapBytes {x : Nat} (h : x ≤ 65535) :
    x >>> 8 &&& 0xff ||| x <<< 8 &&& 0xff00 = swapBytes x := by
  have hhigh : x >>> 8 &&& 0xff = x / 256 := by
    refine (Nat.and_two_pow_sub_one_eq_mod (x >>> 8) 8).trans ?_
    rw [Nat.shiftRight_eq_div_pow]
    omega
  have hlow : x <<< 8 &&& 0xff00 = (x % 256) <<< 8 := by
    have hmask : 0xff00 = 0xff <<< 8 := rfl
    rw [hmask, ← Nat.shiftLeft_and_distrib]
    exact congrArg (· <<< 8) (Nat.and_two_pow_sub_one_eq_mod x 8)
  have hlt : x / 256 < 2 ^ 8 := by omega
  rw [hhigh, hlow, Nat.or_comm, ← Nat.shiftLeft_add_eq_or_of_lt hlt, Nat.shiftLeft_eq]
  rfl

/-- Checksums are complements, so adding them is adding the sums; an odd offset swaps the bytes. -/
theorem addIpChecksums_eq {offset s n : Nat} (hs : s ≤ 65535) (hn : n ≤ 65535) :
    addIpChecksums offset (65535 - s) (65535 - n) =
      65535 - addc s (if offset % 2 = 0 then n else swapBytes n) := by
  have hc : ∀ x ≤ 65535, 65535 - (65535 - x) % 65536 = x := by omega
  have hcarry : ∀ m ≤ 65535, 65535 - (if s + m > 65535 then s + m - 65535 else s + m) % 65536 =
      65535 - addc s m := by
    intro m hm
    unfold addc
    by_cases hlt : s + m < 65536
    · rw [if_neg (by omega), if_pos hlt]
      omega
    · rw [if_pos (by omega), if_neg hlt]
      omega
  have hswap : swapBytes n ≤ 65535 := by
    unfold swapBytes
    omega
  unfold addIpChecksums
  simp only [hc s hs, hc n hn, Nat.and_one_is_mod, ne_eq, shifts_eq_swapBytes hn]
  by_cases ho : offset % 2 = 0
  · rw [if_pos ho, if_neg (not_not.mpr ho)]
    exact hcarry n hn
  · rw [if_neg ho, if_pos ho]
    exact hcarry (swapBytes n) hswap

/-- The sum over a buffer from the sums over its two parts. -/
theorem sum_append (b : Buf) (o m n : Nat) :
    sum (wordsLE b o (m + n)) =
      addc (sum (wordsLE b o m))
        (if m % 2 = 0 then sum (wordsLE b (o + m) n)
          else swapBytes (sum (wordsLE b (o + m) n))) := by
  simp only [sum_eq_canon _ (wordsLE_le _ _ _), swapBytes_canon]
  by_cases hm : m % 2 = 0
  · rw [if_pos hm, addc_canons, wordsLE_append b o m n hm, List.sum_append]
  · obtain ⟨k, rfl⟩ : ∃ k, m = k + 1 := ⟨m - 1, by omega⟩
    have hk : k % 2 = 0 := by omega
    have ho : k + 1 + n = k + (n + 1) := by omega
    have hone := wordsLE_sum_one b (o + k) n
    have hlast : (wordsLE b o (k + 1)).sum = (wordsLE b o k).sum + (b (o + k)).toNat := by
      rw [wordsLE_append b o k 1 hk, List.sum_append]
      simp [wordsLE]
    rw [if_neg hm, addc_canons, ho, wordsLE_append b o k (n + 1) hk, List.sum_append, hlast,
      ← Nat.add_assoc o k 1]
    apply canon_congr <;> omega

/-- Exact also where the sum is zero in one of its two forms: a part sums to 0
only if all its bytes are 0. -/
theorem add_ip_checksums_append (a b : List UInt8) (h : a.length + b.length ≤ 65535) :
    addIpChecksums a.length (computeIpChecksum (ofList a) 0 a.length)
        (computeIpChecksum (ofList b) 0 b.length) =
      computeIpChecksum (ofList (a ++ b)) 0 (a ++ b).length := by
  have ha : wordsLE (ofList a) 0 a.length = wordsLE (ofList (a ++ b)) 0 a.length := by
    apply wordsLE_congr
    intro i _ hi
    rw [Nat.zero_add] at hi
    simp [ofList, List.getElem?_append_left hi]
  have hb : wordsLE (ofList b) 0 b.length = wordsLE (ofList (a ++ b)) a.length b.length := by
    apply wordsLE_shift
    intro i _
    simp [ofList, List.getElem?_append_right]
  have hle : ∀ (c : Buf) (o n : Nat), sum (wordsLE c o n) ≤ 65535 := by
    intro c o n
    rw [sum_eq_canon _ (wordsLE_le c o n)]
    exact canon_le _
  rw [computeIpChecksum_eq _ 0 _ (by omega), computeIpChecksum_eq _ 0 _ (by omega),
    computeIpChecksum_eq _ 0 _ (by simpa using h), addIpChecksums_eq (hle _ _ _) (hle _ _ _),
    List.length_append, sum_append, Nat.zero_add, ha, hb]

theorem add_ip_checksums_append_odd :
    addIpChecksums 1 (computeIpChecksum (ofList [0xff]) 0 1)
        (computeIpChecksum (ofList [0, 0xff]) 0 2) =
      computeIpChecksum (ofList [0xff, 0, 0xff]) 0 3 :=
  add_ip_checksums_append [0xff] [0, 0xff] (by decide)

end EmacDriver
