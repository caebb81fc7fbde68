import Mathlib.Tactic.IntervalCases
import EmacDriver.GethDma

namespace EmacDriver.Dma

theorem line_start (start : UInt64) : (start &&& ~~~63).toNat = start.toNat / 64 * 64 := by
  have hshift : (start &&& ~~~63).toBitVec = (start.toBitVec >>> 6) <<< 6 := by
    apply BitVec.eq_of_getLsbD_eq
    intro i hi
    have hbits : (start &&& ~~~63).toBitVec = start.toBitVec &&& ~~~63#64 := rfl
    rw [hbits, BitVec.getLsbD_and, BitVec.getLsbD_not, BitVec.getLsbD_shiftLeft,
      BitVec.getLsbD_ushiftRight, decide_eq_true hi, Bool.true_and, Bool.true_and]
    by_cases hlow : i < 6
    · have hone : ∀ i < 6, (63#64).getLsbD i = true := by decide
      rw [hone i hlow, decide_eq_true hlow]
      simp
    · have hzero : (63#64).getLsbD i = false :=
        Nat.testBit_lt_two_pow (Nat.lt_of_lt_of_le (by decide : 63 < 2 ^ 6)
          (Nat.pow_le_pow_right Nat.two_pos (Nat.le_of_not_lt hlow)))
      rw [hzero, decide_eq_false hlow, Nat.add_sub_cancel' (Nat.le_of_not_lt hlow)]
      simp
  have hlt := start.toNat_lt
  have hval := congrArg BitVec.toNat hshift
  rw [BitVec.toNat_shiftLeft, BitVec.toNat_ushiftRight, UInt64.toNat_toBitVec,
    UInt64.toNat_toBitVec, Nat.shiftRight_eq_div_pow, Nat.shiftLeft_eq] at hval
  rw [hval]
  omega

/-- The loop takes the lines one by one. -/
theorem dcacheRange_lines (op : Nat → M Unit) {stop : UInt64}
    (hstop : stop.toNat ≤ 18446744073709551552) {n : Nat} {i : UInt64} (hi : i.toNat % 64 = 0)
    (hn : (stop.toNat + 63) / 64 - i.toNat / 64 < n) :
    dcacheRange op stop n i =
      (List.range' (i.toNat / 64) ((stop.toNat + 63) / 64 - i.toNat / 64)).forM op := by
  induction n generalizing i with
  | zero => exact absurd hn (Nat.not_lt_zero _)
  | succ n ih =>
    rw [dcacheRange]
    by_cases hlt : i < stop
    · have hnat : i.toNat < stop.toNat := UInt64.lt_iff_toNat_lt.mp hlt
      have hnext : (i + 64).toNat = i.toNat + 64 := by
        rw [UInt64.toNat_add]
        exact Nat.mod_eq_of_lt (by simp only [UInt64.reduceToNat]; omega)
      have hline : (i + 64).toNat / 64 = i.toNat / 64 + 1 := by omega
      have hcount : (stop.toNat + 63) / 64 - i.toNat / 64 =
          ((stop.toNat + 63) / 64 - (i + 64).toNat / 64) + 1 := by omega
      rw [if_pos hlt, ih (by omega) (by omega), hcount, List.range'_succ, hline]
      rfl
    · have hnat : stop.toNat ≤ i.toNat := by
        rw [UInt64.lt_iff_toNat_lt] at hlt
        omega
      have hnone : (stop.toNat + 63) / 64 - i.toNat / 64 = 0 := by omega
      rw [if_neg hlt, hnone]
      rfl

/-- The counter wraps before it gets there. -/
theorem dcacheRange_forever (op : Nat → M Unit) {stop : UInt64}
    (hstop : 18446744073709551552 < stop.toNat) {n : Nat} {i : UInt64} (hi : i.toNat % 64 = 0) :
    dcacheRange op stop n i = failure := by
  induction n generalizing i with
  | zero => rfl
  | succ n ih =>
    have hmax := i.toNat_lt
    have hlt : i < stop := by
      rw [UInt64.lt_iff_toNat_lt]
      omega
    have hnext : (i + 64).toNat % 64 = 0 := by
      rw [UInt64.toNat_add]
      simp only [UInt64.reduceToNat]
      omega
    rw [dcacheRange, if_pos hlt, ih hnext]
    funext w
    show (op (i.toNat / 64) w).bind (fun _ => none) = none
    cases op (i.toNat / 64) w with
    | none => rfl
    | some r => rfl

theorem start_aligned (start : UInt64) : (start &&& ~~~63).toNat % 64 = 0 := by
  rw [line_start]
  exact Nat.mul_mod_left _ _

theorem dcacheRange_start (op : Nat → M Unit) {start stop : UInt64}
    (hstop : stop.toNat ≤ 18446744073709551552) {n : Nat} (hn : lineLimit ≤ n) :
    dcacheRange op stop n (start &&& ~~~63) =
      (List.range' (start.toNat / 64) ((stop.toNat + 63) / 64 - start.toNat / 64)).forM op := by
  have hdiv : (start &&& ~~~63).toNat / 64 = start.toNat / 64 := by
    rw [line_start]
    exact Nat.mul_div_cancel _ (by decide)
  have hcount : (stop.toNat + 63) / 64 - (start &&& ~~~63).toNat / 64 < n := by
    rw [lineLimit] at hn
    omega
  rw [dcacheRange_lines op hstop (start_aligned start) hcount, hdiv]

/-- `flush_dcache_range` and `invalidate_dcache_range` work on the lines from that of `start`
to the last that begins before `stop`, each once and in order; however long they run, they do
not return if `stop` is beyond the first byte of the last line of the address space. -/
theorem dcache_range_exact (op : Nat → M Unit) (start stop : UInt64) (n : Nat) :
    dcacheRange op stop (lineLimit + n) (start &&& ~~~63) =
      if stop.toNat ≤ 18446744073709551552 then
        (List.range' (start.toNat / 64) ((stop.toNat + 63) / 64 - start.toNat / 64)).forM op
      else failure := by
  by_cases hstop : stop.toNat ≤ 18446744073709551552
  · rw [if_pos hstop]
    exact dcacheRange_start op hstop (Nat.le_add_right _ _)
  · rw [if_neg hstop]
    exact dcacheRange_forever op (Nat.lt_of_not_le hstop) (start_aligned start)

end EmacDriver.Dma
