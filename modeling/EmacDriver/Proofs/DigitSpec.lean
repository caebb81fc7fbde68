import EmacDriver.Format
import EmacDriver.Proofs.Numerals

namespace EmacDriver

def lastFirst (k : Nat) : List UInt8 := (cstr (toString k)).reverse

theorem lastFirst_eq (k : Nat) :
    lastFirst k = digitByte (k % 10) :: if k / 10 = 0 then [] else lastFirst (k / 10) := by
  by_cases h : k < 10
  · have hdiv : k / 10 = 0 := by omega
    rw [lastFirst, cstr_toString_digit h, Nat.mod_eq_of_lt h, if_pos hdiv]
    rfl
  · rw [lastFirst, cstr_toString_step (by omega), if_neg (by omega), List.reverse_append]
    rfl

/-- One digit written, and the rest if there is any. -/
theorem lastFirst_cons {k : Nat} {p : Prop} [Decidable p] {t : List UInt8} (hp : p ↔ k / 10 = 0)
    (ht : k / 10 ≠ 0 → t = lastFirst (k / 10)) :
    (digitByte (k % 10) :: if p then [] else t) = lastFirst k := by
  rw [lastFirst_eq]
  by_cases h : k / 10 = 0
  · rw [if_pos h, if_pos (hp.mpr h)]
  · rw [if_neg h, if_neg (fun hc => h (hp.mp hc)), ht h]

theorem lastFirst_digit {k : Nat} (h : k < 10) : lastFirst k = [digitByte k] := by
  rw [lastFirst, cstr_toString_digit h]
  rfl

/-- A digit of the lower group, with `m` above it. -/
theorem lastFirst_below {m b : Nat} (q : Nat) (hm : 0 < m) (hb : 0 < b) :
    lastFirst (m * (10 * b) + q) = digitByte (q % 10) :: lastFirst (m * b + q / 10) := by
  have hpos : 0 < m * b := Nat.mul_pos hm hb
  have hswap : m * (10 * b) = 10 * (m * b) := Nat.mul_left_comm ..
  rw [hswap, lastFirst_eq, if_neg (by omega), show (10 * (m * b) + q) % 10 = q % 10 by omega,
    show (10 * (m * b) + q) / 10 = m * b + q / 10 by omega]

/-- The two approximations of a division by ten, where they are exact. -/
theorem div_ten_cd {x : Nat} (h : x < 1000) : (x * 0xcd) >>> 11 = x / 10 := by
  rw [Nat.shiftRight_eq_div_pow]
  omega

theorem div_ten_d {x : Nat} (h : x < 69) : (x * 0xd) >>> 7 = x / 10 := by
  rw [Nat.shiftRight_eq_div_pow]
  omega

theorem ofNat_digit (d : Nat) : UInt8.ofNat (d + 48) = digitByte d := by
  rw [digitByte, Nat.add_comm]

theorem sub_ten_div (x : Nat) : x - 10 * (x / 10) = x % 10 := by
  omega

/-- The nibbles of a number of five digits. -/
theorem nibbles {q : Nat} (h : q < 100000) :
    q = q % 16 + 16 * (q >>> 4 &&& 0xf) + 256 * (q >>> 8 &&& 0xf) + 4096 * (q >>> 12) ∧
      q &&& 0xf = q % 16 ∧ q >>> 4 &&& 0xf < 16 ∧ q >>> 8 &&& 0xf < 16 ∧ q >>> 12 < 25 := by
  have hand : ∀ x, x &&& 0xf = x % 16 := fun x => Nat.and_two_pow_sub_one_eq_mod x 4
  have h4 : q >>> 4 = q / 16 := Nat.shiftRight_eq_div_pow q 4
  have h8 : q >>> 8 = q / 16 / 16 := by
    rw [Nat.shiftRight_eq_div_pow, Nat.div_div_eq_div_mul]
  have h12 : q >>> 12 = q / 16 / 16 / 16 := by
    rw [Nat.shiftRight_eq_div_pow, Nat.div_div_eq_div_mul, Nat.div_div_eq_div_mul]
  rw [hand, hand, hand, h4, h8, h12]
  generalize hx : q / 16 = x
  generalize hy : x / 16 = y
  omega

/-- The sums of nibbles that stand for a number and for its first digits, each
short of them by a multiple of ten. -/
structure Carries (q d1 d2 d3 c0 c1 c2 : Nat) : Prop where
  bound : c0 < 1000 ∧ c1 < 1000 ∧ c2 < 69 ∧ c2 / 10 + 4 * d3 < 1000
  ones : q = c0 + (4090 * d3 + 250 * d2 + 10 * d1)
  tens : q / 10 = c1 + (400 * d3 + 20 * d2)
  hundreds : q / 100 = c2 + 40 * d3
  thousands : q / 1000 = c2 / 10 + 4 * d3

theorem carries {q a d1 d2 d3 : Nat} (hq : q = a + 16 * d1 + 256 * d2 + 4096 * d3)
    (ha : a < 16) (h1 : d1 < 16) (h2 : d2 < 16) (h3 : d3 < 25) :
    Carries q d1 d2 d3 (6 * (d3 + d2 + d1) + a)
      ((6 * (d3 + d2 + d1) + a) / 10 + 9 * d3 + 5 * d2 + d1)
      (((6 * (d3 + d2 + d1) + a) / 10 + 9 * d3 + 5 * d2 + d1) / 10 + 2 * d2) := by
  have hones : q = 6 * (d3 + d2 + d1) + a + (4090 * d3 + 250 * d2 + 10 * d1) := by omega
  generalize hc0 : 6 * (d3 + d2 + d1) + a = c0 at hones ⊢
  have htens : q / 10 = c0 / 10 + 9 * d3 + 5 * d2 + d1 + (400 * d3 + 20 * d2) := by omega
  generalize hc1 : c0 / 10 + 9 * d3 + 5 * d2 + d1 = c1 at htens ⊢
  have hhundreds : q / 100 = c1 / 10 + 2 * d2 + 40 * d3 := by omega
  exact ⟨by omega, hones, htens, hhundreds, by omega⟩

/-- Five digits at most, without leading zeros. -/
theorem putDecTrunc_eq {q : Nat} (h : q < 100000) : putDecTrunc q = lastFirst q := by
  obtain ⟨hq, hand, h1, h2, h3⟩ := nibbles h
  simp only [putDecTrunc, hand]
  generalize q >>> 4 &&& 0xf = d1 at *
  generalize q >>> 8 &&& 0xf = d2 at *
  generalize q >>> 12 = d3 at *
  have hc := carries hq (Nat.mod_lt q (by decide)) h1 h2 h3
  generalize 6 * (d3 + d2 + d1) + q % 16 = c0 at *
  rw [div_ten_cd hc.bound.1]
  generalize c0 / 10 + 9 * d3 + 5 * d2 + d1 = c1 at *
  rw [div_ten_cd hc.bound.2.1]
  generalize c1 / 10 + 2 * d2 = c2 at *
  rw [div_ten_d hc.bound.2.2.1]
  rw [div_ten_cd hc.bound.2.2.2]
  simp only [sub_ten_div, ofNat_digit]
  have hten : q / 10 / 10 = q / 100 := Nat.div_div_eq_div_mul ..
  have hhundred : q / 100 / 10 = q / 1000 := Nat.div_div_eq_div_mul ..
  have hones := hc.ones
  have htens := hc.tens
  have hhundreds := hc.hundreds
  have hthousands := hc.thousands
  rw [← hthousands, show c0 % 10 = q % 10 by omega, show c1 % 10 = q / 10 % 10 by omega,
    show c2 % 10 = q / 100 % 10 by omega]
  refine lastFirst_cons (by omega) fun _ => ?_
  refine lastFirst_cons (by omega) fun _ => ?_
  rw [hten]
  refine lastFirst_cons (by omega) fun _ => ?_
  rw [hhundred]
  refine lastFirst_cons Iff.rfl fun _ => ?_
  exact (lastFirst_digit (by omega)).symm

/-- The same digits, those in front of the number all zero. -/
theorem putDecFull_append {q m : Nat} (h : q < 100000) (hm : 0 < m) :
    putDecFull q ++ lastFirst m = lastFirst (m * 100000 + q) := by
  obtain ⟨hq, hand, h1, h2, h3⟩ := nibbles h
  simp only [putDecFull, hand]
  generalize q >>> 4 &&& 0xf = d1 at *
  generalize q >>> 8 &&& 0xf = d2 at *
  generalize q >>> 12 = d3 at *
  have hc := carries hq (Nat.mod_lt q (by decide)) h1 h2 h3
  generalize 6 * (d3 + d2 + d1) + q % 16 = c0 at *
  rw [div_ten_cd hc.bound.1]
  generalize c0 / 10 + 9 * d3 + 5 * d2 + d1 = c1 at *
  rw [div_ten_cd hc.bound.2.1]
  generalize c1 / 10 + 2 * d2 = c2 at *
  rw [div_ten_d hc.bound.2.2.1]
  rw [div_ten_cd hc.bound.2.2.2]
  simp only [sub_ten_div, ofNat_digit]
  have hones := hc.ones
  have htens := hc.tens
  have hhundreds := hc.hundreds
  have hthousands := hc.thousands
  have hten : q / 10 / 10 = q / 100 := Nat.div_div_eq_div_mul ..
  have hhundred : q / 100 / 10 = q / 1000 := Nat.div_div_eq_div_mul ..
  rw [← hthousands, show c0 % 10 = q % 10 by omega, show c1 % 10 = q / 10 % 10 by omega,
    show c2 % 10 = q / 100 % 10 by omega, lastFirst_below (b := 10000) q hm (by decide),
    lastFirst_below (b := 1000) _ hm (by decide), lastFirst_below (b := 100) _ hm (by decide),
    lastFirst_below (b := 10) _ hm (by decide), lastFirst_below (b := 1) _ hm (by decide),
    hten, hhundred]
  have htop : q / 1000 / 10 / 10 = 0 := by omega
  rw [htop, Nat.mod_eq_of_lt (show q / 1000 / 10 < 10 by omega), Nat.mul_one]
  rfl

/-- All groups of five, the first one without leading zeros. -/
theorem putDecLoop_eq (n : Nat) {num : Nat} (h : num < 100000 ^ n) (hn : 0 < n) :
    putDecLoop n num = lastFirst num := by
  induction n generalizing num with
  | zero => omega
  | succ n ih =>
    rw [putDecLoop]
    by_cases hlast : num < 100000
    · rw [if_pos hlast, putDecTrunc_eq hlast]
    · have hrest : num / 100000 < 100000 ^ n := by
        rw [Nat.pow_succ] at h
        exact Nat.div_lt_of_lt_mul (by rwa [Nat.mul_comm])
      have hpos : 0 < num / 100000 := by omega
      have hn' : 0 < n := by
        by_contra h0
        rw [Nat.eq_zero_of_not_pos h0] at hrest
        omega
      rw [if_neg hlast, ih hrest hn', putDecFull_append (Nat.mod_lt num (by decide)) hpos,
        Nat.div_add_mod']

/-- `put_dec` writes the numeral back to front. -/
theorem putDec_eq {num : Nat} (h : num < 2 ^ 64) : putDec num = lastFirst num :=
  putDecLoop_eq 4 (Nat.lt_trans h (by decide)) (by decide)

end EmacDriver
