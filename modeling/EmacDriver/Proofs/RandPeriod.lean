import Mathlib.Dynamics.PeriodicPts.Lemmas
import Mathlib.Order.Interval.Finset.Nat
import EmacDriver.Lib.XorMaps
import EmacDriver.Rand

namespace EmacDriver
open XorMaps Function

theorem linear_xor_self {f : BitVec 32 → BitVec 32} (hf : Linear f) :
    Linear (fun x => x ^^^ f x) := linear_id.xor hf

theorem randR_linear : Linear randR :=
  (linear_xor_self (linear_shiftLeft 5)).comp
    ((linear_xor_self (linear_ushiftRight 17)).comp (linear_xor_self (linear_shiftLeft 13)))

def randPoly : BitVec 32 := 0x003ec241

/-- Its polynomial is primitive. -/
theorem randR_minimalPeriod {seed : BitVec 32} (hs : seed ≠ 0#32) :
    minimalPeriod randR seed = 4294967295 := by
  have hact := linear_ext (randR_linear.iterate 32) (act_linear randR_linear randPoly)
    (by decide +kernel)
  -- the inverses that show the order of the unknown to be no smaller
  have hcert : ∀ q, q.Prime → q ∣ 4294967295 →
      ∃ i, mul randPoly i (pow randPoly 32 (4294967295 / q) ^^^ 1#32) = 1#32 := by
    intro q hq h
    rcases prime_of_dvd_full hq h with rfl | rfl | rfl | rfl | rfl
    · exact ⟨0x9a1b191d, by decide +kernel⟩
    · exact ⟨0x256daa81, by decide +kernel⟩
    · exact ⟨0x552bd776, by decide +kernel⟩
    · exact ⟨0xac9b5802, by decide +kernel⟩
    · exact ⟨0xd1472012, by decide +kernel⟩
  exact minimalPeriod_eq randR_linear (by decide) (congrFun hact) (by decide) (by decide +kernel)
    hcert hs

theorem randR_ne_zero {seed : BitVec 32} (hs : seed ≠ 0#32) (n : Nat) : randR^[n] seed ≠ 0#32 := by
  intro hn
  have hper : IsPeriodicPt randR (4294967295 * n) seed :=
    (randR_minimalPeriod hs ▸ isPeriodicPt_minimalPeriod randR seed).mul_const n
  have hsplit : 4294967295 * n = (4294967295 * n - n) + n := by omega
  have hback : randR^[4294967295 * n] seed = seed := hper
  rw [hsplit, iterate_add_apply, hn, (randR_linear.iterate _).zero] at hback
  exact hs hback.symm

/-- From any seed but zero the generator goes through every other word once before it comes
back: `rand_r` returns each of them at exactly one place of its cycle. -/
theorem rand_r_full_period {seed : BitVec 32} (hs : seed ≠ 0#32) :
    (∀ n, randR^[n] seed = seed ↔ 4294967295 ∣ n) ∧
      ∀ y, y ≠ 0#32 → ∃! n, n < 4294967295 ∧ randR^[n] seed = y := by
  have hperiod := randR_minimalPeriod hs
  constructor
  · intro n
    rw [← hperiod]
    exact isPeriodicPt_iff_minimalPeriod_dvd
  · intro y hy
    have hinj : ∀ i j, i < 4294967295 → j < 4294967295 → randR^[i] seed = randR^[j] seed →
        i = j := by
      intro i j hi hj he
      exact (iterate_eq_iterate_iff_of_lt_minimalPeriod (hperiod ▸ hi) (hperiod ▸ hj)).mp he
    have hpos {x : BitVec 32} (hx : x ≠ 0#32) : 0 < x.toNat :=
      Nat.pos_of_ne_zero fun h => hx (BitVec.eq_of_toNat_eq h)
    have hsurj := Finset.surjOn_of_injOn_of_card_le (s := Finset.range 4294967295)
      (t := Finset.Ioo 0 4294967296) (f := fun n => (randR^[n] seed).toNat)
      (by
        intro n _
        rw [Finset.coe_Ioo]
        exact ⟨hpos (randR_ne_zero hs n), (randR^[n] seed).isLt⟩)
      (by
        intro i hi j hj he
        rw [Finset.coe_range] at hi hj
        exact hinj i j hi hj (BitVec.eq_of_toNat_eq he))
      (by rw [Finset.card_range, Nat.card_Ioo])
    have hmem : y.toNat ∈ (Finset.Ioo 0 4294967296 : Finset Nat) :=
      Finset.mem_Ioo.mpr ⟨hpos hy, y.isLt⟩
    obtain ⟨n, hn, hval⟩ := hsurj hmem
    rw [Finset.coe_range] at hn
    refine ⟨n, ⟨hn, BitVec.eq_of_toNat_eq hval⟩, ?_⟩
    rintro k ⟨hk, rfl⟩
    exact hinj k n hk hn (BitVec.eq_of_toNat_eq hval).symm

theorem rand_r_full_period_one : ∃! n, n < 4294967295 ∧ randR^[n] 1 = 0xffffffff :=
  (rand_r_full_period (by decide)).2 0xffffffff (by decide)

/-- The bits of an address that are left of its random bytes, as one word. -/
def keptBits (seed : BitVec 32) : BitVec 48 :=
  let byte (n : Nat) : BitVec 48 := ((randR^[n] seed).setWidth 8).setWidth 48
  (byte 1 >>> 2) ^^^ (byte 2 <<< 8) ^^^ (byte 3 <<< 16) ^^^ (byte 4 <<< 24) ^^^ (byte 5 <<< 32) ^^^
    (byte 6 <<< 40)

theorem keptBits_linear : Linear keptBits := by
  have hbyte (n : Nat) : Linear (fun x => ((randR^[n] x).setWidth 8).setWidth 48) :=
    linear_setWidth.comp (linear_setWidth.comp (randR_linear.iterate n))
  exact (((((linear_ushiftRight 2).comp (hbyte 1)).xor ((linear_shiftLeft 8).comp (hbyte 2))).xor
    ((linear_shiftLeft 16).comp (hbyte 3))).xor ((linear_shiftLeft 24).comp (hbyte 4))).xor
      ((linear_shiftLeft 32).comp (hbyte 5)) |>.xor ((linear_shiftLeft 40).comp (hbyte 6))

/-- The columns of a map that finds the seed again. -/
def seedCols : List (BitVec 32) :=
  [0x70411f51, 0x3f5741fe, 0x757993b6, 0xe3bdeb4a, 0x17b376b0, 0x3c167b38, 0, 0, 0x299bf3b4,
    0x2776d838, 0xe609e624, 0xdedbf00e, 0xb033e308, 0x70674610, 0x88281563, 0x3eaf49ae, 0xb5097e41,
    0x4bf04092, 0xfabe9278, 0x2aa85bac, 0xecc62421, 0xd52b6e51, 0x8bb460b2, 0xcdcfdb14, 0x22052312,
    0x36d28519, 0x8c8f9606, 0xd0c8a024, 0xaa465002, 0x84440020, 0x631e8f5b, 0x37170282, 0xe8645012,
    0, 0, 0, 0, 0, 0, 0, 0x0ca72613]

/-- The seed is found again in the bits that an address keeps. -/
theorem ofCols_keptBits (seed : BitVec 32) : ofCols 32 seedCols (keptBits seed) = seed := by
  have hext := linear_ext ((ofCols_linear seedCols).comp keptBits_linear) linear_id
    (by decide +kernel)
  exact congrFun hext seed

def addrBits (addr : Mac) : BitVec 48 :=
  let byte (n : Nat) : BitVec 48 := (addr.toList.getD n 0).toBitVec.setWidth 48
  (byte 0 >>> 2) ^^^ (byte 1 <<< 8) ^^^ (byte 2 <<< 16) ^^^ (byte 3 <<< 24) ^^^ (byte 4 <<< 32) ^^^
    (byte 5 <<< 40)

theorem randomEthaddr_first (seed : BitVec 32) :
    (randomEthaddr seed).toList.getD 0 0 =
      (UInt8.ofBitVec ((randR seed).setWidth 8) &&& 0xfe) ||| 0x02 := by
  simp [randomEthaddr, localAddr, randomBytes]

theorem first_byte_bits (x : BitVec 8) :
    ((((UInt8.ofBitVec x &&& 0xfe) ||| 0x02).toBitVec.setWidth 48) >>> 2) =
      x.setWidth 48 >>> 2 := by
  revert x
  decide +kernel

theorem addrBits_randomEthaddr (seed : BitVec 32) :
    addrBits (randomEthaddr seed) = keptBits seed := by
  rw [addrBits]
  simp only [randomEthaddr_first, first_byte_bits]
  simp [randomEthaddr, localAddr, randomBytes, keptBits]

/-- Every address drawn is one a device may have, locally administered, and two are the same
only for clocks that show the same in their low 32 bits. -/
theorem random_ethaddr_distinct (s s' : Host) :
    isValidEthaddr (netRandomEthaddr s).1 = true ∧
      (netRandomEthaddr s).1.toList.getD 0 0 &&& 0x03 = 0x02 ∧
      ((netRandomEthaddr s).1 = (netRandomEthaddr s').1 ↔
        (getTimer s 0).1.toBitVec.setWidth 32 = (getTimer s' 0).1.toBitVec.setWidth 32) := by
  have hfirst : ∀ x : BitVec 8, ((UInt8.ofBitVec x &&& 0xfe) ||| 0x02) &&& 0x03 = 0x02 ∧
      (0x01 : UInt8) &&& ((UInt8.ofBitVec x &&& 0xfe) ||| 0x02) = 0 := by
    decide +kernel
  obtain ⟨hlocal, hunicast⟩ := hfirst ((randR ((getTimer s 0).1.toBitVec.setWidth 32)).setWidth 8)
  rw [← randomEthaddr_first] at hlocal hunicast
  refine ⟨?_, hlocal, ?_⟩
  · have hbyte (addr : Mac) : addr.toList.getD 0 0 = addr[0] := by
      rw [List.getD_eq_getElem?_getD, List.getElem?_eq_getElem (by simp), Option.getD_some,
        Vector.getElem_toList]
    rw [hbyte] at hlocal hunicast
    have hpos : (randomEthaddr ((getTimer s 0).1.toBitVec.setWidth 32))[0] ≠ 0 := by
      intro hz
      rw [hz] at hlocal
      exact absurd hlocal (by decide)
    have hmulti : isMulticastEthaddr (randomEthaddr ((getTimer s 0).1.toBitVec.setWidth 32)) =
        false := by
      rw [isMulticastEthaddr, hunicast]
      rfl
    have hzero : isZeroEthaddr (randomEthaddr ((getTimer s 0).1.toBitVec.setWidth 32)) = false := by
      rw [isZeroEthaddr, beq_eq_false_iff_ne]
      simp only [ne_eq, UInt8.or_eq_zero_iff]
      exact fun h => hpos h.1.1.1.1.1
    show isValidEthaddr (randomEthaddr ((getTimer s 0).1.toBitVec.setWidth 32)) = true
    rw [isValidEthaddr, hmulti, hzero]
    rfl
  · constructor
    · intro he
      have hbits := congrArg addrBits he
      rw [netRandomEthaddr, netRandomEthaddr, addrBits_randomEthaddr,
        addrBits_randomEthaddr] at hbits
      have hseed := congrArg (ofCols 32 seedCols) hbits
      rwa [ofCols_keptBits, ofCols_keptBits] at hseed
    · exact congrArg randomEthaddr

end EmacDriver
