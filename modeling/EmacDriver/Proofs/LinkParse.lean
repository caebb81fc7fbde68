import EmacDriver.Lib.Bits
import EmacDriver.Proofs.LinkUpdate

namespace EmacDriver
open Bits

def fixedReads (regs : Int → BitVec 32) : MdioRead Unit := fun _ _ reg s => (regs reg, s)

def zeroed (regs : Int → BitVec 32) (reg : Int) : BitVec 32 :=
  if (regs reg).slt 0 then 0 else regs reg

variable {k : Ethtool} {devad : Int} {phydev : PhyDevice} {regs : Int → BitVec 32}

def Gigabit (k : Ethtool) (phydev : PhyDevice) : Prop :=
  phydev.supported &&& (k.mask .baseT1000Full ||| k.mask .baseT1000Half) ≠ 0

instance : Decidable (Gigabit k phydev) := inferInstanceAs (Decidable (_ ≠ _))

/-- The common gigabit abilities, of a `STAT1000` checked and a `CTRL1000` not. -/
def gigabitCommon (regs : Int → BitVec 32) : BitVec 32 := zeroed regs 0x0a &&& (regs 0x09 <<< 2)

def Extended (regs : Int → BitVec 32) : Prop :=
  regs 0x01 &&& 0x0100 ≠ 0 ∧ regs 0x01 &&& 0x0001 = 0 ∧ regs 0x0f &&& 0xf000 ≠ 0

instance : Decidable (Extended regs) := inferInstanceAs (Decidable (_ ∧ _))

def FullDuplex (lpa : BitVec 32) : Prop :=
  lpa &&& 0x0100 ≠ 0 ∨ lpa &&& 0x0080 = 0 ∧ lpa &&& 0x0040 ≠ 0

instance (lpa : BitVec 32) : Decidable (FullDuplex lpa) := inferInstanceAs (Decidable (_ ∨ _))

def Ethtool.duplexOf (k : Ethtool) (full : Prop) [Decidable full] : Int :=
  if full then k.duplexFull else k.duplexHalf

theorem duplexOf_eq_iff {p q : Prop} [Decidable p] [Decidable q] :
    k.duplexOf p = k.duplexOf q ↔ (p ↔ q) := by
  have hne := k.duplex_ne
  unfold Ethtool.duplexOf
  by_cases hp : p <;> by_cases hq : q
  · simp [hp, hq]
  · simp [hp, hq, hne.symm]
  · simp [hp, hq, hne]
  · simp [hp, hq]

theorem and_180 (lpa : BitVec 32) :
    lpa &&& 0x0180 = 0 ↔ lpa &&& 0x0100 = 0 ∧ lpa &&& 0x0080 = 0 :=
  and_or_eq_zero (a := 0x0100) (b := 0x0080)

theorem and_1c0 (lpa : BitVec 32) :
    lpa &&& 0x01c0 = 0 ↔ lpa &&& 0x0180 = 0 ∧ ¬ FullDuplex lpa := by
  have hsplit : lpa &&& 0x01c0 = 0 ↔ lpa &&& 0x0180 = 0 ∧ lpa &&& 0x0040 = 0 :=
    and_or_eq_zero (a := 0x0180) (b := 0x0040)
  rw [hsplit, FullDuplex, and_180]
  constructor
  · rintro ⟨⟨h8, h7⟩, h6⟩
    exact ⟨⟨h8, h7⟩, fun h => h.elim (fun h => h h8) (fun h => h.2 h6)⟩
  · rintro ⟨⟨h8, h7⟩, hno⟩
    exact ⟨⟨h8, h7⟩, by_contra fun h6 => hno (Or.inr ⟨h7, h6⟩)⟩

/-- One test for the duplex, whatever the speed. -/
theorem slowMode_duplex (lpa : BitVec 32) :
    (if lpa &&& 0x0180 ≠ 0 then (k.speed100, k.duplexOf (lpa &&& 0x0100 ≠ 0))
      else (k.speed10, k.duplexOf (lpa &&& 0x0040 ≠ 0))) =
    (if lpa &&& 0x0180 ≠ 0 then k.speed100 else k.speed10, k.duplexOf (FullDuplex lpa)) := by
  by_cases h : lpa &&& 0x0180 = 0
  · obtain ⟨h8, h7⟩ := (and_180 lpa).mp h
    have hfull : FullDuplex lpa ↔ lpa &&& 0x0040 ≠ 0 :=
      ⟨fun hf => hf.elim (fun hf => absurd h8 hf) And.right, fun h6 => Or.inr ⟨h7, h6⟩⟩
    rw [if_neg (not_not_intro h), if_neg (not_not_intro h), duplexOf_eq_iff.mpr hfull]
  · have hfull : FullDuplex lpa ↔ lpa &&& 0x0100 ≠ 0 := by
      refine ⟨fun hf => ?_, Or.inl⟩
      rcases hf with h8 | ⟨h7, -⟩
      · exact h8
      · exact fun h8 => h ((and_180 lpa).mpr ⟨h8, h7⟩)
    rw [if_pos h, if_pos h, duplexOf_eq_iff.mpr hfull]

theorem slowMode_extended {lpa estatus : BitVec 32} (h : estatus &&& 0xf000 ≠ 0) :
    slowMode k lpa estatus =
      (k.speed1000, k.duplexOf (estatus &&& 0xa000 ≠ 0 ∨ FullDuplex lpa)) := by
  have hslow := slowMode_duplex (k := k) lpa
  simp only [Ethtool.duplexOf] at hslow
  rw [slowMode, hslow]
  show (if estatus &&& 0xf000 ≠ 0 then _ else _) = _
  rw [if_pos h]
  by_cases ha : estatus &&& 0xa000 ≠ 0
  · rw [if_pos ha, Ethtool.duplexOf, if_pos (Or.inl ha)]
  · rw [if_neg ha]
    exact congrArg _ (duplexOf_eq_iff.mpr (or_iff_right ha).symm)

theorem slowMode_plain {lpa estatus : BitVec 32} (h : estatus &&& 0xf000 = 0) :
    slowMode k lpa estatus =
      (if lpa &&& 0x0180 ≠ 0 then k.speed100 else k.speed10, k.duplexOf (FullDuplex lpa)) := by
  have hslow := slowMode_duplex (k := k) lpa
  simp only [Ethtool.duplexOf] at hslow
  rw [slowMode, hslow]
  exact if_neg (not_not_intro h)

def storedMode (k : Ethtool) (devad : Int) (phydev : PhyDevice) (regs : Int → BitVec 32) :
    Int × Int :=
  let dev := (genphyParseLink k devad (fixedReads regs) phydev ()).1.2
  (dev.speed, dev.duplex)

theorem gigabitAbilities_eq :
    gigabitAbilities k devad (fixedReads regs) phydev () =
      (if Gigabit k phydev then gigabitCommon regs else 0, ()) := by
  by_cases h : Gigabit k phydev
  · rw [if_pos h]
    exact if_pos h
  · rw [if_neg h]
    exact if_neg h

theorem genphyParseLink_aneg (han : phydev.autoneg = k.autonegEnable) :
    genphyParseLink k devad (fixedReads regs) phydev () =
      genphyParseAneg k devad (fixedReads regs) phydev (regs 0x01) () :=
  if_pos han

/-- A common gigabit mode comes first. -/
theorem storedMode_gigabit (han : phydev.autoneg = k.autonegEnable) (hg : Gigabit k phydev)
    (hc : gigabitCommon regs &&& 0x0c00 ≠ 0) :
    storedMode k devad phydev regs =
      (k.speed1000, k.duplexOf (gigabitCommon regs &&& 0x0800 ≠ 0)) := by
  simp only [storedMode, genphyParseLink_aneg han, genphyParseAneg, gigabitAbilities_eq, if_pos hg,
    if_pos hc, Ethtool.duplexOf]

theorem storedMode_slow (han : phydev.autoneg = k.autonegEnable)
    (hno : ¬ (Gigabit k phydev ∧ gigabitCommon regs &&& 0x0c00 ≠ 0)) :
    storedMode k devad phydev regs = slowMode k (regs 0x04 &&& regs 0x05)
      (if regs 0x01 &&& 0x0100 ≠ 0 ∧ regs 0x01 &&& 0x0001 = 0 then regs 0x0f else 0) := by
  have hzero : ¬ (if Gigabit k phydev then gigabitCommon regs else 0) &&& 0x0c00 ≠ 0 := by
    by_cases hg : Gigabit k phydev
    · rw [if_pos hg]
      exact fun hc => hno ⟨hg, hc⟩
    · rw [if_neg hg]
      exact not_not_intro BitVec.zero_and
  simp only [storedMode, genphyParseLink_aneg han, genphyParseAneg, gigabitAbilities_eq,
    if_neg hzero]
  by_cases hx : regs 0x01 &&& 0x0100 ≠ 0 ∧ regs 0x01 &&& 0x0001 = 0
  · simp only [if_pos hx, phyRead, fixedReads]
  · simp only [if_neg hx, phyRead, fixedReads]

theorem storedMode_extended (han : phydev.autoneg = k.autonegEnable)
    (hno : ¬ (Gigabit k phydev ∧ gigabitCommon regs &&& 0x0c00 ≠ 0)) (hx : Extended regs) :
    storedMode k devad phydev regs = (k.speed1000,
      k.duplexOf (regs 0x0f &&& 0xa000 ≠ 0 ∨ FullDuplex (regs 0x04 &&& regs 0x05))) := by
  rw [storedMode_slow han hno, if_pos ⟨hx.1, hx.2.1⟩, slowMode_extended hx.2.2]

theorem storedMode_plain (han : phydev.autoneg = k.autonegEnable)
    (hno : ¬ (Gigabit k phydev ∧ gigabitCommon regs &&& 0x0c00 ≠ 0)) (hx : ¬ Extended regs) :
    storedMode k devad phydev regs =
      (if regs 0x04 &&& regs 0x05 &&& 0x0180 ≠ 0 then k.speed100 else k.speed10,
        k.duplexOf (FullDuplex (regs 0x04 &&& regs 0x05))) := by
  rw [storedMode_slow han hno]
  by_cases hb : regs 0x01 &&& 0x0100 ≠ 0 ∧ regs 0x01 &&& 0x0001 = 0
  · rw [if_pos hb, slowMode_plain (by_contra fun he => hx ⟨hb.1, hb.2, he⟩)]
  · rw [if_neg hb]
    exact slowMode_plain BitVec.zero_and

theorem zeroed_of_ok {reg : Int} (h : (regs reg).slt 0 = false) : zeroed regs reg = regs reg := by
  rw [zeroed, h]
  rfl

theorem zeroed_of_failed {reg : Int} (h : (regs reg).slt 0 = true) : zeroed regs reg = 0 :=
  if_pos h

theorem zeroed_zeroed (regs : Int → BitVec 32) : zeroed (zeroed regs) = zeroed regs := by
  funext reg
  cases h : (regs reg).slt 0 with
  | true =>
    have hz := zeroed_of_failed h
    exact zeroed_of_ok (by rw [hz]; decide)
  | false => rw [zeroed_of_ok (by rw [zeroed_of_ok h, h])]

/-- A register that shows something was read. -/
theorem zeroed_of_and {reg : Int} {mask : BitVec 32} (h : zeroed regs reg &&& mask ≠ 0) :
    zeroed regs reg = regs reg := by
  cases hr : (regs reg).slt 0 with
  | true =>
    rw [zeroed_of_failed hr] at h
    exact absurd BitVec.zero_and h
  | false => exact zeroed_of_ok hr

theorem Extended.of_zeroed (h : Extended (zeroed regs)) :
    Extended regs ∧ zeroed regs 0x0f = regs 0x0f := by
  obtain ⟨h1, h2, h3⟩ := h
  have hb := zeroed_of_and h1
  have he := zeroed_of_and h3
  rw [hb] at h1 h2
  rw [he] at h3
  exact ⟨⟨h1, h2, h3⟩, he⟩

def Lost (regs : Int → BitVec 32) : Prop := (regs 0x04).slt 0 = true ∨ (regs 0x05).slt 0 = true

instance : Decidable (Lost regs) := inferInstanceAs (Decidable (_ ∨ _))

theorem lpa_of_lost (h : Lost regs) : zeroed regs 0x04 &&& zeroed regs 0x05 = 0 := by
  rcases h with h | h
  · rw [zeroed_of_failed h]
    exact BitVec.zero_and
  · rw [zeroed_of_failed h]
    exact BitVec.and_zero

theorem lpa_of_not_lost (h : ¬ Lost regs) :
    zeroed regs 0x04 &&& zeroed regs 0x05 = regs 0x04 &&& regs 0x05 := by
  obtain ⟨h4, h5⟩ := not_or.mp h
  rw [zeroed_of_ok (Bool.eq_false_iff.mpr h4), zeroed_of_ok (Bool.eq_false_iff.mpr h5)]

/-- When failed reads do as zeros would: an unread `CTRL1000` or `ESTATUS` does not
show a gigabit, an unread `ADVERTISE` or `LPA` no mode, unless what was read shows
the same mode. -/
def ParsesAsZero (k : Ethtool) (phydev : PhyDevice) (regs : Int → BitVec 32) : Prop :=
  if Gigabit k phydev ∧ gigabitCommon regs &&& 0x0c00 ≠ 0 then
    (regs 0x09).slt 0 = false ∨
      Extended (zeroed regs) ∧ (gigabitCommon regs &&& 0x0800 ≠ 0 ↔
        regs 0x0f &&& 0xa000 ≠ 0 ∨ FullDuplex (zeroed regs 0x04 &&& zeroed regs 0x05))
  else if Extended (zeroed regs) then
    regs 0x0f &&& 0xa000 ≠ 0 ∨ (Lost regs → ¬ FullDuplex (regs 0x04 &&& regs 0x05))
  else ¬ Extended regs ∧ (Lost regs → regs 0x04 &&& regs 0x05 &&& 0x01c0 = 0)

theorem gigabitCommon_of_ok (h : (regs 0x09).slt 0 = false) :
    gigabitCommon (zeroed regs) = gigabitCommon regs := by
  rw [gigabitCommon, zeroed_zeroed, zeroed_of_ok h, gigabitCommon]

theorem gigabitCommon_of_failed (h : (regs 0x09).slt 0 = true) :
    gigabitCommon (zeroed regs) = 0 := by
  rw [gigabitCommon, zeroed_zeroed, zeroed_of_failed h]
  exact BitVec.and_zero

theorem gigabitCommon_zeroed {mask : BitVec 32} (h : gigabitCommon (zeroed regs) &&& mask ≠ 0) :
    (regs 0x09).slt 0 = false := by
  cases hctrl : (regs 0x09).slt 0 with
  | false => rfl
  | true =>
    rw [gigabitCommon_of_failed hctrl] at h
    exact absurd BitVec.zero_and h

theorem not_fullDuplex_zero : ¬ FullDuplex 0 := by decide

theorem slow_ne_gigabit (lpa : BitVec 32) :
    (if lpa &&& 0x0180 ≠ 0 then k.speed100 else k.speed10) ≠ k.speed1000 := by
  have h10 := k.speed10_lt
  have h100 := k.speed100_lt
  split
  · exact Int.ne_of_lt h100
  · exact Int.ne_of_lt (Int.lt_trans h10 h100)

/-- Below a gigabit, the abilities show the same mode as none only if they show none. -/
theorem slow_eq_zero_iff (lpa : BitVec 32) :
    ((if lpa &&& 0x0180 ≠ 0 then k.speed100 else k.speed10, k.duplexOf (FullDuplex lpa)) : Int × Int)
        = (if (0 : BitVec 32) &&& 0x0180 ≠ 0 then k.speed100 else k.speed10,
          k.duplexOf (FullDuplex 0)) ↔ lpa &&& 0x01c0 = 0 := by
  have hzero : ¬ (0 : BitVec 32) &&& 0x0180 ≠ 0 := not_not_intro BitVec.zero_and
  have hspeed : (if lpa &&& 0x0180 ≠ 0 then k.speed100 else k.speed10) = k.speed10 ↔
      lpa &&& 0x0180 = 0 := by
    by_cases h : lpa &&& 0x0180 = 0
    · rw [if_neg (not_not_intro h)]
      exact ⟨fun _ => h, fun _ => rfl⟩
    · rw [if_pos h]
      exact ⟨fun he => absurd he (Int.ne_of_gt k.speed10_lt), fun he => absurd he h⟩
  rw [if_neg hzero, Prod.mk.injEq, hspeed, duplexOf_eq_iff, and_1c0]
  exact and_congr_right fun _ => ⟨fun h hf => not_fullDuplex_zero (h.mp hf),
    fun h => ⟨fun hf => absurd hf h, fun hf => absurd hf not_fullDuplex_zero⟩⟩

/-- A gigabit that the registers show when none of them is checked. -/
theorem storedMode_gigabit_iff (devad : Int) (han : phydev.autoneg = k.autonegEnable)
    (hg : Gigabit k phydev) (hc : gigabitCommon regs &&& 0x0c00 ≠ 0) :
    storedMode k devad phydev regs = storedMode k devad phydev (zeroed regs) ↔
      (regs 0x09).slt 0 = false ∨
        Extended (zeroed regs) ∧ (gigabitCommon regs &&& 0x0800 ≠ 0 ↔
          regs 0x0f &&& 0xa000 ≠ 0 ∨ FullDuplex (zeroed regs 0x04 &&& zeroed regs 0x05)) := by
  rw [storedMode_gigabit han hg hc]
  cases hctrl : (regs 0x09).slt 0 with
  | false =>
    have hsame := gigabitCommon_of_ok hctrl
    rw [storedMode_gigabit han hg (by rw [hsame]; exact hc), hsame]
    exact ⟨fun _ => Or.inl rfl, fun _ => rfl⟩
  | true =>
    have hnone : ¬ (Gigabit k phydev ∧ gigabitCommon (zeroed regs) &&& 0x0c00 ≠ 0) := by
      rintro ⟨-, hc⟩
      rw [gigabitCommon_zeroed hc] at hctrl
      cases hctrl
    rw [or_iff_right (by decide)]
    by_cases hx : Extended (zeroed regs)
    · rw [storedMode_extended han hnone hx, hx.of_zeroed.2, Prod.mk.injEq, duplexOf_eq_iff]
      exact and_congr_left fun _ => ⟨fun _ => hx, fun _ => rfl⟩
    · rw [storedMode_plain han hnone hx, Prod.mk.injEq]
      exact ⟨fun h => absurd h.1.symm (slow_ne_gigabit _), fun h => absurd h.1 hx⟩

/-- No gigabit there, but one in `ESTATUS`: the duplex is left to compare. -/
theorem storedMode_extended_iff (devad : Int) (han : phydev.autoneg = k.autonegEnable)
    (hno : ¬ (Gigabit k phydev ∧ gigabitCommon regs &&& 0x0c00 ≠ 0))
    (hnone : ¬ (Gigabit k phydev ∧ gigabitCommon (zeroed regs) &&& 0x0c00 ≠ 0))
    (hx : Extended (zeroed regs)) :
    storedMode k devad phydev regs = storedMode k devad phydev (zeroed regs) ↔
      regs 0x0f &&& 0xa000 ≠ 0 ∨ (Lost regs → ¬ FullDuplex (regs 0x04 &&& regs 0x05)) := by
  rw [storedMode_extended han hno hx.of_zeroed.1, storedMode_extended han hnone hx,
    hx.of_zeroed.2, Prod.mk.injEq, duplexOf_eq_iff, and_iff_right rfl]
  by_cases hl : Lost regs
  · rw [lpa_of_lost hl]
    constructor
    · intro h
      by_cases ha : regs 0x0f &&& 0xa000 ≠ 0
      · exact Or.inl ha
      · refine Or.inr fun _ hf => ?_
        exact (h.mp (Or.inr hf)).elim ha not_fullDuplex_zero
    · rintro (ha | hf)
      · exact ⟨fun _ => Or.inl ha, fun _ => Or.inl ha⟩
      · exact or_congr_right ⟨fun h => absurd h (hf hl), fun h => absurd h not_fullDuplex_zero⟩
  · rw [lpa_of_not_lost hl]
    exact ⟨fun _ => Or.inr fun h => absurd h hl, fun _ => Iff.rfl⟩

/-- No gigabit at all in what was read. -/
theorem storedMode_plain_iff (devad : Int) (han : phydev.autoneg = k.autonegEnable)
    (hno : ¬ (Gigabit k phydev ∧ gigabitCommon regs &&& 0x0c00 ≠ 0))
    (hnone : ¬ (Gigabit k phydev ∧ gigabitCommon (zeroed regs) &&& 0x0c00 ≠ 0))
    (hx : ¬ Extended (zeroed regs)) :
    storedMode k devad phydev regs = storedMode k devad phydev (zeroed regs) ↔
      ¬ Extended regs ∧ (Lost regs → regs 0x04 &&& regs 0x05 &&& 0x01c0 = 0) := by
  rw [storedMode_plain han hnone hx]
  by_cases hxr : Extended regs
  · rw [storedMode_extended han hno hxr, Prod.mk.injEq]
    exact ⟨fun h => absurd h.1.symm (slow_ne_gigabit _), fun h => absurd hxr h.1⟩
  · rw [storedMode_plain han hno hxr]
    by_cases hl : Lost regs
    · rw [lpa_of_lost hl, slow_eq_zero_iff]
      exact ⟨fun h => ⟨hxr, fun _ => h⟩, fun h => h.2 hl⟩
    · rw [lpa_of_not_lost hl]
      exact ⟨fun _ => ⟨hxr, fun h => absurd h hl⟩, fun _ => rfl⟩

/-- Failed reads and zeros store one mode, just when the condition holds. -/
theorem storedMode_zeroed_iff (devad : Int) (han : phydev.autoneg = k.autonegEnable) :
    storedMode k devad phydev regs = storedMode k devad phydev (zeroed regs) ↔
      ParsesAsZero k phydev regs := by
  rw [ParsesAsZero]
  by_cases hgig : Gigabit k phydev ∧ gigabitCommon regs &&& 0x0c00 ≠ 0
  · rw [if_pos hgig]
    exact storedMode_gigabit_iff devad han hgig.1 hgig.2
  · have hnone : ¬ (Gigabit k phydev ∧ gigabitCommon (zeroed regs) &&& 0x0c00 ≠ 0) := by
      rintro ⟨hg, hc⟩
      rw [gigabitCommon_of_ok (gigabitCommon_zeroed hc)] at hc
      exact hgig ⟨hg, hc⟩
    rw [if_neg hgig]
    by_cases hx : Extended (zeroed regs)
    · rw [if_pos hx]
      exact storedMode_extended_iff devad han hgig hnone hx
    · rw [if_neg hx]
      exact storedMode_plain_iff devad han hgig hnone hx

/-- The mode stored with failed reads is the one with zeros, and no faster. -/
theorem genphy_parse_link_iff (k : Ethtool) (devad : Int) (phydev : PhyDevice)
    (regs : Int → BitVec 32) (han : phydev.autoneg = k.autonegEnable) :
    ((genphyParseLink k devad (fixedReads regs) phydev ()).1.2.speed =
        (genphyParseLink k devad (fixedReads (zeroed regs)) phydev ()).1.2.speed ∧
      (genphyParseLink k devad (fixedReads regs) phydev ()).1.2.duplex =
        (genphyParseLink k devad (fixedReads (zeroed regs)) phydev ()).1.2.duplex ∧
      (genphyParseLink k devad (fixedReads regs) phydev ()).1.2.speed ≤
        (genphyParseLink k devad (fixedReads (zeroed regs)) phydev ()).1.2.speed) ↔
      ParsesAsZero k phydev regs := by
  rw [← storedMode_zeroed_iff devad han, storedMode, storedMode, Prod.mk.injEq]
  exact ⟨fun h => ⟨h.1, h.2.1⟩, fun h => ⟨h.1, h.2, Int.le_of_eq h.1⟩⟩

def lostStat (reg : Int) : BitVec 32 := if reg = 0x0a then -1 else 0

theorem lostStat_parsesAsZero : ParsesAsZero linuxEthtool newPhyDevice lostStat := by
  have hcommon : gigabitCommon lostStat &&& 0x0c00 = 0 := by decide
  have hext : ¬Extended (zeroed lostStat) := by
    rw [Extended]
    decide
  have hext' : ¬Extended lostStat := by
    rw [Extended]
    decide
  rw [ParsesAsZero, if_neg fun h => h.2 hcommon, if_neg hext]
  exact ⟨hext', fun _ => by decide⟩

theorem genphy_parse_link_stat1000 :
    (genphyParseLink linuxEthtool (-1) (fixedReads lostStat) newPhyDevice ()).1.2.speed =
        (genphyParseLink linuxEthtool (-1) (fixedReads (zeroed lostStat)) newPhyDevice ()).1.2.speed ∧
      (genphyParseLink linuxEthtool (-1) (fixedReads lostStat) newPhyDevice ()).1.2.duplex =
        (genphyParseLink linuxEthtool (-1) (fixedReads (zeroed lostStat)) newPhyDevice ()).1.2.duplex ∧
      (genphyParseLink linuxEthtool (-1) (fixedReads lostStat) newPhyDevice ()).1.2.speed ≤
        (genphyParseLink linuxEthtool (-1) (fixedReads (zeroed lostStat)) newPhyDevice ()).1.2.speed :=
  (genphy_parse_link_iff linuxEthtool (-1) newPhyDevice lostStat rfl).mpr lostStat_parsesAsZero

/-- `CTRL1000` fails: the partner's `STAT1000` alone makes a gigabit. -/
theorem genphy_parse_link_ctrl1000 :
    let regs : Int → BitVec 32 := fun reg =>
      if reg = 0x0a then 0x0800 else if reg = 0x09 then -1 else 0
    let actual := (genphyParseLink linuxEthtool (-1) (fixedReads regs) newPhyDevice ()).1.2
    let asZero := (genphyParseLink linuxEthtool (-1) (fixedReads (zeroed regs)) newPhyDevice ()).1.2
    (actual.speed = 1000 ∧ actual.duplex = 1) ∧ asZero.speed = 10 ∧ asZero.duplex = 0 := by
  decide +kernel

end EmacDriver
