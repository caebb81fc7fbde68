import EmacDriver.PhySearch
import EmacDriver.Proofs.Advertisement
import EmacDriver.Proofs.LinkParse

namespace EmacDriver
open Bits

variable {σ : Type} {k : Ethtool} {read : MdioRead σ} {write : MdioWrite σ} {devad : Int}
  {phydev : PhyDevice}

/-- A mode, and where the partner shows it. -/
structure LinkMode where
  feature : Feature
  offered : PartnerRegs → Bool
  speed : Int
  duplex : Int

/-- The modes above 10 half, the best first. -/
def linkModes (k : Ethtool) : List LinkMode :=
  [⟨.baseT1000Full, fun p => p.stat1000.getLsbD 11, k.speed1000, k.duplexFull⟩,
    ⟨.baseT1000Half, fun p => p.stat1000.getLsbD 10, k.speed1000, k.duplexHalf⟩,
    ⟨.baseT100Full, fun p => p.lpa.getLsbD 8, k.speed100, k.duplexFull⟩,
    ⟨.baseT100Half, fun p => p.lpa.getLsbD 7, k.speed100, k.duplexHalf⟩,
    ⟨.baseT10Full, fun p => p.lpa.getLsbD 6, k.speed10, k.duplexFull⟩]

def bestMode (k : Ethtool) (advertising : BitVec 32) (partner : PartnerRegs) : Int × Int :=
  match (linkModes k).find? fun m => k.has advertising m.feature && m.offered partner with
  | some m => (m.speed, m.duplex)
  | none => (k.speed10, k.duplexHalf)

theorem bestMode_eq (advertising : BitVec 32) (partner : PartnerRegs) :
    bestMode k advertising partner =
      if k.has advertising .baseT1000Full && partner.stat1000.getLsbD 11 then
        (k.speed1000, k.duplexFull)
      else if k.has advertising .baseT1000Half && partner.stat1000.getLsbD 10 then
        (k.speed1000, k.duplexHalf)
      else if k.has advertising .baseT100Full && partner.lpa.getLsbD 8 then
        (k.speed100, k.duplexFull)
      else if k.has advertising .baseT100Half && partner.lpa.getLsbD 7 then
        (k.speed100, k.duplexHalf)
      else if k.has advertising .baseT10Full && partner.lpa.getLsbD 6 then
        (k.speed10, k.duplexFull)
      else (k.speed10, k.duplexHalf) := by
  simp only [bestMode, linkModes, List.find?_cons, List.find?_nil]
  cases k.has advertising .baseT1000Full && partner.stat1000.getLsbD 11
  · cases k.has advertising .baseT1000Half && partner.stat1000.getLsbD 10
    · cases k.has advertising .baseT100Full && partner.lpa.getLsbD 8
      · cases k.has advertising .baseT100Half && partner.lpa.getLsbD 7
        · cases k.has advertising .baseT10Full && partner.lpa.getLsbD 6 <;> rfl
        · rfl
      · rfl
    · rfl
  · rfl

/-- The mode parsed, by the bits of the common abilities. -/
theorem parsed_bits (g l : BitVec 32) :
    (if g &&& 0x0c00 ≠ 0 then (k.speed1000, k.duplexOf (g &&& 0x0800 ≠ 0)) else slowMode k l 0) =
      if g.getLsbD 11 then (k.speed1000, k.duplexFull)
      else if g.getLsbD 10 then (k.speed1000, k.duplexHalf)
      else if l.getLsbD 8 then (k.speed100, k.duplexFull)
      else if l.getLsbD 7 then (k.speed100, k.duplexHalf)
      else if l.getLsbD 6 then (k.speed10, k.duplexFull)
      else (k.speed10, k.duplexHalf) := by
  have h11 : g &&& 0x0800 = 0 ↔ g.getLsbD 11 = false := and_bit g 11 (by decide)
  have h10 : g &&& 0x0400 = 0 ↔ g.getLsbD 10 = false := and_bit g 10 (by decide)
  have h8 : l &&& 0x0100 = 0 ↔ l.getLsbD 8 = false := and_bit l 8 (by decide)
  have h7 : l &&& 0x0080 = 0 ↔ l.getLsbD 7 = false := and_bit l 7 (by decide)
  have h6 : l &&& 0x0040 = 0 ↔ l.getLsbD 6 = false := and_bit l 6 (by decide)
  have hc : g &&& 0x0c00 = 0 ↔ g.getLsbD 11 = false ∧ g.getLsbD 10 = false := by
    rw [← h11, ← h10]
    exact and_or_eq_zero (a := 0x0800) (b := 0x0400)
  have hslow : slowMode k l 0 = _ := slowMode_plain BitVec.zero_and
  rw [hslow]
  simp only [Ethtool.duplexOf, FullDuplex, ne_eq, and_180, hc, h11, h8, h7, h6]
  cases g.getLsbD 11 <;> cases g.getLsbD 10 <;> cases l.getLsbD 8 <;> cases l.getLsbD 7 <;>
    cases l.getLsbD 6 <;> rfl

namespace Transceiver

/-- The common gigabit modes, in the places of `STAT1000`. -/
def common (t : Transceiver read write devad phydev.addr) (k : Ethtool) (s : σ) : BitVec 32 :=
  if Gigabit k phydev then
    (t.partner s).stat1000.setWidth 32 &&& ((t.own s).ctrl1000.setWidth 32 <<< 2)
  else 0

theorem gigabitAbilities (t : Transceiver read write devad phydev.addr) (s : σ) :
    ∃ s', gigabitAbilities k devad read phydev s = (t.common k s, s') ∧ t.own s' = t.own s ∧
      t.partner s' = t.partner s := by
  by_cases hg : Gigabit k phydev
  · obtain ⟨v, s₁, hstat, hv, hown₁, hpartner₁⟩ := t.reads 0x0a s
    obtain ⟨c, s₂, hctrl, -, hown₂, hpartner₂⟩ := t.reads 0x09 s₁
    have hval : v = (t.partner s).stat1000.setWidth 32 := by
      rw [← t.read_stat1000 s, hstat]
    have hcval : c = (t.own s).ctrl1000.setWidth 32 := by
      rw [← hown₁, ← t.read_ctrl1000 s₁, hctrl]
    refine ⟨s₂, ?_, hown₂.trans hown₁, hpartner₂.trans hpartner₁⟩
    rw [common, if_pos hg, EmacDriver.gigabitAbilities]
    refine (if_pos hg).trans ?_
    simp only [phyRead, hstat, hv, hctrl, Bool.false_eq_true, if_false]
    rw [hval, hcval]
  · refine ⟨s, ?_, rfl, rfl⟩
    rw [common, if_neg hg]
    exact if_neg hg

/-- The mode parsed, `BMSR_ERCAP` being set. -/
theorem parse (t : Transceiver read write devad phydev.addr)
    (han : phydev.autoneg = k.autonegEnable) (s : σ) :
    ((genphyParseLink k devad read phydev s).1.2.speed,
        (genphyParseLink k devad read phydev s).1.2.duplex) =
      if t.common k s &&& 0x0c00 ≠ 0 then
        (k.speed1000, k.duplexOf (t.common k s &&& 0x0800 ≠ 0))
      else slowMode k ((t.own s).advertise.setWidth 32 &&& (t.partner s).lpa.setWidth 32) 0 := by
  obtain ⟨b, s₁, hbmsr, -, hown₁, hpartner₁⟩ := t.reads 0x01 s
  obtain ⟨s₂, hgig, hown₂, hpartner₂⟩ := t.gigabitAbilities (k := k) s₁
  obtain ⟨a, s₃, hadv, -, hown₃, hpartner₃⟩ := t.reads 0x04 s₂
  obtain ⟨l, s₄, hlpa, -⟩ := t.reads 0x05 s₃
  have hcommon : t.common k s₁ = t.common k s := by
    rw [common, hown₁, hpartner₁, common]
  have haval : a = (t.own s).advertise.setWidth 32 := by
    rw [← hown₁, ← hown₂, ← t.read_advertise s₂, hadv]
  have hlval : l = (t.partner s).lpa.setWidth 32 := by
    rw [← hpartner₁, ← hpartner₂, ← hpartner₃, ← t.read_lpa s₃, hlpa]
  have hercap : ¬ (b &&& 0x0100 ≠ 0 ∧ b &&& 0x0001 = 0) := by
    rintro ⟨-, h0⟩
    have hbit : b.getLsbD 0 = false := (and_bit b 0 (by decide)).mp h0
    have hset := (t.read_bmsr s).2
    rw [hbmsr, hbit] at hset
    cases hset
  rw [hcommon] at hgig
  subst haval hlval
  by_cases hc : t.common k s &&& 0x0c00 ≠ 0
  · simp only [genphyParseLink, genphyParseAneg, phyRead, hbmsr, if_pos han, hgig, if_pos hc,
      Ethtool.duplexOf]
  · simp only [genphyParseLink, genphyParseAneg, phyRead, hbmsr, if_pos han, hgig, if_neg hc, hadv,
      hlpa, if_neg hercap]

/-- The registers advertise what the device does, no more than it supports, and of
the gigabit modes none without `CTRL1000`. -/
structure Agrees (t : Transceiver read write devad phydev.addr) (k : Ethtool) (s : σ) : Prop where
  own : ∃ old, t.own s = advertised k phydev.supported phydev.advertising t.estaten old
  sub : ∀ f, k.has phydev.advertising f = true → k.has phydev.supported f = true
  baseX : ∀ f, f = .baseX1000Half ∨ f = .baseX1000Full → k.has phydev.supported f = false
  gigabit : t.estaten = false → ∀ f, f = .baseT1000Half ∨ f = .baseT1000Full →
    k.has phydev.supported f = false

theorem not_gigabit (hno : ∀ f, f = .baseT1000Half ∨ f = .baseT1000Full →
    k.has phydev.supported f = false) : ¬ Gigabit k phydev := by
  intro hg
  have hfull := (and_mask phydev.supported .baseT1000Full).mpr (hno _ (Or.inr rfl))
  have hhalf := (and_mask phydev.supported .baseT1000Half).mpr (hno _ (Or.inl rfl))
  exact hg (and_or_eq_zero.mpr ⟨hfull, hhalf⟩)

theorem Agrees.lpa_bit {t : Transceiver read write devad phydev.addr} {s : σ} (h : t.Agrees k s)
    {i : Nat} {f : Feature} (hf : (i, f) ∈ advertiseBits) :
    ((t.own s).advertise.setWidth 32 &&& (t.partner s).lpa.setWidth 32).getLsbD i =
      (k.has phydev.advertising f && (t.partner s).lpa.getLsbD i) := by
  obtain ⟨old, hown⟩ := h.own
  have hno {g : Feature} (hg : g = .baseX1000Half ∨ g = .baseX1000Full) :
      k.has phydev.advertising g = false := by
    rw [← Bool.not_eq_true]
    intro ha
    have hs := h.sub g ha
    rw [h.baseX g hg] at hs
    cases hs
  have hi : i < 16 := by
    have hall : ∀ q ∈ advertiseBits, q.1 < 16 := by decide
    exact hall _ hf
  have hi' : i < 32 := Nat.lt_trans hi (by decide)
  have hbit := advertisement_bit (k := k) (old.advertise.setWidth 32) hf
    (hno (Or.inl rfl)) (hno (Or.inr rfl))
  rw [hown]
  simp only [advertised, BitVec.getLsbD_and, BitVec.getLsbD_setWidth, hi, hi', hbit, decide_true,
    Bool.true_and]

/-- A bit of `STAT1000` over the bit of `CTRL1000` that asks for its mode. -/
theorem shifted_bit (stat ctrl : BitVec 16) {i : Nat} (hlo : 2 ≤ i) (hi : i < 16) :
    (stat.setWidth 32 &&& (ctrl.setWidth 32 <<< 2)).getLsbD i =
      (stat.getLsbD i && ctrl.getLsbD (i - 2)) := by
  have h32 : i < 32 := Nat.lt_trans hi (by decide)
  have h2 : ¬ i < 2 := Nat.not_lt.mpr hlo
  have hsub : i - 2 < 32 := Nat.lt_of_le_of_lt (Nat.sub_le i 2) h32
  simp only [BitVec.getLsbD_and, BitVec.getLsbD_shiftLeft, BitVec.getLsbD_setWidth, h32, h2, hsub,
    decide_true, decide_false, Bool.not_false, Bool.true_and]

theorem Agrees.common_bits {t : Transceiver read write devad phydev.addr} {s : σ}
    (h : t.Agrees k s) :
    (t.common k s).getLsbD 11 =
        (k.has phydev.advertising .baseT1000Full && (t.partner s).stat1000.getLsbD 11) ∧
      (t.common k s).getLsbD 10 =
        (k.has phydev.advertising .baseT1000Half && (t.partner s).stat1000.getLsbD 10) := by
  obtain ⟨old, hown⟩ := h.own
  by_cases hg : Gigabit k phydev
  · have hx : t.estaten = true := by
      rw [← Bool.not_eq_false]
      exact fun hx => not_gigabit (h.gigabit hx) hg
    obtain ⟨h9, h8⟩ := gigabitAdvertisement_bit (old.ctrl1000.setWidth 32) h.sub
    have hctrl : (t.own s).ctrl1000 = (gigabitAdvertisement k phydev.supported phydev.advertising
        (old.ctrl1000.setWidth 32)).setWidth 16 := by
      rw [hown, hx]
      rfl
    have hcut (x : BitVec 32) {i : Nat} (hi : i < 16) : (x.setWidth 16).getLsbD i = x.getLsbD i := by
      rw [BitVec.getLsbD_setWidth, decide_eq_true hi, Bool.true_and]
    rw [common, if_pos hg, shifted_bit _ _ (by decide) (by decide),
      shifted_bit _ _ (by decide) (by decide), hctrl, hcut _ (by decide), hcut _ (by decide), h9, h8]
    exact ⟨Bool.and_comm _ _, Bool.and_comm _ _⟩
  · have hnone {f : Feature} (hf : phydev.supported &&& k.mask f = 0) :
        k.has phydev.advertising f = false := by
      rw [← Bool.not_eq_true]
      intro ha
      have hs := h.sub f ha
      rw [(and_mask _ f).mp hf] at hs
      cases hs
    obtain ⟨hfull, hhalf⟩ := and_or_eq_zero.mp (not_not.mp hg)
    rw [common, if_neg hg, hnone hfull, hnone hhalf]
    exact ⟨rfl, rfl⟩

theorem Agrees.best {t : Transceiver read write devad phydev.addr} {s : σ} (h : t.Agrees k s)
    (han : phydev.autoneg = k.autonegEnable) :
    ((genphyParseLink k devad read phydev s).1.2.speed,
        (genphyParseLink k devad read phydev s).1.2.duplex) =
      bestMode k phydev.advertising (t.partner s) := by
  obtain ⟨h11, h10⟩ := h.common_bits
  have h8 := h.lpa_bit (i := 8) (f := .baseT100Full) (by decide)
  have h7 := h.lpa_bit (i := 7) (f := .baseT100Half) (by decide)
  have h6 := h.lpa_bit (i := 6) (f := .baseT10Full) (by decide)
  rw [t.parse han s, parsed_bits, bestMode_eq, h11, h10, h8, h7, h6]

/-- `genphy_config` makes the registers agree with the device it leaves. -/
theorem agrees_of_config (phydev : PhyDevice) (features : BitVec 32) {s : σ} {old : OwnRegs}
    (t : Transceiver read write devad (configured phydev features).addr)
    (hown : t.own s = advertised k (configured phydev features).supported
      (configured phydev features).advertising t.estaten old)
    (hbound : ∀ f, k.has phydev.supported f = true → k.has k.genphyFeatures f = true)
    (hbmsr : t.estaten = false → ∃ val, features = bmsrFeatures k val) : t.Agrees k s := by
  refine ⟨⟨old, hown⟩, ?_, ?_, ?_⟩
  · intro f hf
    rw [configured, has_and, Bool.and_eq_true] at hf
    exact hf.2
  · intro f hf
    have hsupported : k.has phydev.supported f = false := by
      rw [← Bool.not_eq_true]
      intro hs
      have hg := hbound f hs
      rw [genphyFeatures_baseX hf] at hg
      cases hg
    rw [configured, has_and, hsupported, Bool.false_and]
  · intro hx f hf
    obtain ⟨val, rfl⟩ := hbmsr hx
    rw [configured, has_and, bmsrFeatures_gigabit val hf, Bool.and_false]

end Transceiver

/-- Bound to `genphy_driver`: none of the drivers, and no feature beyond its own. -/
def GenphyBound (k : Ethtool) (phydev : PhyDevice) : Prop :=
  phydev.drv = none ∧ ∀ f, k.has phydev.supported f = true → k.has k.genphyFeatures f = true

/-- A device for which no driver is found. -/
theorem newDevice_genphyBound {drivers : List (PhyDriver σ)} {phyId : BitVec 32}
    (h : getPhyDriver drivers phyId = none) (bus addr : Nat) (interface : Int) (s : σ) :
    GenphyBound k (newDevice k drivers bus addr phyId interface s).1 := by
  rw [newDevice, phyProbe, h]
  exact ⟨rfl, fun _ hf => hf⟩

/-- Whatever the speed allowed, no feature is added that the driver lacks. -/
theorem phySetSupported_genphyBound (hbound : GenphyBound k phydev) (maxSpeed : Int) :
    GenphyBound k (phySetSupported k phydev maxSpeed).2 := by
  let Within (x : BitVec 32) := ∀ f, k.has x f = true → k.has k.genphyFeatures f = true
  have hor {x y : BitVec 32} (hx : Within x) (hy : Within y) : Within (x ||| y) := by
    intro f hf
    rw [has_or, Bool.or_eq_true] at hf
    exact hf.elim (hx f) (hy f)
  have hmask {g : Feature} (hg : k.has k.genphyFeatures g = true) : Within (k.mask g) := by
    intro f hf
    rw [has_mask, decide_eq_true_eq] at hf
    rwa [← hf]
  have hspeed : ∀ g ∈ [Feature.baseT10Half, .baseT10Full, .baseT100Half, .baseT100Full,
      .baseT1000Half, .baseT1000Full], Within (k.mask g) := by
    intro g hg
    apply hmask
    simp only [List.mem_cons, List.not_mem_nil, or_false] at hg
    rcases hg with rfl | rfl | rfl | rfl | rfl | rfl <;>
      simp [Ethtool.genphyFeatures, has_or, has_mask]
  have hports : Within (phydev.supported &&&
      (k.mask .autoneg ||| k.mask .tp ||| k.mask .mii)) := by
    intro f hf
    rw [has_and, Bool.and_eq_true] at hf
    exact hbound.2 f hf.1
  have hbt10 : Within (k.mask .baseT10Half ||| k.mask .baseT10Full) :=
    hor (hspeed _ (by decide)) (hspeed _ (by decide))
  have hbt100 := hor (hor (hspeed .baseT100Half (by decide)) (hspeed .baseT100Full (by decide)))
    hbt10
  have hbt1000 := hor (hor (hspeed .baseT1000Half (by decide)) (hspeed .baseT1000Full (by decide)))
    hbt100
  simp only [phySetSupported]
  split
  · exact ⟨hbound.1, hor hports hbt1000⟩
  · split
    · exact ⟨hbound.1, hor hports hbt100⟩
    · split
      · exact ⟨hbound.1, hor hports hbt10⟩
      · exact ⟨hbound.1, hports⟩

/-- After `genphy_config` the mode parsed is the best one of both ends, whatever the
partner shows by then. -/
theorem genphy_negotiates (k : Ethtool) (phydev : PhyDevice)
    (t : Transceiver read write devad phydev.addr) (hbound : GenphyBound k phydev)
    (han : phydev.autoneg = k.autonegEnable) (s s' : σ)
    (hkept : t.own s' = t.own (genphyConfig k devad read write phydev s).2) :
    let dev := (genphyConfig k devad read write phydev s).1.2
    let parsed := (genphyParseLink k devad read dev s').1.2
    (parsed.speed, parsed.duplex) = bestMode k dev.advertising (t.partner s') := by
  obtain ⟨features, s₁, hconfig, hown, hbmsr⟩ := t.config (k := k) han s
  rw [hconfig] at hkept ⊢
  have hagrees := Transceiver.agrees_of_config phydev features t (hkept.trans hown) hbound.2 hbmsr
  exact hagrees.best han

def gigabitPhyReg (s : OwnRegs × PartnerRegs) (reg : Int) : BitVec 16 :=
  if reg = 0x00 then 0x1000 else if reg = 0x01 then 0x7949
  else if reg = 0x04 then s.1.advertise else if reg = 0x05 then s.2.lpa
  else if reg = 0x09 then s.1.ctrl1000 else if reg = 0x0a then s.2.stat1000
  else if reg = 0x0f then 0x3000 else 0

def gigabitPhyRead : MdioRead (OwnRegs × PartnerRegs) :=
  fun _ _ reg s => ((gigabitPhyReg s reg).setWidth 32, s)

def gigabitPhyWrite : MdioWrite (OwnRegs × PartnerRegs) := fun _ _ reg v s =>
  (0, if reg = 0x04 then ({ s.1 with advertise := v }, s.2)
    else if reg = 0x09 then ({ s.1 with ctrl1000 := v }, s.2) else s)

def gigabitPhy : Transceiver gigabitPhyRead gigabitPhyWrite (-1) 0 where
  own := Prod.fst
  partner := Prod.snd
  estaten := true
  read_ok reg s := ⟨gigabitPhyReg s reg, rfl⟩
  read_own _ _ := rfl
  read_partner _ _ := rfl
  read_bmsr _ := (by decide : ((0x7949#16).setWidth 32).getLsbD 8 = true ∧
    ((0x7949#16).setWidth 32).getLsbD 0 = true)
  read_advertise _ := rfl
  read_ctrl1000 _ := rfl
  read_lpa _ := rfl
  read_stat1000 _ := rfl
  write_ok _ _ _ := rfl
  write_advertise _ _ := rfl
  write_ctrl1000 _ _ := rfl
  write_bmcr _ _ := rfl

theorem genphyBound_new : GenphyBound linuxEthtool newPhyDevice := ⟨rfl, fun _ h => h⟩

/-- The partner comes up with 100 full and 1000 half. -/
theorem genphy_negotiates_gigabit :
    let s : OwnRegs × PartnerRegs := (⟨0x0001, 0⟩, ⟨0, 0⟩)
    let s' : OwnRegs × PartnerRegs :=
      ((genphyConfig linuxEthtool (-1) gigabitPhyRead gigabitPhyWrite newPhyDevice s).2.1,
        ⟨0x0101, 0x0400⟩)
    let dev := (genphyConfig linuxEthtool (-1) gigabitPhyRead gigabitPhyWrite newPhyDevice s).1.2
    let parsed := (genphyParseLink linuxEthtool (-1) gigabitPhyRead dev s').1.2
    (parsed.speed, parsed.duplex) = bestMode linuxEthtool dev.advertising (gigabitPhy.partner s') :=
  genphy_negotiates linuxEthtool newPhyDevice gigabitPhy genphyBound_new rfl (⟨0x0001, 0⟩, ⟨0, 0⟩)
    ((genphyConfig linuxEthtool (-1) gigabitPhyRead gigabitPhyWrite newPhyDevice
      (⟨0x0001, 0⟩, ⟨0, 0⟩)).2.1, ⟨0x0101, 0x0400⟩) rfl

end EmacDriver
