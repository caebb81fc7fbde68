import EmacDriver.Lib.Bits
import EmacDriver.Phy

namespace EmacDriver
open Bits

variable {σ : Type} {k : Ethtool}

def Ethtool.has (k : Ethtool) (features : BitVec 32) (f : Feature) : Bool :=
  features.getLsbD (k.bit f)

theorem and_mask (features : BitVec 32) (f : Feature) :
    features &&& k.mask f = 0 ↔ k.has features f = false :=
  and_bit features (k.bit f) (k.bit_lt f)

theorem pick_bit (features : BitVec 32) (f : Feature) (mask : BitVec 32) (i : Nat) :
    (k.pick features f mask).getLsbD i = (k.has features f && mask.getLsbD i) := by
  rw [Ethtool.pick]
  by_cases h : features &&& k.mask f = 0
  · rw [if_neg (not_not_intro h), (and_mask features f).mp h]
    exact BitVec.getLsbD_zero
  · have hhas : k.has features f = true := by
      rw [← Bool.not_eq_false]
      exact fun hf => h ((and_mask features f).mpr hf)
    rw [if_pos h, hhas, Bool.true_and]

theorem has_mask (f g : Feature) : k.has (k.mask f) g = decide (f = g) := by
  rw [Ethtool.has, Ethtool.mask, BitVec.getLsbD_twoPow]
  by_cases h : f = g
  · simp [h, k.bit_lt g]
  · have hne : k.bit f ≠ k.bit g := fun he => h (k.bit_inj f g he)
    simp [h, hne]

theorem has_or (x y : BitVec 32) (f : Feature) : k.has (x ||| y) f = (k.has x f || k.has y f) :=
  BitVec.getLsbD_or

theorem has_and (x y : BitVec 32) (f : Feature) : k.has (x &&& y) f = (k.has x f && k.has y f) :=
  BitVec.getLsbD_and

/-- No 1000baseX feature is among those of `genphy_driver`. -/
theorem genphyFeatures_baseX {f : Feature} (h : f = .baseX1000Half ∨ f = .baseX1000Full) :
    k.has k.genphyFeatures f = false := by
  rcases h with rfl | rfl <;> simp [Ethtool.genphyFeatures, has_or, has_mask]

theorem has_zero (f : Feature) : k.has 0 f = false := BitVec.getLsbD_zero

theorem bmsrFeatures_gigabit (val : BitVec 32) {f : Feature}
    (h : f = .baseT1000Half ∨ f = .baseT1000Full) : k.has (bmsrFeatures k val) f = false := by
  have hpick (c : Prop) [Decidable c] {g : Feature} (hg : g ≠ f) :
      k.has (if c then k.mask g else 0) f = false := by
    split
    · rw [has_mask, decide_eq_false hg]
    · exact has_zero f
  simp only [bmsrFeatures, has_or, has_mask]
  rcases h with rfl | rfl <;>
    simp only [hpick, ne_eq, reduceCtorEq, not_false_eq_true, decide_false, Bool.or_self]

def advertiseBits : List (Nat × Feature) :=
  [(8, .baseT100Full), (7, .baseT100Half), (6, .baseT10Full)]

/-- Without 1000baseX, a bit of `MII_ADVERTISE` says whether its mode is advertised. -/
theorem advertisement_bit {advertise : BitVec 32} (adv : BitVec 32) {i : Nat} {f : Feature}
    (hf : (i, f) ∈ advertiseBits) (hhalf : k.has advertise .baseX1000Half = false)
    (hfull : k.has advertise .baseX1000Full = false) :
    (advertisement k advertise adv).getLsbD i = k.has advertise f := by
  simp only [advertiseBits, List.mem_cons, Prod.mk.injEq, List.not_mem_nil, or_false] at hf
  simp only [advertisement, BitVec.getLsbD_or, BitVec.getLsbD_and, pick_bit, hhalf, hfull]
  rcases hf with ⟨rfl, rfl⟩ | ⟨rfl, rfl⟩ | ⟨rfl, rfl⟩ <;> simp

/-- Bits 9 and 8 of `MII_CTRL1000`. -/
theorem gigabitAdvertisement_bit {supported advertise : BitVec 32} (adv : BitVec 32)
    (hsub : ∀ f, k.has advertise f = true → k.has supported f = true) :
    (gigabitAdvertisement k supported advertise adv).getLsbD 9 = k.has advertise .baseT1000Full ∧
      (gigabitAdvertisement k supported advertise adv).getLsbD 8 =
        k.has advertise .baseT1000Half := by
  by_cases h : supported &&& (k.mask .baseT1000Half ||| k.mask .baseT1000Full) = 0
  · obtain ⟨hhalf, hfull⟩ := and_or_eq_zero.mp h
    have hno {f : Feature} (hf : supported &&& k.mask f = 0) : k.has advertise f = false := by
      rw [← Bool.not_eq_true]
      intro ha
      have hs := hsub f ha
      rw [(and_mask supported f).mp hf] at hs
      cases hs
    rw [gigabitAdvertisement, if_neg (not_not_intro h), hno hhalf, hno hfull]
    simp only [BitVec.getLsbD_or, BitVec.getLsbD_and]
    simp
  · rw [gigabitAdvertisement, if_pos h]
    simp only [BitVec.getLsbD_or, BitVec.getLsbD_and, pick_bit]
    simp

structure OwnRegs where
  advertise : BitVec 16
  ctrl1000 : BitVec 16

structure PartnerRegs where
  lpa : BitVec 16
  stat1000 : BitVec 16

/-- A PHY that answers at `addr`: every access succeeds, what is written to a
register that advertises is read back, and the bits of `BMSR` that tell of further
registers stay what they are, `BMSR_ERCAP` among them. -/
structure Transceiver (read : MdioRead σ) (write : MdioWrite σ) (devad addr : Int) where
  own : σ → OwnRegs
  partner : σ → PartnerRegs
  estaten : Bool
  read_ok : ∀ reg s, ∃ v : BitVec 16, (read addr devad reg s).1 = v.setWidth 32
  read_own : ∀ reg s, own (read addr devad reg s).2 = own s
  read_partner : ∀ reg s, partner (read addr devad reg s).2 = partner s
  read_bmsr : ∀ s, (read addr devad 0x01 s).1.getLsbD 8 = estaten ∧
    (read addr devad 0x01 s).1.getLsbD 0 = true
  read_advertise : ∀ s, (read addr devad 0x04 s).1 = (own s).advertise.setWidth 32
  read_ctrl1000 : ∀ s, (read addr devad 0x09 s).1 = (own s).ctrl1000.setWidth 32
  read_lpa : ∀ s, (read addr devad 0x05 s).1 = (partner s).lpa.setWidth 32
  read_stat1000 : ∀ s, (read addr devad 0x0a s).1 = (partner s).stat1000.setWidth 32
  write_ok : ∀ reg v s, (write addr devad reg v s).1.slt 0 = false
  write_advertise : ∀ v s, own (write addr devad 0x04 v s).2 = { own s with advertise := v }
  write_ctrl1000 : ∀ v s, own (write addr devad 0x09 v s).2 = { own s with ctrl1000 := v }
  write_bmcr : ∀ v s, own (write addr devad 0x00 v s).2 = own s

namespace Transceiver

variable {read : MdioRead σ} {write : MdioWrite σ} {devad addr : Int} {phydev : PhyDevice}

/-- A read, with what it leaves alone. -/
theorem reads (t : Transceiver read write devad addr) (reg : Int) (s : σ) :
    ∃ v s', read addr devad reg s = (v, s') ∧ v.slt 0 = false ∧ t.own s' = t.own s ∧
      t.partner s' = t.partner s := by
  obtain ⟨v, hv⟩ := t.read_ok reg s
  refine ⟨_, _, rfl, ?_, t.read_own reg s, t.read_partner reg s⟩
  rw [hv]
  exact setWidth_not_neg v (by decide)

theorem writes (t : Transceiver read write devad addr) (reg : Int) (v : BitVec 16) (s : σ) :
    ∃ w s', write addr devad reg v s = (w, s') ∧ w.slt 0 = false :=
  ⟨_, _, rfl, t.write_ok reg v s⟩

def advertised (k : Ethtool) (supported advertising : BitVec 32) (estaten : Bool) (own : OwnRegs) :
    OwnRegs where
  advertise := (advertisement k advertising (own.advertise.setWidth 32)).setWidth 16
  ctrl1000 :=
    if estaten then
      (gigabitAdvertisement k supported advertising (own.ctrl1000.setWidth 32)).setWidth 16
    else own.ctrl1000

theorem configGigabit (phydev : PhyDevice) (t : Transceiver read write devad phydev.addr)
    {changed : BitVec 32} (hc : changed.slt 0 = false) (s : σ) :
    ∃ r s', genphyConfigGigabit k devad read write phydev changed s = (r, s') ∧
      r.slt 0 = false ∧ t.own s' = { t.own s with
        ctrl1000 := (gigabitAdvertisement k phydev.supported phydev.advertising
          ((t.own s).ctrl1000.setWidth 32)).setWidth 16 } := by
  obtain ⟨v, s₁, hread, hv, hown, -⟩ := t.reads 0x09 s
  have hval : v = (t.own s).ctrl1000.setWidth 32 := by
    rw [← t.read_ctrl1000 s, hread]
  obtain ⟨w, s₂, hw, hok⟩ := t.writes 0x09
    ((gigabitAdvertisement k phydev.supported phydev.advertising v).setWidth 16) s₁
  have hwritten := t.write_ctrl1000
    ((gigabitAdvertisement k phydev.supported phydev.advertising v).setWidth 16) s₁
  rw [hw, hown, hval] at hwritten
  refine ⟨if gigabitAdvertisement k phydev.supported phydev.advertising v ≠ v then 1 else changed,
    s₂, ?_, ?_, hwritten⟩
  · simp only [genphyConfigGigabit, phyRead, phyWrite, hread, hw, hv, hok, Bool.false_eq_true,
      if_false]
  · split
    · decide
    · exact hc

theorem configAdvertise (t : Transceiver read write devad phydev.addr) (adv : BitVec 32)
    {v : BitVec 32} {s : σ} (hv : v = (t.own s).advertise.setWidth 32) :
    ∃ e s', (if adv ≠ v then phyWrite write phydev devad 0x04 adv s else (0, s)) = (e, s') ∧
      e.slt 0 = false ∧ t.own s' = { t.own s with advertise := adv.setWidth 16 } := by
  by_cases h : adv = v
  · refine ⟨0, s, if_neg (not_not_intro h), by decide, ?_⟩
    have hsame : adv.setWidth 16 = (t.own s).advertise := by
      rw [h, hv, BitVec.setWidth_setWidth_of_le _ (by decide), BitVec.setWidth_eq]
    rw [hsame]
  · obtain ⟨w, s', hw, hok⟩ := t.writes 0x04 (adv.setWidth 16) s
    have hwritten := t.write_advertise (adv.setWidth 16) s
    rw [hw] at hwritten
    exact ⟨w, s', (if_pos h).trans hw, hok, hwritten⟩

theorem estaten_iff (t : Transceiver read write devad addr) {s s' : σ} {v : BitVec 32}
    (h : read addr devad 0x01 s = (v, s')) : v &&& 0x0100 = 0 ↔ t.estaten = false := by
  have hbit : v &&& 0x0100 = 0 ↔ v.getLsbD 8 = false := and_bit v 8 (by decide)
  have hbmsr := (t.read_bmsr s).1
  rw [h] at hbmsr
  rw [hbit, hbmsr]

/-- What `genphy_config_advert` leaves in the device and in the registers. -/
theorem configAdvert (t : Transceiver read write devad phydev.addr) (s : σ) :
    ∃ r s', genphyConfigAdvert k devad read write phydev s =
        ((r, { phydev with advertising := phydev.advertising &&& phydev.supported }), s') ∧
      r.slt 0 = false ∧ t.own s' = advertised k phydev.supported
        (phydev.advertising &&& phydev.supported) t.estaten (t.own s) := by
  obtain ⟨v, s₁, hread, hv, hown₁, -⟩ := t.reads 0x04 s
  have hval : v = (t.own s₁).advertise.setWidth 32 := by
    rw [hown₁, ← t.read_advertise s, hread]
  obtain ⟨e, s₂, hwrite, he, hown₂⟩ :=
    t.configAdvertise (advertisement k (phydev.advertising &&& phydev.supported) v) hval
  obtain ⟨b, s₃, hbmsr, hb, hown₃, -⟩ := t.reads 0x01 s₂
  rw [hown₂, hown₁, hval, hown₁] at hown₃
  have hchanged : (if advertisement k (phydev.advertising &&& phydev.supported) v ≠ v then
      1 else 0 : BitVec 32).slt 0 = false := by
    split <;> decide
  obtain ⟨r, s₄, hgig, hr, hown₄⟩ := configGigabit (k := k)
    { phydev with advertising := phydev.advertising &&& phydev.supported } t hchanged s₃
  have hstart : genphyConfigAdvert k devad read write phydev s =
      if b &&& 0x0100 = 0 then
        ((if advertisement k (phydev.advertising &&& phydev.supported) v ≠ v then 1 else 0,
          { phydev with advertising := phydev.advertising &&& phydev.supported }), s₃)
      else ((r, { phydev with advertising := phydev.advertising &&& phydev.supported }), s₄) := by
    simp only [phyWrite] at hwrite
    simp only [genphyConfigAdvert, phyRead, phyWrite, hread, hv, hwrite, he, hbmsr, hb, hgig,
      Bool.false_eq_true, if_false]
  rw [hstart]
  cases hx : t.estaten with
  | false =>
    rw [if_pos ((t.estaten_iff hbmsr).mpr hx)]
    exact ⟨_, _, rfl, hchanged, hown₃⟩
  | true =>
    have hset : ¬ b &&& 0x0100 = 0 := by
      rw [t.estaten_iff hbmsr, hx]
      decide
    rw [if_neg hset]
    refine ⟨_, _, rfl, hr, ?_⟩
    rw [hown₄, hown₃]
    rfl

/-- Restarting auto-negotiation changes neither register. -/
theorem restartAneg (phydev : PhyDevice) (t : Transceiver read write devad phydev.addr) (s : σ) :
    ∃ r s', genphyRestartAneg devad read write phydev s = (r, s') ∧ t.own s' = t.own s := by
  obtain ⟨v, s₁, hread, hv, hown, -⟩ := t.reads 0x00 s
  have heq : genphyRestartAneg devad read write phydev s =
      write phydev.addr devad 0x00 (((v ||| 0x1200) &&& ~~~0x0400).setWidth 16) s₁ := by
    simp only [genphyRestartAneg, phyRead, phyWrite, hread, hv, Bool.false_eq_true, if_false]
  exact ⟨_, _, heq, (t.write_bmcr _ s₁).trans hown⟩

/-- The same of `genphy_config_aneg`, with auto-negotiation on. -/
theorem configAneg (phydev : PhyDevice) (t : Transceiver read write devad phydev.addr)
    (han : phydev.autoneg = k.autonegEnable) (s : σ) :
    ∃ r s', genphyConfigAneg k devad read write phydev s =
        ((r, { phydev with advertising := phydev.advertising &&& phydev.supported }), s') ∧
      t.own s' = advertised k phydev.supported
        (phydev.advertising &&& phydev.supported) t.estaten (t.own s) := by
  obtain ⟨r, s₁, hadvert, hr, hown₁⟩ := t.configAdvert (k := k) s
  obtain ⟨c, s₂, hread, hc, hown₂, -⟩ := t.reads 0x00 s₁
  obtain ⟨r₁, s₃, hrestart, hown₃⟩ := restartAneg
    { phydev with advertising := phydev.advertising &&& phydev.supported } t s₁
  obtain ⟨r₂, s₄, hagain, hown₄⟩ := restartAneg
    { phydev with advertising := phydev.advertising &&& phydev.supported } t s₂
  have hauto : ¬ phydev.autoneg ≠ k.autonegEnable := not_not_intro han
  by_cases h0 : r = 0
  · subst h0
    by_cases hoff : c &&& 0x1000 = 0 ∨ c &&& 0x0400 ≠ 0
    · refine ⟨r₂, s₄, ?_, by rw [hown₄, hown₂, hown₁]⟩
      simp only [genphyConfigAneg, phyRead, if_neg hauto, hadvert, hr, hread, hc, hagain,
        if_true, if_pos hoff, Bool.false_eq_true, if_false]
    · refine ⟨0, s₂, ?_, by rw [hown₂, hown₁]⟩
      simp only [genphyConfigAneg, phyRead, if_neg hauto, hadvert, hr, hread, hc,
        if_true, if_neg hoff, Bool.false_eq_true, if_false]
  · refine ⟨r₁, s₃, ?_, by rw [hown₃, hown₁]⟩
    simp only [genphyConfigAneg, if_neg hauto, hadvert, hr, hrestart, if_neg h0,
      Bool.false_eq_true, if_false]

def configured (phydev : PhyDevice) (features : BitVec 32) : PhyDevice :=
  { phydev with
    supported := phydev.supported &&& features
    advertising := phydev.advertising &&& features &&& (phydev.supported &&& features) }

theorem configFeatures (t : Transceiver read write devad phydev.addr)
    (han : phydev.autoneg = k.autonegEnable) (features : BitVec 32) (s : σ) :
    ∃ s', genphyConfigFeatures k devad read write phydev features s =
        ((0, configured phydev features), s') ∧
      t.own s' = advertised k (configured phydev features).supported
        (configured phydev features).advertising t.estaten (t.own s) := by
  obtain ⟨r, s', haneg, hown⟩ := configAneg { phydev with
    supported := phydev.supported &&& features
    advertising := phydev.advertising &&& features } t han s
  exact ⟨s', by rw [genphyConfigFeatures, haneg]; rfl, hown⟩

/-- `genphy_config` returns 0, and the registers advertise what it has settled on. -/
theorem config (t : Transceiver read write devad phydev.addr)
    (han : phydev.autoneg = k.autonegEnable) (s : σ) :
    ∃ features s', genphyConfig k devad read write phydev s = ((0, configured phydev features), s') ∧
      t.own s' = advertised k (configured phydev features).supported
        (configured phydev features).advertising t.estaten (t.own s) ∧
      (t.estaten = false → ∃ val, features = bmsrFeatures k val) := by
  obtain ⟨v, s₁, hread, hv, hown₁, -⟩ := t.reads 0x01 s
  obtain ⟨e, s₂, hestatus, he, hown₂, -⟩ := t.reads 0x0f s₁
  cases hx : t.estaten with
  | false =>
    obtain ⟨s', hconfig, hown⟩ := t.configFeatures han (bmsrFeatures k v) s₁
    refine ⟨bmsrFeatures k v, s', ?_, by rw [hown, hown₁, hx], fun _ => ⟨v, rfl⟩⟩
    have hclear : ¬ v &&& 0x0100 ≠ 0 := not_not_intro ((t.estaten_iff hread).mpr hx)
    simp only [genphyConfig, phyRead, hread, hv, if_neg hclear, hconfig, Bool.false_eq_true,
      if_false]
  | true =>
    obtain ⟨s', hconfig, hown⟩ :=
      t.configFeatures han (bmsrFeatures k v ||| estatusFeatures k e) s₂
    refine ⟨_, s', ?_, by rw [hown, hown₂, hown₁, hx], fun h => absurd h (by decide)⟩
    have hset : v &&& 0x0100 ≠ 0 := by
      rw [ne_eq, t.estaten_iff hread, hx]
      decide
    simp only [genphyConfig, phyRead, hread, hv, if_pos hset, hestatus, he, hconfig,
      Bool.false_eq_true, if_false]

end Transceiver

end EmacDriver
