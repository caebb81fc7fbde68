import EmacDriver.Lib.Bits
import EmacDriver.MiiPhy
import EmacDriver.Proofs.MiiRegistry

namespace EmacDriver
open Bits

variable {σ : Type}

/-- The active bus stays active. -/
theorem activeDev_again {m m' : Mii σ} {devname : CStr} {p : Nat}
    (h : miiphyGetActiveDev m devname = some (some p, m')) :
    miiphyGetActiveDev m' devname = some (some p, m') ∧ m'.mem = m.mem := by
  have hset (h : miiphyGetActiveDev.setActive m devname = some (some p, m')) :
      m'.currentMii = some p ∧ strcmp (m'.name p) devname = 0 ∧ m'.mem = m.mem := by
    rw [miiphyGetActiveDev.setActive, miiphySetCurrentDev] at h
    cases hf : miiphyGetDevByName m (some devname) with
    | none => simp [hf] at h
    | some dev =>
      cases dev with
      | none => simp [hf] at h
      | some q =>
        simp [hf] at h
        obtain ⟨rfl, rfl⟩ := h
        have hname : strcmp (m.name q) devname = 0 := findByName_name hf
        exact ⟨rfl, hname, rfl⟩
  have hcur : m'.currentMii = some p ∧ strcmp (m'.name p) devname = 0 ∧ m'.mem = m.mem := by
    rw [miiphyGetActiveDev] at h
    cases hc : m.currentMii with
    | none => exact hset (by simpa only [hc] using h)
    | some q =>
      simp only [hc] at h
      by_cases hq : strcmp (m.name q) devname = 0
      · rw [if_pos hq] at h
        cases h
        exact ⟨hc, hq, rfl⟩
      · rw [if_neg hq] at h
        exact hset h
  refine ⟨?_, hcur.2.2⟩
  rw [miiphyGetActiveDev, hcur.1]
  exact if_pos hcur.2.1

/-- A read that goes to the active bus. -/
theorem miiphyRead_eq {devad : Int} {m m' : Mii σ} {devname : CStr} {addr : UInt8} (reg : UInt8)
    {p : Nat} {read : MdioRead σ} {v : BitVec 16} {s : σ}
    (hactive : miiphyGetActiveDev m devname = some (some p, m'))
    (hbus : (m.mem p).read = some read)
    (hv : (read addr.toNat devad reg.toNat s).1 = v.setWidth 32) :
    miiphyRead devad m devname addr reg s =
      some (some v, m', (read addr.toNat devad reg.toNat s).2) := by
  have hmem := (activeDev_again hactive).2
  rw [← hmem] at hbus
  have hok : (v.setWidth 32).slt 0 = false := setWidth_not_neg v (by decide)
  simp only [miiphyRead, hactive, hbus, Option.bind_eq_bind, Option.bind_some, hv, hok]
  rw [if_neg Bool.false_ne_true, BitVec.setWidth_setWidth_of_le v (by decide), BitVec.setWidth_eq]

/-- Where the halves of the mode and the priority order agree. -/
theorem nwayMode_iff (c : BitVec 16) :
    ((if c &&& 0x0380 ≠ 0 then 100 else 10, if c &&& 0x0140 ≠ 0 then 44 else 22) : Int × Int) =
      nwayMode (miiNwayResult (c.setWidth 32)) ↔
        ¬ (c &&& 0x0100 = 0 ∧ c &&& 0x0280 ≠ 0 ∧ c &&& 0x0040 ≠ 0) := by
  have hbit (i : Nat) (hi : i < 16) :
      (c.setWidth 32) &&& BitVec.twoPow 32 i = 0 ↔ c.getLsbD i = false := by
    have hi' : i < 32 := Nat.lt_trans hi (by decide)
    refine (and_bit _ i hi').trans ?_
    rw [BitVec.getLsbD_setWidth, decide_eq_true hi', Bool.true_and]
  have h9 : (c.setWidth 32) &&& 0x0200 = 0 ↔ c.getLsbD 9 = false := hbit 9 (by decide)
  have h8 : (c.setWidth 32) &&& 0x0100 = 0 ↔ c.getLsbD 8 = false := hbit 8 (by decide)
  have h7 : (c.setWidth 32) &&& 0x0080 = 0 ↔ c.getLsbD 7 = false := hbit 7 (by decide)
  have h6 : (c.setWidth 32) &&& 0x0040 = 0 ↔ c.getLsbD 6 = false := hbit 6 (by decide)
  have hc9 : c &&& 0x0200 = 0 ↔ c.getLsbD 9 = false := and_bit c 9 (by decide)
  have hc8 : c &&& 0x0100 = 0 ↔ c.getLsbD 8 = false := and_bit c 8 (by decide)
  have hc7 : c &&& 0x0080 = 0 ↔ c.getLsbD 7 = false := and_bit c 7 (by decide)
  have hc6 : c &&& 0x0040 = 0 ↔ c.getLsbD 6 = false := and_bit c 6 (by decide)
  have h280 : c &&& 0x0280 = 0 ↔ c.getLsbD 9 = false ∧ c.getLsbD 7 = false := by
    rw [← hc9, ← hc7]
    exact and_or_eq_zero (a := 0x0200) (b := 0x0080)
  have h380 : c &&& 0x0380 = 0 ↔ c.getLsbD 8 = false ∧ c.getLsbD 9 = false ∧ c.getLsbD 7 = false := by
    rw [← hc8, ← h280]
    exact and_or_eq_zero (a := 0x0100) (b := 0x0280)
  have h140 : c &&& 0x0140 = 0 ↔ c.getLsbD 8 = false ∧ c.getLsbD 6 = false := by
    rw [← hc8, ← hc6]
    exact and_or_eq_zero (a := 0x0100) (b := 0x0040)
  simp only [miiNwayResult, ne_eq, h9, h8, h7, h6, hc8, hc6, h280, h380, h140]
  cases c.getLsbD 8 <;> cases c.getLsbD 9 <;> cases c.getLsbD 7 <;> cases c.getLsbD 6 <;> decide

/-- Both functions reach the common abilities. -/
theorem miiphyControl_common {failed : Int} {forced common : BitVec 16 → Int} {devad : Int}
    {m m' : Mii σ} {devname : CStr} {addr : UInt8} {p : Nat} {read : MdioRead σ}
    {bmcr lpa adv : BitVec 16} (hactive : miiphyGetActiveDev m devname = some (some p, m'))
    (hbus : (m.mem p).read = some read)
    (hbmcr : ∀ s, (read addr.toNat devad 0 s).1 = bmcr.setWidth 32)
    (hlpa : ∀ s, (read addr.toNat devad 5 s).1 = lpa.setWidth 32)
    (hadv : ∀ s, (read addr.toNat devad 4 s).1 = adv.setWidth 32) (han : bmcr &&& 0x1000 ≠ 0)
    (s : σ) :
    ∃ s', miiphyControl failed forced common devad m devname addr s =
      some (common (lpa &&& adv), m', s') := by
  obtain ⟨hactive', hmem⟩ := activeDev_again hactive
  have hbus' : (m'.mem p).read = some read := by rw [hmem, hbus]
  have h₁ := miiphyRead_eq 0x00 (s := s) hactive hbus (hbmcr s)
  have h₂ (s : σ) := miiphyRead_eq 0x05 hactive' hbus' (hlpa s)
  have h₃ (s : σ) := miiphyRead_eq 0x04 hactive' hbus' (hadv s)
  simp only [miiphyControl, h₁, Option.bind_eq_bind, Option.bind_some, if_pos han, h₂, h₃]
  exact ⟨_, rfl⟩

/-- The two halves of the mode, read one after the other, are those of the first
common mode unless only the 10 Mbit/s one of several has full duplex. -/
theorem miiphy_mode_iff {devad : Int} {m m' : Mii σ} {devname : CStr} {addr : UInt8} {p : Nat}
    {read : MdioRead σ} {bmcr lpa adv : BitVec 16}
    (hactive : miiphyGetActiveDev m devname = some (some p, m'))
    (hbus : (m.mem p).read = some read)
    (hbmcr : ∀ s, (read addr.toNat devad 0 s).1 = bmcr.setWidth 32)
    (hlpa : ∀ s, (read addr.toNat devad 5 s).1 = lpa.setWidth 32)
    (hadv : ∀ s, (read addr.toNat devad 4 s).1 = adv.setWidth 32) (han : bmcr &&& 0x1000 ≠ 0)
    (s : σ) :
    ∃ speed m₁ s₁ duplex m₂ s₂,
      miiphySpeed devad m devname addr s = some (speed, m₁, s₁) ∧
      miiphyDuplex devad m₁ devname addr s₁ = some (duplex, m₂, s₂) ∧
      ((speed, duplex) = nwayMode (miiNwayResult ((adv &&& lpa).setWidth 32)) ↔
        ¬ (adv &&& lpa &&& 0x0100 = 0 ∧ adv &&& lpa &&& 0x0280 ≠ 0 ∧ adv &&& lpa &&& 0x0040 ≠ 0)) := by
  obtain ⟨hactive', hmem⟩ := activeDev_again hactive
  have hbus' : (m'.mem p).read = some read := by rw [hmem, hbus]
  obtain ⟨s₁, hspeed⟩ := miiphyControl_common hactive hbus hbmcr hlpa hadv han s
  obtain ⟨s₂, hduplex⟩ := miiphyControl_common hactive' hbus' hbmcr hlpa hadv han s₁
  refine ⟨_, m', s₁, _, m', s₂, hspeed, hduplex, ?_⟩
  rw [BitVec.and_comm lpa adv]
  exact nwayMode_iff (adv &&& lpa)

def regsMii (regs : Int → BitVec 16) : Mii Unit where
  mem := fun _ => ⟨cstr "geth", some fun _ _ reg s => ((regs reg).setWidth 32, s), none⟩
  links := ⟨fun _ => .bus 0, fun _ => .bus 0⟩
  currentMii := some 0
  steps := 2

theorem regsMii_active (regs : Int → BitVec 16) :
    miiphyGetActiveDev (regsMii regs) (cstr "geth") = some (some 0, regsMii regs) := rfl

theorem miiphy_mode_iff_full :
    ∃ speed m₁ s₁ duplex m₂ s₂,
      miiphySpeed (-1) (regsMii fun reg => if reg = 0 then 0x1000 else 0x01e1) (cstr "geth") 0 () =
        some (speed, m₁, s₁) ∧
      miiphyDuplex (-1) m₁ (cstr "geth") 0 s₁ = some (duplex, m₂, s₂) ∧
      (speed, duplex) = nwayMode (miiNwayResult ((0x01e1#16 &&& 0x01e1#16).setWidth 32)) := by
  have hmode := @miiphy_mode_iff _ (-1) _ _ (cstr "geth") 0 0 _ 0x1000 0x01e1 0x01e1
    (regsMii_active fun reg => if reg = 0 then 0x1000 else 0x01e1) rfl (fun _ => rfl)
    (fun _ => rfl) (fun _ => rfl) (by decide) ()
  obtain ⟨speed, m₁, s₁, duplex, m₂, s₂, hspeed, hduplex, hiff⟩ := hmode
  exact ⟨speed, m₁, s₁, duplex, m₂, s₂, hspeed, hduplex, hiff.mpr (by decide)⟩

/-- Common abilities of 100 half and 10 full are reported as 100 full. -/
theorem miiphy_mode_mixed :
    ∃ m₁ s₁ m₂ s₂,
      miiphySpeed (-1) (regsMii fun reg => if reg = 0 then 0x1000 else 0x00c0) (cstr "geth") 0 () =
        some (100, m₁, s₁) ∧
      miiphyDuplex (-1) m₁ (cstr "geth") 0 s₁ = some (44, m₂, s₂) ∧
      nwayMode (miiNwayResult ((0x00c0#16 &&& 0x00c0#16).setWidth 32)) = (100, 22) :=
  ⟨_, _, _, _, rfl, rfl, by decide⟩

end EmacDriver
