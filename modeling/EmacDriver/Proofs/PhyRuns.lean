import EmacDriver.Proofs.PhyLookup

namespace EmacDriver
open Attempts Bits

variable {σ : Type} (k : Ethtool) (drivers : List (PhyDriver σ)) (devadNone : Int)
  (read : MdioRead σ) (bus : Nat)

def Mapped (b : PhyBus σ) : Prop :=
  ∀ a p, b.phymap a = some p → (b.devs p).addr = a ∧ (b.devs p).bus = bus

def Kept (b b' : PhyBus σ) : Prop := ∀ a p, b.phymap a = some p → b'.phymap a = some p

inductive PhyRun (fuel : Nat) : PhyBus σ → PhyBus σ → Prop
  | nil (b : PhyBus σ) : PhyRun fuel b b
  | call {b b' b'' : PhyBus σ} {c : PhyCall} {r : Option Nat} : Granted c b →
      getPhyDeviceByMask k drivers devadNone read bus fuel c b = some (r, b') →
      PhyRun fuel b' b'' → PhyRun fuel b b''

theorem newDevice_place (a : Nat) (phyId : BitVec 32) (interface : Int) (s : σ) :
    (newDevice k drivers bus a phyId interface s).1.addr = a ∧
      (newDevice k drivers bus a phyId interface s).1.bus = bus := by
  rw [newDevice, phyProbe]
  split
  · rename_i drv _
    dsimp only
    split
    · rename_i probe hp
      rw [drv.probe_addr probe hp, drv.probe_bus probe hp]
      exact ⟨rfl, rfl⟩
    · exact ⟨rfl, rfl⟩
  · exact ⟨rfl, rfl⟩

variable {k drivers devadNone read bus} {fuel : Nat} {c c' : PhyCall} {b b' : PhyBus σ}
  {r : Option Nat}

/-- A device is created at an address of the mask. -/
theorem masked_of_hit {devads : List Int} {phyMask : BitVec 32} {devad : Int} {a : Nat} {s s' t : σ}
    {phyId : BitVec 32} (h : Hit (answer read) (attempts devads phyMask) s (devad, a) t phyId s') :
    phyMask.getLsbD a = true := by
  obtain ⟨pre, post, hl, -⟩ := h.before
  have hmem : (devad, a) ∈ attempts devads phyMask := by
    rw [hl]
    exact List.mem_append_right _ List.mem_cons_self
  obtain ⟨d, -, hd⟩ := List.mem_flatMap.mp hmem
  obtain ⟨j, hj, he⟩ := List.mem_map.mp hd
  obtain rfl := (Prod.mk.inj he).2
  exact mem_setBits.mp hj

theorem Looked.kept (h : Looked k drivers devadNone read bus c b r b') : Kept b b' := by
  cases h with
  | existing _ => exact fun _ _ h => h
  | nothing _ _ => exact fun _ _ h => h
  | @created devad a p phyId s s' hnone hhit hp =>
    intro j q hq
    have hne : j ≠ a := by
      rintro rfl
      rw [hnone j (masked_of_hit hhit)] at hq
      cases hq
    exact (Function.update_of_ne hne _ _).trans hq

theorem Looked.mapped (h : Looked k drivers devadNone read bus c b r b') (hc : Granted c b)
    (hb : Mapped bus b) : Mapped bus b' := by
  cases h with
  | nothing _ _ => exact hb
  | @existing a p _ =>
    intro j q hq
    by_cases he : q = p
    · subst he
      dsimp only
      rw [Function.update_self]
      exact hb j q hq
    · dsimp only
      rw [Function.update_of_ne he]
      exact hb j q hq
  | @created devad a p phyId s s' hnone hhit hp =>
    intro j q hq
    obtain ⟨p', hp', -, hfresh⟩ := hc devad
    obtain rfl : p = p' := by
      rw [hp] at hp'
      exact Option.some.inj hp'
    simp only [installed] at hq ⊢
    by_cases hj : j = a
    · subst hj
      rw [Function.update_self] at hq
      obtain rfl := Option.some.inj hq
      rw [Function.update_self]
      exact newDevice_place k drivers bus j phyId c.interface s'
    · rw [Function.update_of_ne hj] at hq
      have hne : q ≠ p := by
        rintro rfl
        exact hfresh j hq
      rw [Function.update_of_ne hne]
      exact hb j q hq

/-- The device returned is the first of the mask from then on. -/
theorem Looked.firstMapped {p : Nat} (h : Looked k drivers devadNone read bus c b (some p) b') :
    ∃ a, FirstMapped c.phyMask b'.phymap a p := by
  cases h with
  | @existing a _ hfirst => exact ⟨a, hfirst⟩
  | @created devad a _ phyId s s' hnone hhit hp =>
    refine ⟨a, masked_of_hit hhit, Function.update_self _ _ _, ?_⟩
    intro j hj hbit
    exact (Function.update_of_ne (by omega) _ _).trans (hnone j hbit)

/-- What a lookup returns where a device of the mask is known. -/
theorem Looked.eq_of_firstMapped {a p : Nat} (h : Looked k drivers devadNone read bus c b r b')
    (hfirst : FirstMapped c.phyMask b.phymap a p) : r = some p := by
  cases h with
  | existing hfirst' => rw [(hfirst.unique hfirst').2]
  | created hnone _ _ =>
    have hm := hnone a hfirst.masked
    rw [hfirst.mapped] at hm
    cases hm
  | nothing hnone _ =>
    have hm := hnone a hfirst.masked
    rw [hfirst.mapped] at hm
    cases hm

/-- Each call has one of the outcomes. -/
theorem looked_of_call (hf : 32 < fuel) (hc : Granted c b)
    (h : getPhyDeviceByMask k drivers devadNone read bus fuel c b = some (r, b')) :
    Looked k drivers devadNone read bus c b r b' := by
  obtain ⟨r', b'', hrun, hlooked⟩ :=
    getPhyDeviceByMask_looked k drivers devadNone read bus hf hc
  rw [hrun] at h
  obtain ⟨rfl, rfl⟩ := Prod.mk.inj (Option.some.inj h)
  exact hlooked

/-- By induction on the calls: each device stays under its address. -/
theorem PhyRun.mapped_kept (hf : 32 < fuel)
    (h : PhyRun k drivers devadNone read bus fuel b b') (hb : Mapped bus b) :
    Mapped bus b' ∧ Kept b b' := by
  induction h with
  | nil b => exact ⟨hb, fun _ _ h => h⟩
  | call hc hcall _ ih =>
    have hlooked := looked_of_call hf hc hcall
    obtain ⟨hmapped, hkept⟩ := ih (hlooked.mapped hc hb)
    exact ⟨hmapped, fun a p hp => hkept a p (hlooked.kept a p hp)⟩

/-- The same mask again. -/
theorem repeated_lookup {p : Nat} {b₁ b₂ b₃ : PhyBus σ} (hf : 32 < fuel) (hb : Mapped bus b)
    (hc : Granted c b)
    (hfirst : getPhyDeviceByMask k drivers devadNone read bus fuel c b = some (some p, b₁))
    (hrun : PhyRun k drivers devadNone read bus fuel b₁ b₂) (hc' : Granted c' b₂)
    (hmask : c'.phyMask = c.phyMask)
    (hagain : getPhyDeviceByMask k drivers devadNone read bus fuel c' b₂ = some (r, b₃)) :
    ∃ a, FirstMapped c.phyMask b₁.phymap a p ∧
      (r = some p ↔ ∀ j < a, c.phyMask.getLsbD j = true → b₂.phymap j = none) := by
  have hlooked := looked_of_call hf hc hfirst
  have hlooked' := looked_of_call hf hc' hagain
  obtain ⟨a, ha⟩ := hlooked.firstMapped
  obtain ⟨hmapped₂, hkept⟩ := hrun.mapped_kept hf (hlooked.mapped hc hb)
  have hstill := hkept a p ha.mapped
  refine ⟨a, ha, ?_⟩
  constructor
  · rintro rfl
    obtain ⟨a', ha'⟩ := hlooked'.firstMapped
    have hback : b₃.phymap a = some p := hlooked'.kept a p hstill
    have hmapped₃ := hlooked'.mapped hc' hmapped₂
    have haddr := (hmapped₃ a p hback).1
    have haddr' := (hmapped₃ a' p ha'.mapped).1
    obtain rfl : a = a' := by omega
    intro j hj hbit
    have hnone := ha'.below j hj (by rw [hmask]; exact hbit)
    match hm : b₂.phymap j with
    | none => rfl
    | some q =>
      rw [hlooked'.kept j q hm] at hnone
      cases hnone
  · intro hbelow
    apply hlooked'.eq_of_firstMapped (a := a)
    rw [hmask]
    exact ⟨ha.masked, hstill, hbelow⟩

/-- A lookup ends with the known device of the lowest address, else with a new one where
an ID is read first, else with none. In a run the devices stay where they are, and the
same mask gives the same device again, unless one at a lower address was found in between. -/
theorem phy_lookup (k : Ethtool) (drivers : List (PhyDriver σ)) (devadNone : Int)
    (read : MdioRead σ) (bus : Nat) {fuel : Nat} (hf : 32 < fuel) :
    (∀ c b, Granted c b →
      ∃ r b', getPhyDeviceByMask k drivers devadNone read bus fuel c b = some (r, b') ∧
        Looked k drivers devadNone read bus c b r b') ∧
    (∀ b b', Mapped bus b → PhyRun k drivers devadNone read bus fuel b b' →
      Mapped bus b' ∧ Kept b b') ∧
    ∀ b b₁ b₂ b₃ c c' p r, Mapped bus b → Granted c b →
      getPhyDeviceByMask k drivers devadNone read bus fuel c b = some (some p, b₁) →
      PhyRun k drivers devadNone read bus fuel b₁ b₂ → Granted c' b₂ →
      c'.phyMask = c.phyMask →
      getPhyDeviceByMask k drivers devadNone read bus fuel c' b₂ = some (r, b₃) →
      ∃ a, FirstMapped c.phyMask b₁.phymap a p ∧
        (r = some p ↔ ∀ j < a, c.phyMask.getLsbD j = true → b₂.phymap j = none) := by
  refine ⟨?_, ?_, ?_⟩
  · intro c b hc
    exact getPhyDeviceByMask_looked k drivers devadNone read bus hf hc
  · intro b b' hb hrun
    exact hrun.mapped_kept hf hb
  · intro b b₁ b₂ b₃ c c' p r hb hc hfirst hrun hc' hmask hagain
    exact repeated_lookup hf hb hc hfirst hrun hc' hmask hagain

def twoPhys : MdioRead Unit := fun addr devad _ s =>
  (if (addr = 5 ∧ devad = -1) ∨ (addr = 0 ∧ devad = 1) then 0x0141 else 0xffff, s)

def emptyPhyBus : PhyBus Unit where
  phymap _ := none
  devs _ := (newDevice linuxEthtool [] 0 0 0 0 ()).1
  hw := ()

def phyCall (phyMask : BitVec 32) (p : Nat) : PhyCall where
  phyMask := phyMask
  interface := 0
  newDev _ := some p

theorem phyCall_granted {phyMask : BitVec 32} {p : Nat} {b : PhyBus Unit} (hp : isErr p = false)
    (h : ∀ a, b.phymap a ≠ some p) : Granted (phyCall phyMask p) b :=
  fun _ => ⟨p, rfl, hp, h⟩

/-- Both are looked for, then the one at 0, then both again. -/
theorem twoPhys_calls : ∃ b₁ b₂ b₃,
    getPhyDeviceByMask linuxEthtool [] (-1) twoPhys 0 33 (phyCall 0x21 105) emptyPhyBus =
      some (some 105, b₁) ∧
    getPhyDeviceByMask linuxEthtool [] (-1) twoPhys 0 33 (phyCall 0x01 100) b₁ =
      some (some 100, b₂) ∧
    getPhyDeviceByMask linuxEthtool [] (-1) twoPhys 0 33 (phyCall 0x21 107) b₂ =
      some (some 100, b₃) ∧
    b₁.phymap = Function.update (fun _ => none) 5 (some 105) ∧
    b₂.phymap = Function.update b₁.phymap 0 (some 100) :=
  ⟨_, _, _, rfl, rfl, rfl, rfl, rfl⟩

/-- The same mask gives another device the second time. -/
theorem same_mask_other_device :
    ¬∀ (b b₁ b₂ b₃ : PhyBus Unit) (c c' : PhyCall) (p : Nat) (r : Option Nat), Mapped 0 b →
      Granted c b →
      getPhyDeviceByMask linuxEthtool [] (-1) twoPhys 0 33 c b = some (some p, b₁) →
      PhyRun linuxEthtool [] (-1) twoPhys 0 33 b₁ b₂ → Granted c' b₂ → c'.phyMask = c.phyMask →
      getPhyDeviceByMask linuxEthtool [] (-1) twoPhys 0 33 c' b₂ = some (r, b₃) → r = some p := by
  intro h
  obtain ⟨b₁, b₂, b₃, hcall₁, hcall₂, hcall₃, hmap₁, hmap₂⟩ := twoPhys_calls
  have hmapped : Mapped 0 emptyPhyBus := by
    intro a p hp
    cases hp
  have hfresh₁ : ∀ a, b₁.phymap a ≠ some 100 := by
    intro a
    rw [hmap₁, Function.update_apply]
    split <;> simp
  have hfresh₂ : ∀ a, b₂.phymap a ≠ some 107 := by
    intro a
    rw [hmap₂, hmap₁, Function.update_apply, Function.update_apply]
    split
    · simp
    · split <;> simp
  have hbetween : PhyRun linuxEthtool [] (-1) twoPhys 0 33 b₁ b₂ :=
    .call (phyCall_granted rfl hfresh₁) hcall₂ (.nil b₂)
  have hsame := h emptyPhyBus b₁ b₂ b₃ (phyCall 0x21 105) (phyCall 0x21 107) 105 (some 100) hmapped
    (phyCall_granted rfl (fun _ => nofun)) hcall₁ hbetween (phyCall_granted rfl hfresh₂) rfl hcall₃
  cases hsame

theorem phy_lookup_twoPhys :
    (∃ r b', getPhyDeviceByMask linuxEthtool [] (-1) twoPhys 0 33 (phyCall 0x21 105) emptyPhyBus =
        some (r, b') ∧
      Looked linuxEthtool [] (-1) twoPhys 0 (phyCall 0x21 105) emptyPhyBus r b') ∧
    ∃ b₁ b₂ r, Mapped 0 b₁ ∧
      getPhyDeviceByMask linuxEthtool [] (-1) twoPhys 0 33 (phyCall 0x21 107) b₁ = some (r, b₂) ∧
      r = some 105 := by
  obtain ⟨hlookup, hruns, hrepeat⟩ :=
    phy_lookup linuxEthtool [] (-1) twoPhys 0 (by decide : 32 < 33)
  obtain ⟨b₁, -, -, hcall₁, -, -, hmap₁, -⟩ := twoPhys_calls
  have hgranted : Granted (phyCall 0x21 105) emptyPhyBus := phyCall_granted rfl (fun _ => nofun)
  have hmapped : Mapped 0 emptyPhyBus := by
    intro a p hp
    cases hp
  have hfresh : ∀ a, b₁.phymap a ≠ some 107 := by
    intro a
    rw [hmap₁, Function.update_apply]
    split <;> simp
  have hgranted' : Granted (phyCall 0x21 107) b₁ := phyCall_granted rfl hfresh
  obtain ⟨r, b₂, hagain, -⟩ := hlookup _ _ hgranted'
  refine ⟨hlookup _ _ hgranted,
    b₁, b₂, r, (hruns _ _ hmapped (.call hgranted hcall₁ (.nil b₁))).1, hagain, ?_⟩
  obtain ⟨a, ha, hsame⟩ := hrepeat emptyPhyBus b₁ b₁ b₂ (phyCall 0x21 105) (phyCall 0x21 107) 105 r
    hmapped hgranted hcall₁ (.nil b₁) hgranted' rfl hagain
  exact hsame.mpr ha.below

end EmacDriver
