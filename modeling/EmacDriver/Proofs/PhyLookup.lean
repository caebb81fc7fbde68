import EmacDriver.Proofs.MaskLoop

namespace EmacDriver
open Attempts Bits

variable {σ : Type}

/-- The ID read at a `devad` and an address, if it is one. -/
def answer (read : MdioRead σ) (place : Int × Nat) (s : σ) : Option (BitVec 32) × σ :=
  let ((r, phyId), s) := getPhyId read place.2 place.1 0xffffffff s
  (if r = 0 ∧ phyId &&& 0x1fffffff ≠ 0x1fffffff then some phyId else none, s)

def attempts (devads : List Int) (phyMask : BitVec 32) : List (Int × Nat) :=
  devads.flatMap fun devad => (setBits phyMask).map (devad, ·)

def Unmapped (phyMask : BitVec 32) (phymap : Nat → Option Nat) : Prop :=
  ∀ a, phyMask.getLsbD a = true → phymap a = none

structure FirstMapped (phyMask : BitVec 32) (phymap : Nat → Option Nat) (a p : Nat) : Prop where
  masked : phyMask.getLsbD a = true
  mapped : phymap a = some p
  below : ∀ j < a, phyMask.getLsbD j = true → phymap j = none

/-- There is one lowest address. -/
theorem FirstMapped.unique {phyMask : BitVec 32} {phymap : Nat → Option Nat} {a p a' p' : Nat}
    (h : FirstMapped phyMask phymap a p) (h' : FirstMapped phyMask phymap a' p') :
    a = a' ∧ p = p' := by
  have hle {b q c r : Nat} (h : FirstMapped phyMask phymap b q)
      (h' : FirstMapped phyMask phymap c r) : c ≤ b := by
    by_contra hlt
    have hnone := h'.below b (by omega) h.masked
    rw [h.mapped] at hnone
    cases hnone
  obtain rfl := Nat.le_antisymm (hle h' h) (hle h h')
  have hp := h.mapped
  rw [h'.mapped] at hp
  exact ⟨rfl, (Option.some.inj hp).symm⟩

section
variable (k : Ethtool) (drivers : List (PhyDriver σ)) (devadNone : Int) (read : MdioRead σ)
  (bus : Nat)

def installed (b : PhyBus σ) (p a : Nat) (phyId : BitVec 32) (interface : Int) (s : σ) :
    PhyBus σ where
  phymap := Function.update b.phymap a (some p)
  devs := Function.update b.devs p (newDevice k drivers bus a phyId interface s).1
  hw := (newDevice k drivers bus a phyId interface s).2

inductive Looked (c : PhyCall) (b : PhyBus σ) : Option Nat → PhyBus σ → Prop
  | existing {a p : Nat} : FirstMapped c.phyMask b.phymap a p →
      Looked c b (some p)
        { b with devs := Function.update b.devs p { b.devs p with interface := c.interface } }
  | created {devad : Int} {a p : Nat} {phyId : BitVec 32} {s s' : σ} :
      Unmapped c.phyMask b.phymap →
      Hit (answer read) (attempts [devadNone, 1, 2, 3, 4] c.phyMask) b.hw (devad, a) s phyId s' →
      c.newDev devad = some p →
      Looked c b (some p) (installed k drivers bus b p a phyId c.interface s')
  | nothing {s : σ} : Unmapped c.phyMask b.phymap →
      Fail (answer read) (attempts [devadNone, 1, 2, 3, 4] c.phyMask) b.hw s →
      Looked c b none { b with hw := s }

def Granted (c : PhyCall) (b : PhyBus σ) : Prop :=
  ∀ devad, ∃ p, c.newDev devad = some p ∧ isErr p = false ∧ ∀ a, b.phymap a ≠ some p

end

/-- A round that finds nothing. -/
theorem searchRound_none {interface : Int} {a : Nat} {b b' : PhyBus σ}
    (h : searchRound interface a b = (none, b')) : b' = b ∧ b.phymap a = none := by
  rw [searchRound] at h
  cases hm : b.phymap a with
  | some p =>
    rw [hm] at h
    cases (Prod.mk.inj h).1
  | none =>
    rw [hm] at h
    exact ⟨(Prod.mk.inj h).2.symm, rfl⟩

/-- One that finds a device. -/
theorem searchRound_some {interface : Int} {a : Nat} {b b' : PhyBus σ} {r : Option Nat}
    (h : searchRound interface a b = (some r, b')) :
    ∃ p, b.phymap a = some p ∧ r = some p ∧
      b' = { b with devs := Function.update b.devs p { b.devs p with interface := interface } } := by
  rw [searchRound] at h
  cases hm : b.phymap a with
  | none =>
    rw [hm] at h
    cases (Prod.mk.inj h).1
  | some p =>
    rw [hm] at h
    obtain ⟨hr, rfl⟩ := Prod.mk.inj h
    exact ⟨p, rfl, (Option.some.inj hr).symm, rfl⟩

theorem searchRound_fail {interface : Int} {l : List Nat} {b b' : PhyBus σ}
    (h : Fail (searchRound interface) l b b') : b' = b ∧ ∀ a ∈ l, b.phymap a = none := by
  induction h with
  | nil b => exact ⟨rfl, fun a ha => nomatch ha⟩
  | cons hx _ ih =>
    obtain ⟨rfl, hnone⟩ := searchRound_none hx
    refine ⟨ih.1, ?_⟩
    intro a ha
    obtain rfl | ha := List.mem_cons.mp ha
    · exact hnone
    · exact ih.2 a ha

/-- The search for a device that is known. -/
theorem searchForExistingPhy_cases {fuel : Nat} (hf : 32 < fuel) (phyMask : BitVec 32)
    (interface : Int) (b : PhyBus σ) :
    (Unmapped phyMask b.phymap ∧ searchForExistingPhy fuel phyMask interface b = some (none, b)) ∨
      ∃ a p, FirstMapped phyMask b.phymap a p ∧
        searchForExistingPhy fuel phyMask interface b = some (some p,
          { b with devs := Function.update b.devs p { b.devs p with interface := interface } }) := by
  rw [searchForExistingPhy, maskLoop_eq _ (Nat.lt_of_le_of_lt length_setBits_le hf)]
  obtain ⟨u, hu, hl⟩ | ⟨a, t, r, u, hu, hhit⟩ :=
    first_cases (searchRound interface) (setBits phyMask) b
  · obtain ⟨rfl, hnone⟩ := searchRound_fail hl
    rw [hu]
    exact .inl ⟨fun a ha => hnone a (mem_setBits.mpr ha), rfl⟩
  · obtain ⟨pre, post, hl, hpre⟩ := hhit.before
    obtain ⟨rfl, hnone⟩ := searchRound_fail hpre
    obtain ⟨p, hm, rfl, rfl⟩ := searchRound_some hhit.hit
    have hmem : a ∈ setBits phyMask := by
      rw [hl]
      exact List.mem_append_right _ List.mem_cons_self
    have hbelow : ∀ j < a, phyMask.getLsbD j = true → t.phymap j = none := by
      intro j hj hbit
      exact hnone j ((setBits_before hl).mpr ⟨hj, hbit⟩)
    rw [hu]
    exact .inr ⟨a, p, ⟨mem_setBits.mp hmem, hm, hbelow⟩, rfl⟩

/-- What `*phy_id` held only shows where the read fails. -/
theorem getPhyId_start (read : MdioRead σ) (addr : Nat) (devad : Int) (s : σ)
    (phyId phyId' : BitVec 32) :
    (getPhyId read addr devad phyId s).2 = (getPhyId read addr devad phyId' s).2 ∧
      (getPhyId read addr devad phyId s).1.1 = (getPhyId read addr devad phyId' s).1.1 ∧
      ((getPhyId read addr devad phyId' s).1.1 = 0 →
        (getPhyId read addr devad phyId s).1.2 = (getPhyId read addr devad phyId' s).1.2) := by
  simp only [getPhyId]
  split
  · exact ⟨rfl, rfl, fun h => by cases h⟩
  · exact ⟨rfl, rfl, fun _ => rfl⟩

variable (k : Ethtool) (drivers : List (PhyDriver σ)) (devadNone : Int) (read : MdioRead σ)
  (bus : Nat)

/-- One round, beside the answer of the bus. -/
theorem createRound_eq (newDev : Option Nat) (devad interface : Int) (a : Nat) (phyId : BitVec 32)
    (b : PhyBus σ) :
    ∃ phyId', createRound k drivers read bus newDev devad interface a (phyId, b) =
      match answer read (devad, a) b.hw with
      | (some id, s) =>
        (some (phyDeviceCreate k drivers bus newDev a id interface { b with hw := s }).1,
          (id, (phyDeviceCreate k drivers bus newDev a id interface { b with hw := s }).2))
      | (none, s) => (none, (phyId', { b with hw := s })) := by
  obtain ⟨hs, hr, hid⟩ := getPhyId_start read a devad b.hw phyId 0xffffffff
  refine ⟨(getPhyId read a devad phyId b.hw).1.2, ?_⟩
  simp only [createRound, answer, hs, hr]
  by_cases h0 : (getPhyId read a devad 0xffffffff b.hw).1.1 = 0
  · simp only [hid h0]
    by_cases hv : (getPhyId read a devad 0xffffffff b.hw).1.1 = 0 ∧
      (getPhyId read a devad 0xffffffff b.hw).1.2 &&& 0x1fffffff ≠ 0x1fffffff
    · rw [if_pos hv, if_pos hv]
    · rw [if_neg hv, if_neg hv]
  · rw [if_neg (fun h => h0 h.1), if_neg (fun h => h0 h.1)]

/-- The search at one `devad`. -/
theorem createPhyByMask_cases {fuel : Nat} (hf : 32 < fuel) (newDev : Option Nat)
    (phyMask : BitVec 32) (devad interface : Int) (b : PhyBus σ) :
    (∃ s, createPhyByMask k drivers read bus fuel newDev phyMask devad interface b =
        some (none, { b with hw := s }) ∧
      Fail (answer read) ((setBits phyMask).map (devad, ·)) b.hw s) ∨
    ∃ a s phyId s', createPhyByMask k drivers read bus fuel newDev phyMask devad interface b =
        some (phyDeviceCreate k drivers bus newDev a phyId interface { b with hw := s' }) ∧
      Hit (answer read) ((setBits phyMask).map (devad, ·)) b.hw (devad, a) s phyId s' := by
  have hsim := first_sim (f := createRound k drivers read bus newDev devad interface)
    (g := answer read) (devad, ·) (fun t s => t.2 = { b with hw := s })
    (fun a s phyId r t => (r, t.2) =
      phyDeviceCreate k drivers bus newDev a phyId interface { b with hw := s })
    (by
      rintro a ⟨phyId, _⟩ s u rfl hg
      obtain ⟨phyId', h⟩ := createRound_eq k drivers read bus newDev devad interface a phyId { b with hw := s }
      rw [hg] at h
      exact ⟨_, h, rfl⟩)
    (by
      rintro a ⟨phyId, _⟩ s id u rfl hg
      obtain ⟨phyId', h⟩ := createRound_eq k drivers read bus newDev devad interface a phyId { b with hw := s }
      rw [hg] at h
      exact ⟨_, _, h, rfl⟩)
    (setBits phyMask) (0xffffffff, b) b.hw rfl
  rw [createPhyByMask, maskLoop_eq _ (Nat.lt_of_le_of_lt length_setBits_le hf)]
  obtain ⟨u, s, hu, hfail, hrel⟩ | ⟨a, s, phyId, s', r, u, hu, hhit, hout⟩ := hsim
  · refine .inl ⟨s, ?_, hfail⟩
    rw [hu, ← hrel]
    rfl
  · refine .inr ⟨a, s, phyId, s', ?_, hhit⟩
    rw [hu, ← hout]
    rfl

/-- All of them, in turn. -/
theorem tryDevads_cases {fuel : Nat} (hf : 32 < fuel) {c : PhyCall} {b : PhyBus σ}
    (hc : Granted c b) (devads : List Int) (s : σ) :
    (∃ s', tryDevads k drivers read bus fuel c devads { b with hw := s } =
        some (none, { b with hw := s' }) ∧
      Fail (answer read) (attempts devads c.phyMask) s s') ∨
    ∃ devad a p t phyId s', tryDevads k drivers read bus fuel c devads { b with hw := s } =
        some (some p, installed k drivers bus b p a phyId c.interface s') ∧
      Hit (answer read) (attempts devads c.phyMask) s (devad, a) t phyId s' ∧
      c.newDev devad = some p := by
  induction devads generalizing s with
  | nil => exact .inl ⟨s, maskLoop_idle hf c.phyMask _, .nil s⟩
  | cons devad devads ih =>
    have hattempts : attempts (devad :: devads) c.phyMask =
        (setBits c.phyMask).map (devad, ·) ++ attempts devads c.phyMask := List.flatMap_cons
    rw [hattempts, tryDevads]
    obtain ⟨s₁, hcreate, hfail⟩ | ⟨a, t, phyId, s', hcreate, hhit⟩ :=
      createPhyByMask_cases k drivers read bus hf (c.newDev devad) c.phyMask devad c.interface
        { b with hw := s }
    · rw [hcreate]
      obtain ⟨s', hrun, hfail'⟩ | ⟨d, a, p, t, phyId, s', hrun, hhit, hp⟩ := ih s₁
      · exact .inl ⟨s', hrun, hfail.append hfail'⟩
      · exact .inr ⟨d, a, p, t, phyId, s', hrun, hhit.append_left hfail, hp⟩
    · obtain ⟨p, hp, herr, -⟩ := hc devad
      refine .inr ⟨devad, a, p, t, phyId, s', ?_, hhit.append_right, hp⟩
      rw [hcreate, hp]
      simp only [phyDeviceCreate, Option.bind_eq_bind, Option.bind_some, herr]
      rfl

/-- The lookup ends, with one of the outcomes. -/
theorem getPhyDeviceByMask_looked {fuel : Nat} (hf : 32 < fuel) {c : PhyCall} {b : PhyBus σ}
    (hc : Granted c b) :
    ∃ r b', getPhyDeviceByMask k drivers devadNone read bus fuel c b = some (r, b') ∧
      Looked k drivers devadNone read bus c b r b' := by
  obtain ⟨hnone, hsearch⟩ | ⟨a, p, hfirst, hsearch⟩ :=
    searchForExistingPhy_cases hf c.phyMask c.interface b
  · rw [getPhyDeviceByMask, hsearch]
    obtain ⟨s, hrun, hfail⟩ | ⟨devad, a, p, t, phyId, s, hrun, hhit, hp⟩ :=
      tryDevads_cases k drivers read bus hf hc [devadNone, 1, 2, 3, 4] b.hw
    · exact ⟨none, _, hrun, .nothing hnone hfail⟩
    · exact ⟨some p, _, hrun, .created hnone hhit hp⟩
  · refine ⟨some p, _, ?_, .existing hfirst⟩
    rw [getPhyDeviceByMask, hsearch]
    rfl

end EmacDriver
