import EmacDriver.Phy

namespace EmacDriver

def replies (v : Nat → BitVec 32) : MdioRead Nat := fun _ _ _ n => (v n, n + 1)

variable {v : Nat → BitVec 32} {phydev : PhyDevice} {devad : Int}

theorem genphyWaitAneg_done (n : Nat) {miiReg : BitVec 32} (h : miiReg &&& 0x0020 ≠ 0) (i : Nat) :
    genphyWaitAneg devad (replies v) phydev n miiReg i = ((0, { phydev with link := 1 }), i) := by
  unfold genphyWaitAneg
  exact if_pos h

theorem genphyWaitAneg_timeout {miiReg : BitVec 32} (h : miiReg &&& 0x0020 = 0) (i : Nat) :
    genphyWaitAneg devad (replies v) phydev 0 miiReg i = ((-110, { phydev with link := 0 }), i) :=
  if_neg (not_not_intro h)

theorem genphyWaitAneg_again (n : Nat) {miiReg : BitVec 32} (h : miiReg &&& 0x0020 = 0) (i : Nat) :
    genphyWaitAneg devad (replies v) phydev (n + 1) miiReg i =
      genphyWaitAneg devad (replies v) phydev n (v i) (i + 1) :=
  if_neg (not_not_intro h)

/-- The loop ends with the first value that shows auto-negotiation complete, or
with the timeout. -/
theorem genphyWaitAneg_spec (n i : Nat) :
    (∃ j, i ≤ j ∧ j ≤ i + n ∧ v j &&& 0x0020 ≠ 0 ∧ (∀ t, i ≤ t → t < j → v t &&& 0x0020 = 0) ∧
      genphyWaitAneg devad (replies v) phydev n (v i) (i + 1) =
        ((0, { phydev with link := 1 }), j + 1)) ∨
    (∀ t, i ≤ t → t ≤ i + n → v t &&& 0x0020 = 0) ∧
      genphyWaitAneg devad (replies v) phydev n (v i) (i + 1) =
        ((-110, { phydev with link := 0 }), i + n + 1) := by
  induction n generalizing i with
  | zero =>
    by_cases h : v i &&& 0x0020 = 0
    · right
      refine ⟨fun t ht ht' => ?_, genphyWaitAneg_timeout h (i + 1)⟩
      rw [Nat.le_antisymm ht' ht]
      exact h
    · left
      exact ⟨i, Nat.le_refl i, Nat.le_refl i, h, fun t ht ht' => absurd ht' (Nat.not_lt.mpr ht),
        genphyWaitAneg_done 0 h (i + 1)⟩
  | succ n ih =>
    by_cases h : v i &&& 0x0020 = 0
    · have hstep : genphyWaitAneg devad (replies v) phydev (n + 1) (v i) (i + 1) =
          genphyWaitAneg devad (replies v) phydev n (v (i + 1)) (i + 1 + 1) :=
        genphyWaitAneg_again n h (i + 1)
      have hfirst {t : Nat} (ht : i ≤ t) (hle : i + 1 ≤ t → v t &&& 0x0020 = 0) :
          v t &&& 0x0020 = 0 := by
        rcases Nat.eq_or_lt_of_le ht with rfl | hlt
        · exact h
        · exact hle hlt
      rw [hstep]
      rcases ih (i + 1) with ⟨j, hij, hjn, hj, hbefore, heq⟩ | ⟨hall, heq⟩
      · left
        refine ⟨j, by omega, by omega, hj, fun t ht htj => ?_, heq⟩
        exact hfirst ht fun ht' => hbefore t ht' htj
      · right
        refine ⟨fun t ht htn => hfirst ht fun ht' => hall t ht' (by omega), ?_⟩
        rw [heq]
        congr 1
        omega
    · left
      exact ⟨i, Nat.le_refl i, Nat.le_add_right i _, h,
        fun t ht ht' => absurd ht' (Nat.not_lt.mpr ht), genphyWaitAneg_done (n + 1) h (i + 1)⟩

/-- When the values let the result be the link status: a link seen up that was up
before was recorded as 1, and the value that ends the wait for auto-negotiation,
where there is one, shows the link up. -/
def TellsLink (k : Ethtool) (phydev : PhyDevice) (v : Nat → BitVec 32) : Prop :=
  if phydev.link ≠ 0 ∧ v 0 &&& 0x0004 ≠ 0 then phydev.link = 1
  else
    phydev.autoneg = k.autonegEnable → ∀ j, 0 < j → j ≤ 4001 → v j &&& 0x0020 ≠ 0 →
      (∀ t, t < j → v t &&& 0x0020 = 0) → v j &&& 0x0004 ≠ 0

/-- Without a link from before, auto-negotiation that is not complete is waited for. -/
theorem genphyUpdateLink_wait (k : Ethtool) (hup : ¬ (phydev.link ≠ 0 ∧ v 0 &&& 0x0004 ≠ 0))
    (hwait : phydev.autoneg = k.autonegEnable ∧ v 0 &&& 0x0020 = 0) :
    genphyUpdateLink k devad (replies v) phydev 0 =
      genphyWaitAneg devad (replies v) phydev 4001 (v 0) 1 :=
  (if_neg hup).trans (if_pos hwait)

/-- Without a wait, a second value is read and decides. -/
theorem genphyUpdateLink_twice (k : Ethtool) (hup : ¬ (phydev.link ≠ 0 ∧ v 0 &&& 0x0004 ≠ 0))
    (hwait : ¬ (phydev.autoneg = k.autonegEnable ∧ v 0 &&& 0x0020 = 0)) :
    genphyUpdateLink k devad (replies v) phydev 0 =
      ((0, { phydev with link := if v 1 &&& 0x0004 ≠ 0 then 1 else 0 }), 2) :=
  (if_neg hup).trans (if_neg hwait)

/-- Only one value is the first to show auto-negotiation complete. -/
theorem first_done_unique {i j : Nat} (hi : v i &&& 0x0020 ≠ 0)
    (hbefore : ∀ t, t < i → v t &&& 0x0020 = 0) (hj : v j &&& 0x0020 ≠ 0)
    (hbefore' : ∀ t, t < j → v t &&& 0x0020 = 0) : i = j := by
  rcases Nat.lt_trichotomy i j with hlt | he | hgt
  · exact absurd (hbefore' i hlt) hi
  · exact he
  · exact absurd (hbefore j hgt) hj

/-- `genphy_update_link` leaves the link status of the last value read. -/
theorem genphy_update_link_iff (k : Ethtool) (devad : Int) (phydev : PhyDevice)
    (v : Nat → BitVec 32) :
    ((genphyUpdateLink k devad (replies v) phydev 0).1.1 = 0 →
      ((genphyUpdateLink k devad (replies v) phydev 0).1.2.link = 1 ↔
        v ((genphyUpdateLink k devad (replies v) phydev 0).2 - 1) &&& 0x0004 ≠ 0)) ↔
      TellsLink k phydev v := by
  rw [TellsLink]
  by_cases hup : phydev.link ≠ 0 ∧ v 0 &&& 0x0004 ≠ 0
  · have heq : genphyUpdateLink k devad (replies v) phydev 0 = ((0, phydev), 1) := if_pos hup
    rw [heq, if_pos hup]
    exact ⟨fun h => (h rfl).mpr hup.2, fun h _ => ⟨fun _ => hup.2, fun _ => h⟩⟩
  · rw [if_neg hup]
    by_cases hwait : phydev.autoneg = k.autonegEnable ∧ v 0 &&& 0x0020 = 0
    · rw [genphyUpdateLink_wait k hup hwait]
      rcases genphyWaitAneg_spec (v := v) 4001 0 with
        ⟨j, -, hjn, hj, hbefore, heq⟩ | ⟨hall, heq⟩
      · rw [heq]
        have hpos : 0 < j := by
          refine Nat.pos_of_ne_zero fun h0 => hj ?_
          rw [h0]
          exact hwait.2
        constructor
        · intro h _ i hi hin hdone hfirst
          obtain rfl := first_done_unique hdone hfirst hj fun t => hbefore t (Nat.zero_le t)
          exact (h rfl).mp rfl
        · intro h _
          refine ⟨fun _ => ?_, fun _ => rfl⟩
          exact h hwait.1 j hpos (by omega) hj (fun t ht => hbefore t (Nat.zero_le t) ht)
      · rw [heq]
        have hfails : (-110 : Int) ≠ 0 := by decide
        refine ⟨fun _ _ i _ hin hdone => ?_, fun _ h => absurd h hfails⟩
        exact absurd (hall i (Nat.zero_le i) (by omega)) hdone
    · rw [genphyUpdateLink_twice k hup hwait]
      refine ⟨fun _ hauto j hj _ _ hfirst => absurd ⟨hauto, hfirst 0 hj⟩ hwait, fun _ _ => ?_⟩
      show (if v 1 &&& 0x0004 ≠ 0 then (1 : Int) else 0) = 1 ↔ v 1 &&& 0x0004 ≠ 0
      by_cases h : v 1 &&& 0x0004 ≠ 0
      · rw [if_pos h]
        exact ⟨fun _ => h, fun _ => rfl⟩
      · rw [if_neg h]
        exact ⟨fun h01 => absurd h01 (by decide), fun h' => absurd h' h⟩

def newPhyDevice : PhyDevice where
  bus := 0
  drv := none
  speed := 0
  duplex := -1
  link := 0
  interface := 0
  advertising := linuxEthtool.genphyFeatures
  supported := linuxEthtool.genphyFeatures
  mmds := 0
  autoneg := 1
  addr := 0
  pause := 0
  asymPause := 0
  phyId := 0

/-- Auto-negotiation completes in a value that shows the link down. -/
theorem genphy_update_link_down :
    let v : Nat → BitVec 32 := fun n => if n = 0 then 0x0000 else 0x0020
    let r := genphyUpdateLink linuxEthtool (-1) (replies v) newPhyDevice 0
    r.1.1 = 0 ∧ r.1.2.link = 1 ∧ r.2 = 2 ∧ v (r.2 - 1) &&& 0x0004 = 0 := by
  decide +kernel

end EmacDriver
