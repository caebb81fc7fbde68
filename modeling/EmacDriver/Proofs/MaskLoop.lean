import EmacDriver.Lib.Attempts
import EmacDriver.Lib.Bits
import EmacDriver.PhySearch

namespace EmacDriver
open Attempts Bits

/-- One step halves the window in which the lowest bit is. -/
theorem ffsStep_window {x : BitVec 32} (mask : BitVec 32) {n : Nat} {p : BitVec 32 × Nat}
    (hm : ∀ j < 32, mask.getLsbD j = decide (j < n)) (hp : 1 ≤ p.2)
    (h : Window x p.1 (p.2 - 1) (n + n)) :
    1 ≤ (ffsStep mask n p).2 ∧ Window x (ffsStep mask n p).1 ((ffsStep mask n p).2 - 1) n := by
  have hlow := and_low (y := p.1) hm
  by_cases hz : p.1 &&& mask = 0
  · rw [ffsStep, if_pos hz]
    have hupper := h.upper (hlow.mp hz)
    rw [← Nat.sub_add_comm hp] at hupper
    exact ⟨by omega, hupper⟩
  · rw [ffsStep, if_neg hz]
    refine ⟨hp, h.lower ?_⟩
    by_contra hnone
    apply hz
    apply hlow.mpr
    intro j hj
    by_contra hbit
    exact hnone ⟨j, hj, by rw [← Bool.not_eq_false]; exact hbit⟩

/-- Bit 31 included: only bits that were shifted in are copies of it. -/
theorem genericFfs_lowest {x : BitVec 32} (hx : x ≠ 0) : Lowest x (genericFfs x - 1) := by
  obtain ⟨h1, w1⟩ := ffsStep_window 0xffff (n := 16) (p := (x, 1)) (by decide)
    (Nat.le_refl 1) (Window.whole hx)
  obtain ⟨h2, w2⟩ := ffsStep_window 0xff (n := 8) (by decide) h1 w1
  obtain ⟨h3, w3⟩ := ffsStep_window 0xf (n := 4) (by decide) h2 w2
  obtain ⟨h4, w4⟩ := ffsStep_window 3 (n := 2) (by decide) h3 w3
  obtain ⟨-, w5⟩ := ffsStep_window 1 (n := 1) (by decide) h4 w4
  rw [genericFfs, if_neg hx]
  exact w5.lowest

/-- The addresses of a mask are tried in their order, and the loop ends. -/
theorem maskLoop_eq {τ : Type} (body : Nat → τ → Option (Option Nat) × τ) {fuel : Nat}
    {phyMask : BitVec 32} (h : (setBits phyMask).length < fuel) (s : τ) :
    maskLoop body fuel phyMask s =
      some ((first body (setBits phyMask) s).1.join, (first body (setBits phyMask) s).2) := by
  induction fuel generalizing phyMask s with
  | zero => omega
  | succ n ih =>
    by_cases hz : phyMask = 0
    · have hnil : setBits phyMask = [] := by
        rw [hz]
        exact setBits_zero
      rw [maskLoop, if_pos hz, hnil]
      rfl
    · have hbits := (genericFfs_lowest hz).setBits_eq
      rw [hbits, List.length_cons] at h
      rw [maskLoop, if_neg hz, hbits]
      simp only [first]
      cases hbody : body (genericFfs phyMask - 1) s with
      | mk out t =>
        cases out with
        | some r => rfl
        | none => exact ih (Nat.lt_of_succ_lt_succ h) t

/-- A body that only looks. -/
theorem maskLoop_idle {τ : Type} {fuel : Nat} (h : 32 < fuel) (phyMask : BitVec 32) (s : τ) :
    maskLoop (fun _ s => (none, s)) fuel phyMask s = some (none, s) := by
  rw [maskLoop_eq _ (Nat.lt_of_le_of_lt length_setBits_le h), first_idle (fun _ _ => rfl)]
  rfl

end EmacDriver
