import EmacDriver.Defrag
import EmacDriver.Lib.DoublyLinked

namespace EmacDriver
open Bytes

def InCell (i a : Nat) : Prop := holeAt i ≤ a ∧ a < holeAt i + 8

/-- A store to a field, as each of the fields sees it. -/
theorem field_store (b : Buf) (i : Nat) {k l v : Nat} (hk : k ≤ 4 ∧ k % 2 = 0)
    (hl : l ≤ 4 ∧ l % 2 = 0) (hv : v < 65536) :
    (fun j => (load16 (store16 b (holeAt i + k) (UInt16.ofNat v)) (holeAt j + l)).toNat) =
      if k = l then Function.update (fun j => (load16 b (holeAt j + l)).toNat) i v
      else fun j => (load16 b (holeAt j + l)).toNat := by
  funext j
  by_cases h : j = i ∧ k = l
  · obtain ⟨rfl, rfl⟩ := h
    rw [load16_store16, if_pos rfl, Function.update_self, UInt16.toNat_ofNat', Nat.mod_eq_of_lt hv]
  · have hoff : load16 (store16 b (holeAt i + k) (UInt16.ofNat v)) (holeAt j + l) =
        load16 b (holeAt j + l) := by
      apply load16_patch_off
      simp only [holeAt]
      omega
    rw [hoff]
    by_cases hkl : k = l
    · have hne : j ≠ i := fun hc => h ⟨hc, hkl⟩
      rw [if_pos hkl, Function.update_of_ne hne]
    · rw [if_neg hkl]

section Fields
variable (b : Buf) (i : Nat) {v : Nat}

theorem lastByte_setLastByte (hv : v < 65536) :
    lastByte (setLastByte b i v) = Function.update (lastByte b) i v :=
  field_store b i (k := 0) (l := 0) (by omega) (by omega) hv

theorem nextHole_setLastByte (hv : v < 65536) : nextHole (setLastByte b i v) = nextHole b :=
  field_store b i (k := 0) (l := 2) (by omega) (by omega) hv

theorem prevHole_setLastByte (hv : v < 65536) : prevHole (setLastByte b i v) = prevHole b :=
  field_store b i (k := 0) (l := 4) (by omega) (by omega) hv

theorem lastByte_setNextHole (hv : v < 65536) : lastByte (setNextHole b i v) = lastByte b :=
  field_store b i (k := 2) (l := 0) (by omega) (by omega) hv

theorem nextHole_setNextHole (hv : v < 65536) :
    nextHole (setNextHole b i v) = Function.update (nextHole b) i v :=
  field_store b i (k := 2) (l := 2) (by omega) (by omega) hv

theorem prevHole_setNextHole (hv : v < 65536) : prevHole (setNextHole b i v) = prevHole b :=
  field_store b i (k := 2) (l := 4) (by omega) (by omega) hv

theorem lastByte_setPrevHole (hv : v < 65536) : lastByte (setPrevHole b i v) = lastByte b :=
  field_store b i (k := 4) (l := 0) (by omega) (by omega) hv

theorem nextHole_setPrevHole (hv : v < 65536) : nextHole (setPrevHole b i v) = nextHole b :=
  field_store b i (k := 4) (l := 2) (by omega) (by omega) hv

theorem prevHole_setPrevHole (hv : v < 65536) :
    prevHole (setPrevHole b i v) = Function.update (prevHole b) i v :=
  field_store b i (k := 4) (l := 4) (by omega) (by omega) hv

/-- The stores change no byte outside their descriptor. -/
theorem setLastByte_off {a : Nat} (h : ¬ InCell i a) : setLastByte b i v a = b a := by
  apply patch_off
  simp only [InCell, holeAt] at h ⊢
  omega

theorem setNextHole_off {a : Nat} (h : ¬ InCell i a) : setNextHole b i v a = b a := by
  apply patch_off
  simp only [InCell, holeAt] at h ⊢
  omega

theorem setPrevHole_off {a : Nat} (h : ¬ InCell i a) : setPrevHole b i v a = b a := by
  apply patch_off
  simp only [InCell, holeAt] at h ⊢
  omega

theorem copyHole_off (h : Nat) {a : Nat} (ha : ¬ InCell i a) : copyHole b i h a = b a := by
  rw [copyHole]
  apply patch_off
  simp only [InCell, holeAt] at ha ⊢
  omega

end Fields

/-- The copy of a descriptor, as each of the fields sees it. -/
theorem field_copy (b : Buf) (n h : Nat) {l : Nat} (hl : l ≤ 4 ∧ l % 2 = 0) :
    (fun j => (load16 (copyHole b n h) (holeAt j + l)).toNat) =
      Function.update (fun j => (load16 b (holeAt j + l)).toNat) n
        (load16 b (holeAt h + l)).toNat := by
  funext j
  by_cases hj : j = n
  · subst hj
    rw [Function.update_self]
    apply congrArg UInt16.toNat
    apply load16_congr
    intro i hi
    simp only [copyHole, patch]
    rw [if_pos (by omega)]
    congr 1
    omega
  · rw [Function.update_of_ne hj]
    apply congrArg UInt16.toNat
    rw [copyHole]
    apply load16_patch_off
    simp only [holeAt]
    omega

theorem lastByte_copyHole (b : Buf) (n h : Nat) :
    lastByte (copyHole b n h) = Function.update (lastByte b) n (lastByte b h) :=
  field_copy b n h (l := 0) (by omega)

theorem nextHole_copyHole (b : Buf) (n h : Nat) :
    nextHole (copyHole b n h) = Function.update (nextHole b) n (nextHole b h) :=
  field_copy b n h (l := 2) (by omega)

theorem prevHole_copyHole (b : Buf) (n h : Nat) :
    prevHole (copyHole b n h) = Function.update (prevHole b) n (prevHole b h) :=
  field_copy b n h (l := 4) (by omega)

/-- A copy of data leaves the descriptors that it does not reach. -/
theorem fields_patch {b : Buf} {i o n : Nat} {f : Nat → UInt8}
    (h : holeAt i + 8 ≤ o ∨ o + n ≤ holeAt i) :
    lastByte (patch b o n f) i = lastByte b i ∧ nextHole (patch b o n f) i = nextHole b i ∧
      prevHole (patch b o n f) i = prevHole b i := by
  simp only [lastByte, nextHole, prevHole]
  rw [load16_patch_off (by omega), load16_patch_off (by omega), load16_patch_off (by omega)]
  exact ⟨rfl, rfl, rfl⟩

end EmacDriver
