import Mathlib.Data.List.Basic

namespace Bits

variable {w : Nat} {x a b : BitVec w}

theorem and_or_eq_zero : x &&& (a ||| b) = 0#w ↔ x &&& a = 0#w ∧ x &&& b = 0#w := by
  rw [BitVec.and_or_distrib_left, BitVec.or_eq_zero_iff]

/-- A mask of one bit. -/
theorem and_bit (x : BitVec w) (i : Nat) (hi : i < w) :
    x &&& BitVec.twoPow w i = 0#w ↔ x.getLsbD i = false := by
  constructor
  · intro h
    have hbit := congrArg (BitVec.getLsbD · i) h
    simpa [hi] using hbit
  · intro h
    apply BitVec.eq_of_getLsbD_eq
    intro j hj
    by_cases he : i = j
    · subst he
      simp [h]
    · simp [BitVec.getLsbD_twoPow, he]

theorem and_bit_ne (x : BitVec w) (i : Nat) (hi : i < w) :
    x &&& BitVec.twoPow w i ≠ 0#w ↔ x.getLsbD i = true :=
  (not_congr (and_bit x i hi)).trans (Bool.not_eq_false _).to_iff

/-- A wider word than the value needs is not negative. -/
theorem setWidth_not_neg {n : Nat} (v : BitVec w) (h : w < n) :
    (v.setWidth n).slt 0#n = false := by
  have htop : v.getLsbD (n - 1) = false := BitVec.getLsbD_of_ge v (n - 1) (by omega)
  rw [BitVec.slt_zero_eq_msb, BitVec.msb_setWidth, htop, Bool.and_false]

structure Lowest (x : BitVec w) (i : Nat) : Prop where
  here : x.getLsbD i = true
  below : ∀ j < i, x.getLsbD j = false

theorem Lowest.lt {i : Nat} (h : Lowest x i) : i < w := BitVec.lt_of_getLsbD h.here

/-- The lowest bit of `x` is among the `n` bits from `q` on, and these are the low
bits of `y`. -/
structure Window (x y : BitVec w) (q n : Nat) : Prop where
  bound : q + n ≤ w
  same : ∀ j < n, y.getLsbD j = x.getLsbD (q + j)
  below : ∀ j < q, x.getLsbD j = false
  hit : ∃ j < n, y.getLsbD j = true

theorem Window.whole (h : x ≠ 0#w) : Window x x 0 w := by
  refine ⟨by omega, ?_, by omega, ?_⟩
  · intro j _
    rw [Nat.zero_add]
  · by_contra hnone
    apply h
    apply BitVec.eq_of_getLsbD_eq
    intro j hj
    rw [BitVec.getLsbD_zero, Bool.eq_false_iff]
    intro hbit
    exact hnone ⟨j, hj, hbit⟩

variable {y : BitVec w} {q n : Nat}

/-- The lower half of the window is empty, and is shifted out. -/
theorem Window.upper (h : Window x y q (n + n)) (hlow : ∀ j < n, y.getLsbD j = false) :
    Window x (y.sshiftRight n) (q + n) n := by
  have hq := h.bound
  have hshift : ∀ j < n, (y.sshiftRight n).getLsbD j = y.getLsbD (n + j) := by
    intro j hj
    rw [BitVec.getLsbD_sshiftRight, if_pos (by omega)]
    simp only [decide_eq_false (show ¬w ≤ j by omega), Bool.not_false, Bool.true_and]
  refine ⟨by omega, ?_, ?_, ?_⟩
  · intro j hj
    rw [hshift j hj, h.same (n + j) (by omega), Nat.add_assoc]
  · intro j hj
    by_cases hjq : j < q
    · exact h.below j hjq
    · have hsame := h.same (j - q) (by omega)
      rw [Nat.add_sub_cancel' (by omega)] at hsame
      rw [← hsame]
      exact hlow (j - q) (by omega)
  · obtain ⟨j, hj, hbit⟩ := h.hit
    have hjn : n ≤ j := by
      by_contra hlt
      rw [hlow j (by omega)] at hbit
      cases hbit
    refine ⟨j - n, by omega, ?_⟩
    rw [hshift (j - n) (by omega), Nat.add_sub_cancel' hjn]
    exact hbit

/-- The lower half is not empty, and is kept. -/
theorem Window.lower (h : Window x y q (n + n)) (hlow : ∃ j < n, y.getLsbD j = true) :
    Window x y q n := by
  have hq := h.bound
  exact ⟨by omega, fun j hj => h.same j (by omega), h.below, hlow⟩

/-- A window of one bit is that bit. -/
theorem Window.lowest (h : Window x y q 1) : Lowest x q := by
  obtain ⟨j, hj, hbit⟩ := h.hit
  have hsame := h.same j hj
  obtain rfl : j = 0 := by omega
  rw [hbit, Nat.add_zero] at hsame
  exact ⟨hsame.symm, h.below⟩

/-- A mask of the `n` low bits. -/
theorem and_low {m : BitVec w} (hm : ∀ j < w, m.getLsbD j = decide (j < n)) :
    y &&& m = 0#w ↔ ∀ j < n, y.getLsbD j = false := by
  constructor
  · intro h j hj
    by_cases hw : j < w
    · have hbit := congrArg (BitVec.getLsbD · j) h
      simpa [hm j hw, hj] using hbit
    · exact BitVec.getLsbD_of_ge y j (by omega)
  · intro h
    apply BitVec.eq_of_getLsbD_eq
    intro j hj
    rw [BitVec.getLsbD_and, hm j hj, BitVec.getLsbD_zero]
    by_cases hn : j < n
    · rw [h j hn, Bool.false_and]
    · rw [decide_eq_false hn, Bool.and_false]

def setBits (x : BitVec w) : List Nat := (List.range w).filter (x.getLsbD ·)

theorem mem_setBits {i : Nat} : i ∈ setBits x ↔ x.getLsbD i = true := by
  rw [setBits, List.mem_filter, List.mem_range]
  exact ⟨And.right, fun h => ⟨BitVec.lt_of_getLsbD h, h⟩⟩

theorem length_setBits_le : (setBits x).length ≤ w := by
  have h := List.length_filter_le (x.getLsbD ·) (List.range w)
  rwa [List.length_range] at h

/-- In order, so what stands before a place is below it. -/
theorem setBits_before {i : Nat} {pre post : List Nat} (h : setBits x = pre ++ i :: post) {j : Nat} :
    j ∈ pre ↔ j < i ∧ x.getLsbD j = true := by
  have hsorted : (setBits x).Pairwise (· < ·) := List.pairwise_lt_range.filter _
  rw [h, List.pairwise_append] at hsorted
  obtain ⟨-, hpost, hcross⟩ := hsorted
  have hmem : j ∈ pre ++ i :: post ↔ x.getLsbD j = true := by
    rw [← h]
    exact mem_setBits
  constructor
  · intro hj
    exact ⟨hcross j hj i List.mem_cons_self, hmem.mp (List.mem_append_left _ hj)⟩
  · rintro ⟨hlt, hbit⟩
    obtain hj | hj := List.mem_append.mp (hmem.mpr hbit)
    · exact hj
    · obtain rfl | hj := List.mem_cons.mp hj
      · omega
      · have hgt := (List.pairwise_cons.mp hpost).1 j hj
        omega

theorem setBits_zero : setBits 0#w = [] := by
  simp [setBits]

theorem getLsbD_clear {i : Nat} (hi : i < w) (j : Nat) :
    (x &&& ~~~(1#w <<< i)).getLsbD j = (x.getLsbD j && decide (i ≠ j)) := by
  by_cases hj : j < w
  · by_cases he : i = j
    · subst he
      simp [hi]
    · simp [hj, he]
      omega
  · rw [BitVec.getLsbD_of_ge x j (by omega), BitVec.getLsbD_of_ge _ j (by omega), Bool.false_and]

/-- Nothing is set below `i`. -/
theorem setBits_from {i : Nat} (hi : i < w) (h : ∀ j < i, x.getLsbD j = false) :
    setBits x = (i :: List.range' (i + 1) (w - (i + 1))).filter (x.getLsbD ·) := by
  have hlen : w - i = w - (i + 1) + 1 := by omega
  have happ : List.range' 0 i ++ List.range' (0 + i) (w - i) = List.range' 0 (i + (w - i)) :=
    List.range'_append_1
  rw [Nat.zero_add, Nat.add_sub_cancel' (Nat.le_of_lt hi), hlen, List.range'_succ] at happ
  have hnone : (List.range' 0 i).filter (x.getLsbD ·) = [] := by
    rw [List.filter_eq_nil_iff]
    intro j hj
    have hlt : j < i := by
      have := (List.mem_range'_1.mp hj).2
      omega
    rw [h j hlt]
    exact Bool.false_ne_true
  rw [setBits, List.range_eq_range', ← happ, List.filter_append, hnone, List.nil_append]

/-- Taking the lowest bit off. -/
theorem Lowest.setBits_eq {i : Nat} (h : Lowest x i) :
    setBits x = i :: setBits (x &&& ~~~(1#w <<< i)) := by
  have hi := h.lt
  have hbelow : ∀ j < i, (x &&& ~~~(1#w <<< i)).getLsbD j = false := by
    intro j hj
    rw [getLsbD_clear hi, h.below j hj, Bool.false_and]
  have hself : ¬(x &&& ~~~(1#w <<< i)).getLsbD i = true := by
    rw [getLsbD_clear hi, decide_eq_false (by omega), Bool.and_false]
    exact Bool.false_ne_true
  have hupper : (List.range' (i + 1) (w - (i + 1))).filter (x.getLsbD ·) =
      (List.range' (i + 1) (w - (i + 1))).filter ((x &&& ~~~(1#w <<< i)).getLsbD ·) := by
    apply List.filter_congr
    intro j hj
    have hij : i ≠ j := by
      have := (List.mem_range'_1.mp hj).1
      omega
    rw [getLsbD_clear hi, decide_eq_true hij, Bool.and_true]
  rw [setBits_from hi h.below, setBits_from hi hbelow, List.filter_cons_of_pos h.here,
    List.filter_cons_of_neg hself, hupper]

end Bits
