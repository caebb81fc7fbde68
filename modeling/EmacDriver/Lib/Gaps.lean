import Mathlib.Data.List.Basic

structure Gap where
  first : Nat
  last : Nat
  deriving DecidableEq, Repr

def Gap.Within (g : Gap) (k : Nat) : Prop := g.first ≤ k ∧ k < g.last

def Gap.cut (g : Gap) (k : Nat) : List Gap :=
  (if g.first < k then [⟨g.first, k⟩] else []) ++ if k + 1 < g.last then [⟨k + 1, g.last⟩] else []

/-- No gap is empty, and between two of them something is there. -/
structure Gaps (missing : Nat → Prop) (gs : List Gap) : Prop where
  proper : ∀ g ∈ gs, g.first < g.last
  apart : gs.Pairwise (fun g h => g.last < h.first)
  covers : ∀ k, missing k ↔ ∃ g ∈ gs, g.Within k

section Gaps
variable {missing : Nat → Prop} {gs pre post : List Gap} {g a : Gap} {k : Nat}

theorem Gaps.congr {missing' : Nat → Prop} (h : Gaps missing gs)
    (hm : ∀ k, missing' k ↔ missing k) : Gaps missing' gs :=
  ⟨h.proper, h.apart, fun k => (hm k).trans (h.covers k)⟩

theorem Gaps.whole {n : Nat} (hn : 0 < n) : Gaps (fun k => k < n) [⟨0, n⟩] := by
  refine ⟨?_, List.pairwise_singleton .., ?_⟩
  · intro g hg
    rw [List.mem_singleton.mp hg]
    exact hn
  · intro k
    simp [Gap.Within]

/-- A missing number lies in a gap of the list. -/
theorem Gaps.find (h : Gaps missing gs) (hk : missing k) :
    ∃ pre g post, gs = pre ++ g :: post ∧ g.Within k := by
  obtain ⟨g, hg, hin⟩ := (h.covers k).mp hk
  obtain ⟨pre, post, heq⟩ := List.append_of_mem hg
  exact ⟨pre, g, post, heq, hin⟩

theorem Gaps.missing_of (h : Gaps missing gs) (hg : g ∈ gs) (hk : g.Within k) : missing k :=
  (h.covers k).mpr ⟨g, hg, hk⟩

theorem Gaps.missing_first (h : Gaps missing gs) (hg : g ∈ gs) : missing g.first :=
  h.missing_of hg ⟨Nat.le_refl _, h.proper g hg⟩

/-- Nothing is missing when no gap is left. -/
theorem Gaps.nil_iff (h : Gaps missing gs) : gs = [] ↔ ∀ k, ¬ missing k := by
  constructor
  · intro hnil k hk
    obtain ⟨g, hg, -⟩ := (h.covers k).mp hk
    rw [hnil] at hg
    cases hg
  · intro hnone
    cases gs with
    | nil => rfl
    | cons g gs => exact absurd (h.missing_first List.mem_cons_self) (hnone g.first)

/-- The gaps in front of one, and those behind. -/
theorem Gaps.sides (h : Gaps missing (pre ++ g :: post)) :
    (∀ a ∈ pre, a.first < a.last ∧ a.last < g.first) ∧ g.first < g.last ∧
      (∀ b ∈ post, g.last < b.first ∧ b.first < b.last) ∧
      ∀ a ∈ pre, ∀ b ∈ post, a.last < b.first := by
  obtain ⟨-, hrest, hcross⟩ := List.pairwise_append.mp h.apart
  obtain ⟨hpost, -⟩ := List.pairwise_cons.mp hrest
  refine ⟨?_, h.proper g (by simp), ?_, ?_⟩
  · intro a ha
    exact ⟨h.proper a (by simp [ha]), hcross a ha g List.mem_cons_self⟩
  · intro b hb
    exact ⟨hpost b hb, h.proper b (by simp [hb])⟩
  · intro a ha b hb
    exact hcross a ha b (List.mem_cons_of_mem g hb)

/-- Where a missing number lies, seen from one of the gaps. -/
theorem Gaps.missing_cases (h : Gaps missing (pre ++ g :: post)) (hm : missing k) :
    k + 1 < g.first ∨ g.Within k ∨ g.last < k := by
  obtain ⟨hpre, hg, hpost, -⟩ := h.sides
  obtain ⟨a, ha, hlo, hhi⟩ := (h.covers k).mp hm
  rcases List.mem_append.mp ha with ha | ha
  · have := hpre a ha
    exact Or.inl (by omega)
  · rcases List.mem_cons.mp ha with rfl | ha
    · exact Or.inr (Or.inl ⟨hlo, hhi⟩)
    · have := hpost a ha
      exact Or.inr (Or.inr (by omega))

/-- A number near a gap of the list is missing only if it is in it. -/
theorem Gaps.within_of_missing (h : Gaps missing (pre ++ g :: post)) (hm : missing k)
    (hlo : g.first ≤ k + 1) (hhi : k ≤ g.last) : g.Within k := by
  rcases h.missing_cases hm with hfront | hin | hback
  · omega
  · exact hin
  · omega

/-- Between two neighbours of the list nothing is missing. -/
theorem Gaps.not_missing_between (h : Gaps missing (pre ++ a :: g :: post)) (hlo : a.last ≤ k)
    (hhi : k < g.first) : ¬ missing k := by
  obtain ⟨hpre, ha, -, -⟩ := h.sides
  have h' : Gaps missing ((pre ++ [a]) ++ g :: post) := by simpa using h
  obtain ⟨-, hg, hpost, -⟩ := h'.sides
  intro hm
  obtain ⟨b, hb, hin⟩ := (h.covers k).mp hm
  rw [Gap.Within] at hin
  rcases List.mem_append.mp hb with hb | hb
  · have := hpre b hb
    omega
  · rcases List.mem_cons.mp hb with rfl | hb
    · omega
    · rcases List.mem_cons.mp hb with rfl | hb
      · omega
      · have := hpost b hb
        omega

theorem Gap.mem_cut (ha : a ∈ g.cut k) :
    a = ⟨g.first, k⟩ ∧ g.first < k ∨ a = ⟨k + 1, g.last⟩ ∧ k + 1 < g.last := by
  rw [Gap.cut] at ha
  refine (List.mem_append.mp ha).imp ?_ ?_
  · intro h
    split at h
    · exact ⟨List.mem_singleton.mp h, ‹_›⟩
    · cases h
  · intro h
    split at h
    · exact ⟨List.mem_singleton.mp h, ‹_›⟩
    · cases h

/-- A cut leaves the rest of the gap. -/
theorem Gap.within_cut (hk : g.Within k) (i : Nat) :
    (∃ a ∈ g.cut k, a.Within i) ↔ g.Within i ∧ i ≠ k := by
  simp only [Gap.Within] at hk ⊢
  constructor
  · intro h
    obtain ⟨a, ha, hin⟩ := h
    rcases Gap.mem_cut ha with ⟨heq, hlt⟩ | ⟨heq, hlt⟩
    · rw [heq] at hin
      dsimp only at hin
      omega
    · rw [heq] at hin
      dsimp only at hin
      omega
  · intro h
    rcases Nat.lt_or_gt_of_ne h.2 with hlt | hgt
    · refine ⟨⟨g.first, k⟩, ?_, h.1.1, hlt⟩
      rw [Gap.cut, if_pos (by omega)]
      exact List.mem_append_left _ List.mem_cons_self
    · refine ⟨⟨k + 1, g.last⟩, ?_, hgt, h.1.2⟩
      have hroom : k + 1 < g.last := by omega
      rw [Gap.cut, if_pos hroom]
      exact List.mem_append_right _ List.mem_cons_self

/-- The gaps once `k` has come in. -/
theorem Gaps.cut (h : Gaps missing (pre ++ g :: post)) (hk : g.Within k) :
    Gaps (fun i => missing i ∧ i ≠ k) (pre ++ (g.cut k ++ post)) := by
  obtain ⟨hpre, hg, hpost, hcross⟩ := h.sides
  obtain ⟨hlo, hhi⟩ := hk
  obtain ⟨hap, hrest, -⟩ := List.pairwise_append.mp h.apart
  have hnew : ∀ a ∈ g.cut k, g.first ≤ a.first ∧ a.first < a.last ∧ a.last ≤ g.last := by
    intro a ha
    rcases Gap.mem_cut ha with ⟨rfl, hlt⟩ | ⟨rfl, hlt⟩
    · exact ⟨Nat.le_refl _, hlt, by simp only; omega⟩
    · exact ⟨by simp only; omega, hlt, Nat.le_refl _⟩
  have hcut : (g.cut k).Pairwise (fun g h => g.last < h.first) := by
    rw [Gap.cut]
    split
    · split
      · exact List.pairwise_pair.mpr (Nat.lt_succ_self k)
      · exact List.pairwise_singleton ..
    · split
      · exact List.pairwise_singleton ..
      · exact List.Pairwise.nil
  refine ⟨?_, List.pairwise_append.mpr ⟨hap, List.pairwise_append.mpr ⟨hcut,
    (List.pairwise_cons.mp hrest).2, ?_⟩, ?_⟩, ?_⟩
  · intro a ha
    rcases List.mem_append.mp ha with ha | ha
    · exact (hpre a ha).1
    · rcases List.mem_append.mp ha with ha | ha
      · exact (hnew a ha).2.1
      · exact (hpost a ha).2
  · intro a ha b hb
    have := hnew a ha
    have := hpost b hb
    omega
  · intro a ha b hb
    rcases List.mem_append.mp hb with hb | hb
    · have := hpre a ha
      have := hnew b hb
      omega
    · exact hcross a ha b hb
  · intro i
    have hfront : (∃ a ∈ pre, a.Within i) → i ≠ k := by
      intro hi
      obtain ⟨a, ha, hin⟩ := hi
      have := hpre a ha
      have := hin.2
      omega
    have hback : (∃ b ∈ post, b.Within i) → i ≠ k := by
      intro hi
      obtain ⟨b, hb, hin⟩ := hi
      have := hpost b hb
      have := hin.1
      omega
    have hsplit : (∃ a ∈ pre ++ g :: post, a.Within i) ↔
        (∃ a ∈ pre, a.Within i) ∨ g.Within i ∨ ∃ b ∈ post, b.Within i := by
      simp [or_and_right, exists_or]
    have hsplit' : (∃ a ∈ pre ++ (g.cut k ++ post), a.Within i) ↔
        (∃ a ∈ pre, a.Within i) ∨ (∃ a ∈ g.cut k, a.Within i) ∨ ∃ b ∈ post, b.Within i := by
      simp [or_and_right, exists_or]
    rw [hsplit', Gap.within_cut ⟨hlo, hhi⟩, h.covers i, hsplit]
    constructor
    · intro hi
      obtain ⟨hp | hg | hb, hne⟩ := hi
      · exact Or.inl hp
      · exact Or.inr (Or.inl ⟨hg, hne⟩)
      · exact Or.inr (Or.inr hb)
    · intro hi
      rcases hi with hp | hg | hb
      · exact ⟨Or.inl hp, hfront hp⟩
      · exact ⟨Or.inr (Or.inl hg.1), hg.2⟩
      · exact ⟨Or.inr (Or.inr hb), hback hb⟩

/-- The gaps from one of them on. -/
theorem Gaps.behind (h : Gaps missing (pre ++ g :: post)) :
    Gaps (fun i => missing i ∧ g.first ≤ i) (g :: post) := by
  obtain ⟨hpre, hg, hpost, -⟩ := h.sides
  refine ⟨?_, (List.pairwise_append.mp h.apart).2.1, ?_⟩
  · intro a ha
    exact h.proper a (List.mem_append_right _ ha)
  · intro i
    simp only [h.covers i]
    constructor
    · intro hi
      obtain ⟨⟨a, ha, hin⟩, hle⟩ := hi
      rcases List.mem_append.mp ha with ha | ha
      · have := hpre a ha
        have := hin.2
        omega
      · exact ⟨a, ha, hin⟩
    · intro hi
      obtain ⟨a, ha, hin⟩ := hi
      refine ⟨⟨a, List.mem_append_right _ ha, hin⟩, ?_⟩
      rcases List.mem_cons.mp ha with heq | ha
      · rw [← heq]
        exact hin.1
      · have := hpost a ha
        have := hin.1
        omega

end Gaps
