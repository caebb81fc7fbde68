import Mathlib.Data.List.Nodup
import Mathlib.Data.List.Range
import EmacDriver.Defrag
import EmacDriver.Lib.DoublyLinked

namespace EmacDriver

structure Hole where
  first : Nat
  last : Nat
  deriving DecidableEq, Repr

abbrev indices (l : List Hole) : List Nat := l.map Hole.first

structure Hole.Fits (h : Hole) : Prop where
  nonempty : 8 * h.first < h.last
  inside : h.first ≤ 2044
  last : h.last < 65536

structure HolesWf (l : List Hole) : Prop where
  fits : ∀ h ∈ l, h.Fits
  apart : l.Pairwise (fun g h => g.last ≤ 8 * h.first)

section Lists
variable {pre post l : List Hole} {h : Hole}

/-- The parts of a list in order, and how they lie to each other. -/
theorem HolesWf.split (w : HolesWf (pre ++ h :: post)) :
    HolesWf pre ∧ h.Fits ∧ HolesWf post ∧ (∀ g ∈ pre, g.last ≤ 8 * h.first) ∧
      (∀ g ∈ post, h.last ≤ 8 * g.first) ∧ ∀ g ∈ pre, ∀ k ∈ post, g.last ≤ 8 * k.first := by
  obtain ⟨hpre, hrest, hcross⟩ := List.pairwise_append.mp w.apart
  obtain ⟨hpost, hap⟩ := List.pairwise_cons.mp hrest
  refine ⟨⟨?_, hpre⟩, w.fits h (by simp), ⟨?_, hap⟩, ?_, hpost, ?_⟩
  · intro g hg
    exact w.fits g (List.mem_append_left _ hg)
  · intro g hg
    exact w.fits g (List.mem_append_right _ (List.mem_cons_of_mem h hg))
  · intro g hg
    exact hcross g hg h List.mem_cons_self
  · intro g hg k hk
    exact hcross g hg k (List.mem_cons_of_mem h hk)

theorem HolesWf.join (hpre : HolesWf pre) (hpost : HolesWf post)
    (hc : ∀ g ∈ pre, ∀ k ∈ post, g.last ≤ 8 * k.first) : HolesWf (pre ++ post) := by
  refine ⟨?_, List.pairwise_append.mpr ⟨hpre.apart, hpost.apart, hc⟩⟩
  intro g hg
  exact (List.mem_append.mp hg).elim (hpre.fits g) (hpost.fits g)

theorem HolesWf.cons (hh : h.Fits) (hl : HolesWf l) (hc : ∀ g ∈ l, h.last ≤ 8 * g.first) :
    HolesWf (h :: l) := by
  refine ⟨?_, List.pairwise_cons.mpr ⟨hc, hl.apart⟩⟩
  intro g hg
  rcases List.mem_cons.mp hg with rfl | hg
  · exact hh
  · exact hl.fits g hg

theorem HolesWf.tail (w : HolesWf (h :: l)) : HolesWf l :=
  ⟨fun g hg => w.fits g (List.mem_cons_of_mem h hg), (List.pairwise_cons.mp w.apart).2⟩

theorem holesWf_nil : HolesWf [] := ⟨by simp, List.Pairwise.nil⟩

/-- The descriptors go upwards. -/
theorem HolesWf.increasing (w : HolesWf l) : (indices l).Pairwise (· < ·) := by
  rw [List.pairwise_map]
  apply w.apart.imp_of_mem
  intro g k hg hk hgk
  have := (w.fits g hg).nonempty
  omega

theorem HolesWf.nodup (w : HolesWf l) : (indices l).Nodup :=
  w.increasing.imp (fun hlt => Nat.ne_of_lt hlt)

/-- There are not more holes than descriptors. -/
theorem HolesWf.length_le (w : HolesWf l) : l.length ≤ 2045 := by
  have hs : indices l ⊆ List.range 2045 := by
    intro i hi
    obtain ⟨h, hh, rfl⟩ := List.mem_map.mp hi
    have := (w.fits h hh).inside
    exact List.mem_range.mpr (by omega)
  have := List.Nodup.length_le_of_subset w.nodup hs
  simpa using this

/-- Only the first hole can have the index 0. -/
theorem HolesWf.later_pos (w : HolesWf (pre ++ h :: post)) : ∀ g ∈ post, 0 < g.first := by
  obtain ⟨-, hh, -, -, hpost, -⟩ := w.split
  intro g hg
  have := hpost g hg
  have := hh.nonempty
  omega

theorem HolesWf.second_pos {g : Hole} (w : HolesWf (h :: g :: l)) : 0 < g.first := by
  have w' : HolesWf ([] ++ h :: g :: l) := w
  exact w'.later_pos g List.mem_cons_self

end Lists

def frontIdx (pre : List Hole) : Nat := (indices pre).getLastD 0

/-- What is kept in front of a hole that is unlinked or moved: a neighbour at
offset 0 is taken for none. -/
def keptFront (pre : List Hole) : List Hole := if frontIdx pre = 0 then [] else pre

/-- What a fragment leaves of the holes when it is put into `h`: blocks from
`first8` on, `len` bytes. -/
def fillHoles (pre : List Hole) (h : Hole) (post : List Hole) (first8 len : Nat) (more : Bool) :
    List Hole :=
  let last := if more then h.last else 8 * first8 + len
  if first8 ≤ h.first ∧ last ≤ 8 * first8 + len then keptFront pre ++ post
  else if last ≤ 8 * first8 + len then pre ++ ⟨h.first, 8 * first8⟩ :: post
  else if first8 ≤ h.first then keptFront pre ++ ⟨first8 + len / 8, last⟩ :: post
  else pre ++ ⟨h.first, 8 * first8⟩ :: ⟨first8 + len / 8, last⟩ :: post

/-- A fragment that can be put into `h`: it begins behind the holes in front, is
not all in front of `h`, leaves the holes behind alone, and where it ends inside
`h` a descriptor has room there. -/
structure Filling (pre : List Hole) (h : Hole) (post : List Hole) (first8 len : Nat) (more : Bool) :
    Prop where
  front : ∀ g ∈ pre, g.last < 8 * first8
  reaches : 8 * first8 ≤ h.last
  overlap : h.first < first8 + (len + 7) / 8
  behind : ∀ g ∈ post, 8 * first8 + len ≤ 8 * g.first
  room : more = true → 8 * first8 + len < h.last → len % 8 = 0 ∧ 8 * first8 + len ≤ 16352

section Fill
variable {pre post : List Hole} {h : Hole} {first8 len : Nat} {more : Bool}

theorem keptFront_subset : ∀ g ∈ keptFront pre, g ∈ pre := by
  intro g hg
  rw [keptFront] at hg
  split at hg
  · cases hg
  · exact hg

theorem indices_keptFront : indices (keptFront pre) = DoublyLinked.kept 0 (indices pre) := by
  rw [keptFront, DoublyLinked.kept, frontIdx]
  split
  · rfl
  · rfl

theorem frontIdx_mem (h : frontIdx pre ≠ 0) : frontIdx pre ∈ indices pre := by
  cases pre with
  | nil => exact absurd rfl h
  | cons g l =>
    rw [frontIdx, indices, List.map_cons, List.getLastD_cons]
    exact List.getLastD_mem_cons

theorem keptFront_wf (w : HolesWf pre) : HolesWf (keptFront pre) := by
  rw [keptFront]
  split
  · exact holesWf_nil
  · exact w

inductive Overlap (pre : List Hole) (h : Hole) (post : List Hole) (first8 len : Nat)
    (more : Bool) : List Hole → Prop where
  | complete (front : first8 ≤ h.first) (back : more = true → h.last ≤ 8 * first8 + len) :
      Overlap pre h post first8 len more (keptFront pre ++ post)
  | final (front : h.first < first8) (back : more = true → h.last ≤ 8 * first8 + len) :
      Overlap pre h post first8 len more (pre ++ ⟨h.first, 8 * first8⟩ :: post)
  | initial (front : first8 ≤ h.first) (goesOn : more = true) (back : 8 * first8 + len < h.last) :
      Overlap pre h post first8 len more (keptFront pre ++ ⟨first8 + len / 8, h.last⟩ :: post)
  | middle (front : h.first < first8) (goesOn : more = true) (back : 8 * first8 + len < h.last) :
      Overlap pre h post first8 len more
        (pre ++ ⟨h.first, 8 * first8⟩ :: ⟨first8 + len / 8, h.last⟩ :: post)

theorem fillHoles_overlap (pre : List Hole) (h : Hole) (post : List Hole) (first8 len : Nat)
    (more : Bool) :
    Overlap pre h post first8 len more (fillHoles pre h post first8 len more) := by
  cases more with
  | false =>
    simp only [fillHoles, Bool.false_eq_true, if_false, Nat.le_refl, and_true, if_true]
    by_cases hf : first8 ≤ h.first
    · rw [if_pos hf]
      exact .complete hf (by simp)
    · rw [if_neg hf]
      exact .final (by omega) (by simp)
  | true =>
    simp only [fillHoles, if_true]
    by_cases hf : first8 ≤ h.first
    · by_cases hb : h.last ≤ 8 * first8 + len
      · rw [if_pos ⟨hf, hb⟩]
        exact .complete hf (fun _ => hb)
      · rw [if_neg (fun hc => hb hc.2), if_neg hb, if_pos hf]
        exact .initial hf rfl (by omega)
    · rw [if_neg (fun hc => hf hc.1)]
      by_cases hb : h.last ≤ 8 * first8 + len
      · rw [if_pos hb]
        exact .final (by omega) (fun _ => hb)
      · rw [if_neg hb, if_neg hf]
        exact .middle (by omega) rfl (by omega)

/-- Where the fragment ends inside its hole, a hole begins. -/
theorem Filling.newHole (p : Filling pre h post first8 len more) (hh : h.Fits) (hm : more = true)
    (hb : 8 * first8 + len < h.last) :
    8 * (first8 + len / 8) = 8 * first8 + len ∧ Hole.Fits ⟨first8 + len / 8, h.last⟩ := by
  obtain ⟨hmod, hroom⟩ := p.room hm hb
  have heq : 8 * (first8 + len / 8) = 8 * first8 + len := by omega
  exact ⟨heq, ⟨by simp only; omega, by simp only; omega, hh.last⟩⟩

structure Leftover (h : Hole) (first8 len : Nat) (mid : List Hole) : Prop where
  wf : HolesWf mid
  within : ∀ g ∈ mid, h.first ≤ g.first ∧ g.last ≤ h.last
  clear : ∀ g ∈ mid, 8 * g.first + 8 ≤ 8 * first8 ∨ 8 * first8 + len ≤ 8 * g.first

theorem leftover_nil : Leftover h first8 len [] := ⟨holesWf_nil, by simp, by simp⟩

theorem Leftover.cons {g : Hole} {mid : List Hole} (hg : g.Fits) (hl : Leftover h first8 len mid)
    (hapart : ∀ k ∈ mid, g.last ≤ 8 * k.first) (hin : h.first ≤ g.first ∧ g.last ≤ h.last)
    (hclear : 8 * g.first + 8 ≤ 8 * first8 ∨ 8 * first8 + len ≤ 8 * g.first) :
    Leftover h first8 len (g :: mid) := by
  refine ⟨HolesWf.cons hg hl.wf hapart, ?_, ?_⟩
  · exact List.forall_mem_cons.mpr ⟨hin, hl.within⟩
  · exact List.forall_mem_cons.mpr ⟨hclear, hl.clear⟩

/-- What is left behind the fragment. -/
theorem Filling.leftBehind (p : Filling pre h post first8 len more) (hh : h.Fits)
    (goesOn : more = true) (back : 8 * first8 + len < h.last) :
    Leftover h first8 len [⟨first8 + len / 8, h.last⟩] := by
  obtain ⟨hnew, hfits⟩ := p.newHole hh goesOn back
  have hover := p.overlap
  apply Leftover.cons hfits leftover_nil (by simp)
  · constructor
    · simp only
      omega
    · exact Nat.le_refl _
  · exact Or.inr (Nat.le_of_eq hnew.symm)

/-- What is left in front of it. -/
theorem Filling.leftFront {mid : List Hole} (p : Filling pre h post first8 len more) (hh : h.Fits)
    (front : h.first < first8) (hl : Leftover h first8 len mid)
    (hmid : ∀ g ∈ mid, 8 * first8 ≤ 8 * g.first) :
    Leftover h first8 len (⟨h.first, 8 * first8⟩ :: mid) := by
  have hfits : Hole.Fits ⟨h.first, 8 * first8⟩ :=
    ⟨by simp only; omega, hh.inside, Nat.lt_of_le_of_lt p.reaches hh.last⟩
  apply Leftover.cons hfits hl hmid ⟨Nat.le_refl _, p.reaches⟩
  left
  simp only
  omega

/-- The leftover holes take the place of the one filled. -/
theorem Filling.replaced {kept mid : List Hole} (p : Filling pre h post first8 len more)
    (w : HolesWf (pre ++ h :: post)) (wkept : HolesWf kept) (hsub : ∀ g ∈ kept, g ∈ pre)
    (hl : Leftover h first8 len mid) :
    HolesWf (kept ++ (mid ++ post)) ∧
      ∀ g ∈ kept ++ (mid ++ post),
        8 * g.first + 8 ≤ 8 * first8 ∨ 8 * first8 + len ≤ 8 * g.first := by
  obtain ⟨-, hh, wpost, hfront, hback, hcross⟩ := w.split
  constructor
  · apply wkept.join (hl.wf.join wpost ?_) ?_
    · intro g hg k hk
      exact Nat.le_trans (hl.within g hg).2 (hback k hk)
    · intro g hg k hk
      rcases List.mem_append.mp hk with hk | hk
      · have hle := hfront g (hsub g hg)
        have hin := (hl.within k hk).1
        omega
      · exact hcross g (hsub g hg) k hk
  · intro g hg
    rcases List.mem_append.mp hg with hg | hg
    · have hlt := p.front g (hsub g hg)
      have hpos := (wkept.fits g hg).nonempty
      omega
    · rcases List.mem_append.mp hg with hg | hg
      · exact hl.clear g hg
      · exact Or.inr (p.behind g hg)

/-- Filling keeps the list well formed, and no descriptor under the data. -/
theorem fillHoles_wf (w : HolesWf (pre ++ h :: post)) (p : Filling pre h post first8 len more) :
    HolesWf (fillHoles pre h post first8 len more) ∧
      ∀ g ∈ fillHoles pre h post first8 len more,
        8 * g.first + 8 ≤ 8 * first8 ∨ 8 * first8 + len ≤ 8 * g.first := by
  obtain ⟨wpre, hh, -⟩ := w.split
  have wkept := keptFront_wf wpre
  generalize hfill : fillHoles pre h post first8 len more = filled
  have ho := hfill ▸ fillHoles_overlap pre h post first8 len more
  cases ho with
  | complete front back => exact p.replaced w wkept keptFront_subset leftover_nil
  | final front back =>
    have hleft := p.leftFront hh front leftover_nil (by simp)
    exact p.replaced w wpre (fun _ hg => hg) hleft
  | initial front goesOn back =>
    exact p.replaced w wkept keptFront_subset (p.leftBehind hh goesOn back)
  | middle front goesOn back =>
    have hmid : ∀ g ∈ [Hole.mk (first8 + len / 8) h.last], 8 * first8 ≤ 8 * g.first := by
      intro g hg
      rw [List.mem_singleton.mp hg]
      simp only
      omega
    have hleft := p.leftFront hh front (p.leftBehind hh goesOn back) hmid
    exact p.replaced w wpre (fun _ hg => hg) hleft

end Fill

end EmacDriver
