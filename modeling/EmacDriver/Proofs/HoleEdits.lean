import EmacDriver.Proofs.HoleCells
import EmacDriver.Proofs.HoleList

namespace EmacDriver
open Bytes DoublyLinked

structure Listed (s : Defrag) (l : List Hole) : Prop where
  first : s.firstHole.toNat = (indices l).headD 0
  seg : Seg (nextHole s.pktBuff) (prevHole s.pktBuff) 0 (indices l) 0
  last : ∀ h ∈ l, lastByte s.pktBuff h.first = h.last

theorem ok_bind {α β : Type} (a : α) (f : α → Except Fault β) :
    (Except.ok a >>= f) = f a := rfl

theorem inside_ok {i : Nat} (h : i ≤ 2044) : inside i = .ok () := by
  rw [inside, if_pos (by omega)]

theorem findHole_eq {b : Buf} {l : List Hole} {p n : Nat} (start : Nat)
    (hseg : Seg (nextHole b) (prevHole b) p (indices l) 0)
    (hlast : ∀ h ∈ l, lastByte b h.first = h.last) (w : HolesWf l) (hne : l ≠ [])
    (hn : l.length ≤ n) :
    findHole b start n ((indices l).headD 0) =
      .ok ((l.find? (fun h => decide (start ≤ h.last))).map Hole.first) := by
  induction l generalizing p n with
  | nil => exact absurd rfl hne
  | cons h l ih =>
    cases n with
    | zero => simp at hn
    | succ n =>
      obtain ⟨-, hnext, hrest⟩ := hseg
      have hin := inside_ok (w.fits h List.mem_cons_self).inside
      have hl := hlast h List.mem_cons_self
      simp only [indices, List.map_cons, List.headD_cons, findHole, hin, hl]
      by_cases hreach : start ≤ h.last
      · rw [List.find?_cons_of_pos (by simpa using hreach)]
        simp only [if_neg (Nat.not_lt.mpr hreach)]
        rfl
      · rw [List.find?_cons_of_neg (by simpa using hreach)]
        simp only [if_pos (Nat.not_le.mp hreach), hnext]
        cases l with
        | nil => rfl
        | cons g l =>
          have hpos : 0 < g.first := w.second_pos
          have := ih hrest (fun k hk => hlast k (List.mem_cons_of_mem h hk)) w.tail (by simp)
            (Nat.le_of_succ_le_succ hn)
          simp only [indices, List.map_cons, List.headD_cons] at this ⊢
          rw [if_neg (by omega)]
          exact this

/-- The walk over the descriptors is a search in the list. -/
theorem Listed.find {s : Defrag} {l : List Hole} (hl : Listed s l) (start : Nat)
    (w : HolesWf l) (hne : l ≠ []) :
    findHole s.pktBuff start 2046 s.firstHole.toNat =
      .ok ((l.find? (fun h => decide (start ≤ h.last))).map Hole.first) := by
  rw [hl.first]
  exact findHole_eq start hl.seg hl.last w hne (Nat.le_trans w.length_le (by decide))

structure Edited (s s' : Defrag) (k : Nat) (l : List Hole) : Prop where
  listed : l ≠ [] → Listed s' l
  total : s'.totalLen = s.totalLen
  off : ∀ a, ¬ InCell k a → (∀ g ∈ l, ¬ InCell g.first a) → s'.pktBuff a = s.pktBuff a

structure Linkable (pre : List Hole) (k : Hole) (post : List Hole) : Prop where
  nodup : (indices pre ++ k.first :: indices post).Nodup
  inside : ∀ i ∈ indices pre ++ k.first :: indices post, i ≤ 2044
  later : ∀ g ∈ post, 0 < g.first

section Edits
variable {s : Defrag} {pre post : List Hole} {k : Hole}

theorem HolesWf.linkable {h : Hole} (w : HolesWf (pre ++ h :: post)) (hk : k.first = h.first) :
    Linkable pre k post := by
  have hidx : indices (pre ++ h :: post) = indices pre ++ k.first :: indices post := by
    rw [hk, indices, List.map_append, List.map_cons]
  refine ⟨hidx ▸ w.nodup, ?_, w.later_pos⟩
  intro i hi
  rw [← hidx] at hi
  obtain ⟨g, hg, rfl⟩ := List.mem_map.mp hi
  exact (w.fits g hg).inside

theorem Linkable.behind (hk : Linkable pre k post) : ∀ g ∈ post, g.first ≤ 2044 := by
  intro g hg
  apply hk.inside
  exact List.mem_append_right _ (List.mem_cons_of_mem _ (List.mem_map_of_mem hg))

/-- A listed hole, with its neighbours. -/
theorem Listed.around (hl : Listed s (pre ++ k :: post)) :
    Seg (nextHole s.pktBuff) (prevHole s.pktBuff) 0 (indices pre) k.first ∧
      prevHole s.pktBuff k.first = frontIdx pre ∧
      nextHole s.pktBuff k.first = (indices post).headD 0 ∧
      Seg (nextHole s.pktBuff) (prevHole s.pktBuff) k.first (indices post) 0 := by
  have h := hl.seg
  rw [indices, List.map_append, List.map_cons] at h
  exact seg_append.mp h

/-- Where the list begins when something is kept in front. -/
theorem headD_kept (r r' : List Hole) (hz : frontIdx pre ≠ 0) :
    (indices (keptFront pre ++ r)).headD 0 = (indices (pre ++ r')).headD 0 := by
  rw [keptFront, if_neg hz]
  cases pre with
  | nil => exact absurd rfl hz
  | cons g l => rfl

/-- The neighbour in front is one of the holes that are kept. -/
theorem off_front {a : Nat} {r : List Hole} (hz : frontIdx pre ≠ 0)
    (ha : ∀ g ∈ keptFront pre ++ r, ¬ InCell g.first a) : ¬ InCell (frontIdx pre) a := by
  obtain ⟨q, hq, hqi⟩ := List.mem_map.mp (frontIdx_mem hz)
  have hkept : keptFront pre = pre := if_neg hz
  rw [hkept] at ha
  rw [← hqi]
  exact ha q (List.mem_append_left _ hq)

theorem frontNext_none (next : Nat → Nat) (x : Nat) (hz : frontIdx pre = 0) :
    frontNext 0 next (indices pre) x = next := if_pos hz

theorem frontNext_some (next : Nat → Nat) (x : Nat) (hz : frontIdx pre ≠ 0) :
    frontNext 0 next (indices pre) x = Function.update next (frontIdx pre) x := if_neg hz

/-- Two parts of the list closed up, once the links are. -/
theorem listed_closed {s' : Defrag} {next prev : Nat → Nat} {m p : Nat}
    (hfront : Seg next prev 0 (indices pre) m) (hback : Seg next prev p (indices post) 0)
    (hd : (indices pre ++ indices post).Nodup)
    (hnext : nextHole s'.pktBuff = frontNext 0 next (indices pre) ((indices post).headD 0))
    (hprev : prevHole s'.pktBuff = backPrev prev (indices post) (frontIdx pre))
    (hlast : ∀ h ∈ keptFront pre ++ post, lastByte s'.pktBuff h.first = h.last)
    (hfirst : s'.firstHole.toNat = (indices (keptFront pre ++ post)).headD 0) :
    Listed s' (keptFront pre ++ post) := by
  have hseg := hfront.joined hback hd
  rw [← indices_keptFront, ← List.map_append] at hseg
  refine ⟨hfirst, ?_, hlast⟩
  rw [hnext, hprev]
  exact hseg

theorem Listed.closed {s' : Defrag} (hl : Listed s (pre ++ k :: post))
    (hk : Linkable pre k post)
    (hnext : nextHole s'.pktBuff =
      frontNext 0 (nextHole s.pktBuff) (indices pre) ((indices post).headD 0))
    (hprev : prevHole s'.pktBuff = backPrev (prevHole s.pktBuff) (indices post) (frontIdx pre))
    (hlast : lastByte s'.pktBuff = lastByte s.pktBuff)
    (hfirst : s'.firstHole = if frontIdx pre = 0 then UInt16.ofNat ((indices post).headD 0)
      else s.firstHole) : Listed s' (keptFront pre ++ post) := by
  obtain ⟨hfront, -, -, hback⟩ := hl.around
  have hd : (indices pre ++ indices post).Nodup :=
    hk.nodup.sublist (List.Sublist.append_left (List.sublist_cons_self ..) _)
  apply listed_closed hfront hback hd hnext hprev
  · intro h hh
    rw [hlast]
    apply hl.last
    rcases List.mem_append.mp hh with hh | hh
    · exact List.mem_append_left _ (keptFront_subset h hh)
    · exact List.mem_append_right _ (List.mem_cons_of_mem k hh)
  · rw [hfirst]
    by_cases hz : frontIdx pre = 0
    · have hin : (indices post).headD 0 ≤ 2044 := by
        cases post with
        | nil => simp
        | cons g t => exact hk.inside g.first (by simp)
      rw [if_pos hz, keptFront, if_pos hz, List.nil_append, UInt16.toNat_ofNat',
        Nat.mod_eq_of_lt (by omega)]
    · rw [if_neg hz, hl.first]
      exact (headD_kept post (k :: post) hz).symm

/-- The hole goes, and with it a neighbour at offset 0 in front. -/
theorem removeHole_edited (hl : Listed s (pre ++ k :: post)) (hk : Linkable pre k post) :
    ∃ s', removeHole s k.first = .ok (s', (keptFront pre ++ post).isEmpty) ∧
      Edited s s' k.first (keptFront pre ++ post) := by
  obtain ⟨-, hprev, hnext, -⟩ := hl.around
  simp only [removeHole, hprev, hnext]
  by_cases hz : frontIdx pre = 0
  · have hkept : keptFront pre = [] := if_pos hz
    cases post with
    | nil =>
      rw [if_pos ⟨hz, rfl⟩, hkept]
      exact ⟨s, rfl, fun h => absurd rfl h, rfl, fun _ _ _ => rfl⟩
    | cons g t =>
      have hpos := hk.later g List.mem_cons_self
      have hin := inside_ok (hk.inside g.first (by simp))
      have hne : (indices (g :: t)).headD 0 ≠ 0 := Nat.ne_of_gt hpos
      rw [if_neg (fun hc => hne hc.2), if_pos hz]
      simp only [indices, List.map_cons, List.headD_cons, hin]
      refine ⟨{ s with firstHole := UInt16.ofNat g.first
                       pktBuff := setPrevHole s.pktBuff g.first 0 },
        by rw [hkept]; rfl, fun _ => ?_, rfl, ?_⟩
      · apply hl.closed hk
        · rw [frontNext_none _ _ hz]
          exact nextHole_setPrevHole _ _ (by decide)
        · rw [hz]
          exact prevHole_setPrevHole _ _ (by decide)
        · exact lastByte_setPrevHole _ _ (by decide)
        · rw [if_pos hz]
          rfl
      · intro a _ hoff
        exact setPrevHole_off _ _ (hoff g (by simp))
  · have hkept : keptFront pre = pre := if_neg hz
    have hmem := frontIdx_mem hz
    have hin := inside_ok (hk.inside _ (List.mem_append_left _ hmem))
    have hlt : frontIdx pre ≤ 2044 := hk.inside _ (List.mem_append_left _ hmem)
    have hempty : (keptFront pre ++ post).isEmpty = false := by
      rw [hkept]
      cases pre with
      | nil => cases hmem
      | cons _ _ => rfl
    rw [if_neg (fun hc => hz hc.1), if_neg hz, hempty]
    cases post with
    | nil =>
      simp only [indices, List.map_nil, List.headD_nil, if_true, hin]
      refine ⟨{ s with pktBuff := setNextHole s.pktBuff (frontIdx pre) 0 }, rfl,
        fun _ => ?_, rfl, ?_⟩
      · apply hl.closed hk
        · rw [frontNext_some _ _ hz]
          exact nextHole_setNextHole _ _ (by decide)
        · exact prevHole_setNextHole _ _ (by decide)
        · exact lastByte_setNextHole _ _ (by decide)
        · rw [if_neg hz]
      · intro a _ hoff
        exact setNextHole_off _ _ (off_front hz hoff)
    | cons g t =>
      have hpos := hk.later g List.mem_cons_self
      have hing := inside_ok (hk.inside g.first (by simp))
      have hgle : g.first ≤ 2044 := hk.inside g.first (by simp)
      have hne : (indices (g :: t)).headD 0 ≠ 0 := Nat.ne_of_gt hpos
      rw [if_neg hne]
      simp only [indices, List.map_cons, List.headD_cons, hin, hing]
      refine ⟨{ s with pktBuff := setNextHole (setPrevHole s.pktBuff g.first (frontIdx pre))
                                    (frontIdx pre) g.first }, rfl, fun _ => ?_, rfl, ?_⟩
      · apply hl.closed hk
        · rw [frontNext_some _ _ hz, nextHole_setNextHole _ _ (by omega),
            nextHole_setPrevHole _ _ (by omega)]
          rfl
        · rw [prevHole_setNextHole _ _ (by omega)]
          exact prevHole_setPrevHole _ _ (by omega)
        · rw [lastByte_setNextHole _ _ (by omega), lastByte_setPrevHole _ _ (by omega)]
        · rw [if_neg hz]
      · intro a _ hoff
        exact (setNextHole_off _ _ (off_front hz hoff)).trans
          (setPrevHole_off _ _ (hoff g (by simp)))

theorem linkNext_eq {b : Buf} {n : Nat} (hn : nextHole b n = (indices post).headD 0)
    (hlater : ∀ g ∈ post, 0 < g.first) (hin : ∀ g ∈ post, g.first ≤ 2044) (hle : n ≤ 2044) :
    ∃ b', linkNext b n = .ok b' ∧ lastByte b' = lastByte b ∧ nextHole b' = nextHole b ∧
      prevHole b' = backPrev (prevHole b) (indices post) n ∧
      ∀ a, (∀ g ∈ post, ¬ InCell g.first a) → b' a = b a := by
  simp only [linkNext, hn]
  cases post with
  | nil =>
    simp only [indices, List.map_nil, List.headD_nil, ne_eq, not_true_eq_false, if_false]
    exact ⟨b, rfl, rfl, rfl, rfl, fun _ _ => rfl⟩
  | cons g t =>
    have hne : (indices (g :: t)).headD 0 ≠ 0 := Nat.ne_of_gt (hlater g List.mem_cons_self)
    have hing := inside_ok (hin g List.mem_cons_self)
    rw [if_pos hne]
    simp only [indices, List.map_cons, List.headD_cons, hing]
    refine ⟨setPrevHole b g.first n, rfl, lastByte_setPrevHole _ _ (by omega),
      nextHole_setPrevHole _ _ (by omega), prevHole_setPrevHole _ _ (by omega), ?_⟩
    intro a ha
    exact setPrevHole_off _ _ (ha g List.mem_cons_self)

structure Fresh (pre : List Hole) (k : Hole) (n : Nat) (post : List Hole) : Prop where
  nodup : (indices pre ++ k.first :: n :: indices post).Nodup
  pos : 0 < n
  inside : n ≤ 2044

theorem Fresh.apart {n : Nat} (hf : Fresh pre k n post) :
    (∀ x ∈ indices pre, x ≠ k.first ∧ x ≠ n ∧ x ∉ indices post) ∧ n ≠ k.first ∧
      ∀ x ∈ indices post, x ≠ k.first ∧ x ≠ n := by
  obtain ⟨-, hrest, hcross⟩ := List.nodup_append.mp hf.nodup
  obtain ⟨hk, hrest⟩ := List.nodup_cons.mp hrest
  obtain ⟨hn, -⟩ := List.nodup_cons.mp hrest
  refine ⟨?_, fun h => hk (h ▸ List.mem_cons_self), ?_⟩
  · intro x hx
    refine ⟨hcross x hx _ List.mem_cons_self, hcross x hx n (by simp), ?_⟩
    intro hp
    exact hcross x hx x (List.mem_cons_of_mem _ (List.mem_cons_of_mem n hp)) rfl
  · rintro x hx
    constructor
    · rintro rfl
      exact hk (List.mem_cons_of_mem n hx)
    · rintro rfl
      exact hn hx

theorem Fresh.behind {n : Nat} (hf : Fresh pre k n post) : (indices post).Nodup := by
  obtain ⟨-, hrest, -⟩ := List.nodup_append.mp hf.nodup
  exact (List.nodup_cons.mp (List.nodup_cons.mp hrest).2).2

/-- Links that change at the two descriptors alone leave the part in front. -/
theorem Fresh.front {next prev next' prev' : Nat → Nat} {n : Nat} (hf : Fresh pre k n post)
    (hseg : Seg next prev 0 (indices pre) k.first)
    (hn : ∀ x, x ≠ k.first → x ≠ n → next' x = next x)
    (hp : ∀ x, x ≠ k.first → x ≠ n → prev' x = prev x) :
    Seg next' (backPrev prev' (indices post) n) 0 (indices pre) k.first := by
  obtain ⟨hpre, -, -⟩ := hf.apart
  apply hseg.congr
  · intro x hx
    exact hn x (hpre x hx).1 (hpre x hx).2.1
  · intro x hx
    rw [backPrev_of_not_mem (hpre x hx).2.2]
    exact hp x (hpre x hx).1 (hpre x hx).2.1

/-- And they leave the part behind, once that points back to the new one. -/
theorem Fresh.rest {next prev next' prev' : Nat → Nat} {n : Nat} (hf : Fresh pre k n post)
    (hseg : Seg next prev k.first (indices post) 0)
    (hn : ∀ x, x ≠ k.first → x ≠ n → next' x = next x)
    (hp : ∀ x, x ≠ k.first → x ≠ n → prev' x = prev x) :
    Seg next' (backPrev prev' (indices post) n) n (indices post) 0 := by
  obtain ⟨-, -, hpost⟩ := hf.apart
  refine Seg.back (p := k.first) ?_ hf.behind
  apply hseg.congr
  · intro x hx
    exact hn x (hpost x hx).1 (hpost x hx).2
  · intro x hx
    exact hp x (hpost x hx).1 (hpost x hx).2

theorem Fresh.last {f : Nat → Nat} {n : Nat} (hf : Fresh pre k n post)
    (hl : Listed s (pre ++ k :: post))
    (hs : ∀ x, x ≠ k.first → x ≠ n → f x = lastByte s.pktBuff x) :
    (∀ h ∈ pre, f h.first = h.last) ∧ ∀ h ∈ post, f h.first = h.last := by
  obtain ⟨hpre, -, hpost⟩ := hf.apart
  constructor
  · intro h hh
    have hx := hpre _ (List.mem_map_of_mem hh)
    rw [hs _ hx.1 hx.2.1]
    exact hl.last h (List.mem_append_left _ hh)
  · intro h hh
    have hx := hpost _ (List.mem_map_of_mem hh)
    rw [hs _ hx.1 hx.2]
    exact hl.last h (List.mem_append_right _ (List.mem_cons_of_mem k hh))

/-- The hole begins later, and a neighbour at offset 0 in front goes. -/
theorem moveHole_edited {n : Nat} (hl : Listed s (pre ++ k :: post)) (hk : Linkable pre k post)
    (hf : Fresh pre k n post) :
    ∃ s', moveHole s k.first n = .ok s' ∧
      Edited s s' k.first (keptFront pre ++ ⟨n, k.last⟩ :: post) := by
  obtain ⟨hfront, hprev, hnext, hback⟩ := hl.around
  obtain ⟨-, -, hpost⟩ := hf.apart
  have hnp : n ∉ indices post := fun h => (hpost n h).2 rfl
  have hcopy : nextHole (copyHole s.pktBuff n k.first) n = (indices post).headD 0 := by
    rw [nextHole_copyHole, Function.update_self, hnext]
  obtain ⟨b, hb, hbl, hbn, hbp, hoff⟩ := linkNext_eq hcopy hk.later hk.behind hf.inside
  rw [lastByte_copyHole, hl.last k (by simp)] at hbl
  rw [nextHole_copyHole, hnext] at hbn
  rw [prevHole_copyHole, hprev] at hbp
  have hbprev : prevHole b n = frontIdx pre := by
    rw [hbp, backPrev_of_not_mem hnp, Function.update_self]
  -- the list with the new hole in the place of the old one
  have hn : ∀ x, x ≠ k.first → x ≠ n → nextHole b x = nextHole s.pktBuff x := by
    intro x _ hx
    rw [hbn, Function.update_of_ne hx]
  have hp : ∀ x, x ≠ k.first → x ≠ n →
      Function.update (prevHole s.pktBuff) n (frontIdx pre) x = prevHole s.pktBuff x := by
    intro x _ hx
    exact Function.update_of_ne hx ..
  have hseg1 : Seg (nextHole b) (prevHole b) 0 (indices pre) k.first :=
    hbp ▸ hf.front hfront hn hp
  have hbehind : Seg (nextHole b) (prevHole b) n (indices post) 0 := hbp ▸ hf.rest hback hn hp
  have hseg2 : Seg (nextHole b) (prevHole b) (frontIdx pre) (n :: indices post) 0 :=
    ⟨hbprev, by rw [hbn, Function.update_self], hbehind⟩
  have hd : (indices pre ++ indices (⟨n, k.last⟩ :: post)).Nodup :=
    hf.nodup.sublist (List.Sublist.append_left (List.sublist_cons_self ..) _)
  have hself : backPrev (prevHole b) (n :: indices post) (frontIdx pre) = prevHole b := by
    rw [backPrev, ← hbprev, Function.update_eq_self]
  obtain ⟨hlpre, hlpost⟩ := hf.last (f := lastByte b) hl
    (fun x _ hx => by rw [hbl, Function.update_of_ne hx])
  have hlast : ∀ h ∈ keptFront pre ++ ⟨n, k.last⟩ :: post, lastByte b h.first = h.last := by
    intro h hh
    rcases List.mem_append.mp hh with hh | hh
    · exact hlpre h (keptFront_subset h hh)
    · rcases List.mem_cons.mp hh with rfl | hh
      · rw [hbl]
        exact Function.update_self ..
      · exact hlpost h hh
  have hoffb : ∀ a, ¬ InCell n a → (∀ g ∈ post, ¬ InCell g.first a) → b a = s.pktBuff a :=
    fun a hn hp => (hoff a hp).trans (copyHole_off _ _ _ hn)
  have hle := hf.inside
  simp only [moveHole, inside_ok hf.inside, Int.toNat_natCast]
  rw [hb]
  by_cases hz : frontIdx pre = 0
  · refine ⟨{ s with pktBuff := b, firstHole := UInt16.ofNat n }, ?_, fun _ => ?_, rfl, ?_⟩
    · simp only [ok_bind, hbprev, hz, ne_eq, not_true_eq_false, if_false]
      rfl
    · apply listed_closed hseg1 hseg2 hd
      · exact (frontNext_none _ _ hz).symm
      · exact hself.symm
      · exact hlast
      · simp only [keptFront, if_pos hz, List.nil_append, indices, List.map_cons, List.headD_cons,
          UInt16.toNat_ofNat']
        exact Nat.mod_eq_of_lt (by omega)
    · intro a _ ha
      exact hoffb a (ha ⟨n, k.last⟩ (by simp)) (fun g hg => ha g (by simp [hg]))
  · have hkept : keptFront pre = pre := if_neg hz
    have hmem := frontIdx_mem hz
    have hple := hk.inside _ (List.mem_append_left _ hmem)
    refine ⟨{ s with pktBuff := setNextHole b (frontIdx pre) n }, ?_, fun _ => ?_, rfl, ?_⟩
    · simp only [ok_bind, hbprev, hz, ne_eq, not_false_eq_true, if_true, inside_ok hple]
      rfl
    · apply listed_closed hseg1 hseg2 hd
      · rw [frontNext_some _ _ hz]
        exact nextHole_setNextHole _ _ (by omega)
      · rw [prevHole_setNextHole _ _ (by omega)]
        exact hself.symm
      · rw [lastByte_setNextHole _ _ (by omega)]
        exact hlast
      · rw [hl.first]
        exact (headD_kept _ _ hz).symm
    · intro a _ ha
      refine (setNextHole_off _ _ (off_front hz ha)).trans ?_
      exact hoffb a (ha ⟨n, k.last⟩ (by simp)) (fun g hg => ha g (by simp [hg]))

/-- A hole on either side of the fragment. -/
theorem splitHole_edited {n start : Nat} (hl : Listed s (pre ++ k :: post))
    (hk : Linkable pre k post) (hf : Fresh pre k n post) (hstart : start < 65536) :
    ∃ s', splitHole s k.first start n = .ok s' ∧
      Edited s s' k.first (pre ++ ⟨k.first, start⟩ :: ⟨n, k.last⟩ :: post) := by
  obtain ⟨hfront, hprev, hnext, hback⟩ := hl.around
  obtain ⟨-, hnk, hpost⟩ := hf.apart
  have hnp : n ∉ indices post := fun h => (hpost n h).2 rfl
  have hkp : k.first ∉ indices post := fun h => (hpost _ h).1 rfl
  have hle := hf.inside
  have hkle : k.first ≤ 2044 := hk.inside k.first (by simp)
  generalize hc : setPrevHole (setNextHole (setLastByte (copyHole s.pktBuff n k.first)
    k.first start) k.first n) n k.first = c
  have hcl : lastByte c =
      Function.update (Function.update (lastByte s.pktBuff) n k.last) k.first start := by
    rw [← hc, lastByte_setPrevHole _ _ (by omega), lastByte_setNextHole _ _ (by omega),
      lastByte_setLastByte _ _ hstart, lastByte_copyHole, hl.last k (by simp)]
  have hcn : nextHole c =
      Function.update (Function.update (nextHole s.pktBuff) n ((indices post).headD 0))
        k.first n := by
    rw [← hc, nextHole_setPrevHole _ _ (by omega), nextHole_setNextHole _ _ (by omega),
      nextHole_setLastByte _ _ hstart, nextHole_copyHole, hnext]
  have hcp : prevHole c =
      Function.update (Function.update (prevHole s.pktBuff) n (frontIdx pre)) n k.first := by
    rw [← hc, prevHole_setPrevHole _ _ (by omega), prevHole_setNextHole _ _ (by omega),
      prevHole_setLastByte _ _ hstart, prevHole_copyHole, hprev]
  have hcopy : nextHole c n = (indices post).headD 0 := by
    rw [hcn, Function.update_of_ne hnk, Function.update_self]
  obtain ⟨b, hb, hbl, hbn, hbp, hoff⟩ := linkNext_eq hcopy hk.later hk.behind hf.inside
  rw [hcl] at hbl
  rw [hcn] at hbn
  rw [hcp] at hbp
  refine ⟨{ s with pktBuff := b }, ?_, fun _ => ⟨?_, ?_, ?_⟩, rfl, ?_⟩
  · simp only [splitHole, inside_ok hf.inside, Int.toNat_natCast, hc, hb, ok_bind]
    rfl
  · rw [hl.first]
    cases pre with
    | nil => rfl
    | cons _ _ => rfl
  · have hn : ∀ x, x ≠ k.first → x ≠ n → nextHole b x = nextHole s.pktBuff x := by
      intro x hx hxn
      rw [hbn, Function.update_of_ne hx, Function.update_of_ne hxn]
    have hp : ∀ x, x ≠ k.first → x ≠ n →
        Function.update (Function.update (prevHole s.pktBuff) n (frontIdx pre)) n k.first x =
          prevHole s.pktBuff x := by
      intro x _ hxn
      rw [Function.update_of_ne hxn, Function.update_of_ne hxn]
    have hseg1 : Seg (nextHole b) (prevHole b) 0 (indices pre) k.first :=
      hbp ▸ hf.front hfront hn hp
    have hseg2 : Seg (nextHole b) (prevHole b) n (indices post) 0 := hbp ▸ hf.rest hback hn hp
    have hkprev : prevHole b k.first = frontIdx pre := by
      rw [hbp, backPrev_of_not_mem hkp, Function.update_of_ne hnk.symm,
        Function.update_of_ne hnk.symm, hprev]
    have hnprev : prevHole b n = k.first := by
      rw [hbp, backPrev_of_not_mem hnp, Function.update_self]
    have hknext : nextHole b k.first = n := by rw [hbn, Function.update_self]
    have hnnext : nextHole b n = (indices post).headD 0 := hbn ▸ hcn ▸ hcopy
    rw [indices, List.map_append, List.map_cons, List.map_cons]
    exact seg_append.mpr ⟨hseg1, hkprev, hknext, hnprev, hnnext, hseg2⟩
  · obtain ⟨hlpre, hlpost⟩ := hf.last (f := lastByte b) hl
      (fun x hx hxn => by rw [hbl, Function.update_of_ne hx, Function.update_of_ne hxn])
    intro h hh
    rcases List.mem_append.mp hh with hh | hh
    · exact hlpre h hh
    · rcases List.mem_cons.mp hh with rfl | hh
      · rw [hbl]
        exact Function.update_self ..
      · rcases List.mem_cons.mp hh with rfl | hh
        · rw [hbl, Function.update_of_ne hnk, Function.update_self]
        · exact hlpost h hh
  · intro a hka ha
    have hna := ha ⟨n, k.last⟩ (by simp)
    refine (hoff a (fun g hg => ha g (by simp [hg]))).trans ?_
    rw [← hc, setPrevHole_off _ _ hna, setNextHole_off _ _ hka, setLastByte_off _ _ hka,
      copyHole_off _ _ _ hna]

/-- The end of a listed hole moved. -/
theorem Listed.setLast {s' : Defrag} {v : Nat} (hl : Listed s (pre ++ k :: post))
    (hk : Linkable pre k post) (hv : v < 65536) (hfirst : s'.firstHole = s.firstHole)
    (hbuf : s'.pktBuff = setLastByte s.pktBuff k.first v) :
    Listed s' (pre ++ ⟨k.first, v⟩ :: post) := by
  obtain ⟨-, hdrest, hcross⟩ := List.nodup_append.mp hk.nodup
  have hidx : indices (pre ++ ⟨k.first, v⟩ :: post) = indices (pre ++ k :: post) := by
    simp [indices]
  constructor
  · rw [hfirst, hl.first, hidx]
  · rw [hidx, hbuf, nextHole_setLastByte _ _ hv, prevHole_setLastByte _ _ hv]
    exact hl.seg
  · intro h hh
    rw [hbuf, lastByte_setLastByte _ _ hv]
    rcases List.mem_append.mp hh with hh | hh
    · have hne : h.first ≠ k.first := hcross _ (List.mem_map_of_mem hh) _ List.mem_cons_self
      rw [Function.update_of_ne hne]
      exact hl.last h (List.mem_append_left _ hh)
    · rcases List.mem_cons.mp hh with rfl | hh
      · exact Function.update_self ..
      · have hne : h.first ≠ k.first := by
          intro he
          exact (List.nodup_cons.mp hdrest).1 (he ▸ List.mem_map_of_mem hh)
        rw [Function.update_of_ne hne]
        exact hl.last h (List.mem_append_right _ (List.mem_cons_of_mem k hh))

end Edits

end EmacDriver
