import EmacDriver.Proofs.HoleEdits

namespace EmacDriver
open Bytes DoublyLinked

section Fix
variable {s : Defrag} {pre post : List Hole} {h : Hole} {f : FragInfo} {len : Nat}

def truncated (h : Hole) (f : FragInfo) (len : Nat) : Hole :=
  ⟨h.first, if f.more then h.last else 8 * f.offset8 + len⟩

theorem truncateHole_listed (w : HolesWf (pre ++ h :: post)) (hl : Listed s (pre ++ h :: post))
    (hlen : f.len = len) (he : 8 * f.offset8 + len ≤ 16364) :
    Listed (truncateHole s h.first f) (pre ++ truncated h f len :: post) := by
  have hend : (f.start + f.len).toNat = 8 * f.offset8 + len := by
    rw [FragInfo.start, hlen]
    omega
  rw [truncateHole, truncated, hend]
  cases f.more with
  | true => exact hl
  | false =>
    simp only [Bool.false_eq_true, if_false]
    exact hl.setLast (w.linkable rfl) (by omega) rfl rfl

theorem Filling.fresh {more : Bool} {first8 : Nat} {k : Hole} (w : HolesWf (pre ++ h :: post))
    (p : Filling pre h post first8 len more) (hk : k.first = h.first) (hm : more = true)
    (hb : 8 * first8 + len < h.last) : Fresh pre k (first8 + len / 8) post := by
  obtain ⟨-, hh, -, -, hback, -⟩ := w.split
  obtain ⟨heq, hfits⟩ := p.newHole hh hm hb
  have hover := p.overlap
  have hmod := (p.room hm hb).1
  have hin := hfits.inside
  refine ⟨?_, by omega, hin⟩
  have hinc := w.increasing
  rw [indices, List.map_append, List.map_cons] at hinc
  obtain ⟨hpre, hrest, hcross⟩ := List.pairwise_append.mp hinc
  obtain ⟨hhp, hpost⟩ := List.pairwise_cons.mp hrest
  have hnew : ∀ x ∈ indices post, first8 + len / 8 < x := by
    intro x hx
    obtain ⟨g, hg, rfl⟩ := List.mem_map.mp hx
    have := hback g hg
    omega
  have hall : (indices pre ++ k.first :: (first8 + len / 8) :: indices post).Pairwise (· < ·) := by
    rw [hk]
    apply List.pairwise_append.mpr ⟨hpre, ?_, ?_⟩
    · apply List.pairwise_cons.mpr ⟨?_, List.pairwise_cons.mpr ⟨hnew, hpost⟩⟩
      intro x hx
      rcases List.mem_cons.mp hx with rfl | hx
      · omega
      · exact hhp x hx
    · intro x hx y hy
      have hlt := hcross x hx h.first List.mem_cons_self
      rcases List.mem_cons.mp hy with rfl | hy
      · exact hlt
      · rcases List.mem_cons.mp hy with rfl | hy
        · omega
        · exact hcross x hx y (List.mem_cons_of_mem _ hy)
  exact hall.imp (fun hlt => Nat.ne_of_lt hlt)

/-- The four overlap cases on the list. -/
theorem fixHoles_edited (w : HolesWf (pre ++ h :: post)) (hl : Listed s (pre ++ h :: post))
    (p : Filling pre h post f.offset8 len f.more) (hlen : f.len = len)
    (he : 8 * f.offset8 + len ≤ 16364) :
    ∃ s', fixHoles (truncateHole s h.first f) h.first f =
        .ok (s', (fillHoles pre h post f.offset8 len f.more).isEmpty) ∧
      Edited (truncateHole s h.first f) s' h.first
        (fillHoles pre h post f.offset8 len f.more) := by
  have hlt := truncateHole_listed w hl hlen he
  have hk : Linkable pre (truncated h f len) post := w.linkable rfl
  have hlast := hlt.last (truncated h f len) (by simp)
  generalize truncateHole s h.first f = t at hlt hlast ⊢
  have hnewh : (f.offset8 : Int) + f.len.tdiv 8 = ((f.offset8 + len / 8 : Nat) : Int) := by
    rw [hlen]
    rfl
  have hend : (f.start : Int) + f.len = ((8 * f.offset8 + len : Nat) : Int) := by
    rw [hlen]
    rfl
  have hfirst : (truncated h f len).first = h.first := rfl
  rw [hfirst] at hlast
  simp only [fixHoles, hnewh, hend, hlast, Int.ofNat_le]
  generalize hfill : fillHoles pre h post f.offset8 len f.more = filled
  have ho := hfill ▸ fillHoles_overlap pre h post f.offset8 len f.more
  have hbl : (f.more = true → h.last ≤ 8 * f.offset8 + len) →
      (truncated h f len).last ≤ 8 * f.offset8 + len := by
    intro hb
    rw [truncated]
    cases hm : f.more with
    | true => exact hb hm
    | false => exact Nat.le_refl _
  have hwhole : f.more = true → truncated h f len = h := by
    intro hm
    rw [truncated, hm]
    rfl
  cases ho with
  | complete front back =>
    rw [if_pos ⟨front, hbl back⟩]
    exact removeHole_edited (k := truncated h f len) hlt hk
  | final front back =>
    rw [if_neg (fun hc => absurd hc.1 (Nat.not_le.mpr front)), if_pos (hbl back)]
    have hstart : f.start < 65536 := by
      rw [FragInfo.start]
      omega
    refine ⟨{ t with pktBuff := setLastByte t.pktBuff h.first f.start }, ?_, fun _ => ?_, rfl, ?_⟩
    · simp
    · exact hlt.setLast hk hstart rfl rfl
    · intro a ha _
      exact setLastByte_off _ _ ha
  | initial front goesOn back =>
    have hn := p.fresh (k := h) w rfl goesOn back
    rw [hwhole goesOn] at hlt hk ⊢
    rw [if_neg (fun hc => absurd hc.2 (Nat.not_le.mpr back)), if_neg (Nat.not_le.mpr back),
      if_pos front]
    obtain ⟨s', hs, he⟩ := moveHole_edited hlt hk hn
    refine ⟨s', ?_, he⟩
    rw [hs]
    simp
  | middle front goesOn back =>
    have hn := p.fresh (k := h) w rfl goesOn back
    rw [hwhole goesOn] at hlt hk ⊢
    rw [if_neg (fun hc => absurd hc.1 (Nat.not_le.mpr front)), if_neg (Nat.not_le.mpr back),
      if_neg (Nat.not_le.mpr front)]
    have hstart : f.start < 65536 := by
      rw [FragInfo.start]
      omega
    obtain ⟨s', hs, he⟩ := splitHole_edited hlt hk hn hstart
    refine ⟨s', ?_, he⟩
    rw [hs]
    simp

end Fix

/-- The hole that a fragment from `start` on is put into. -/
theorem reached {l : List Hole} {start : Nat} {h : Hole}
    (hf : l.find? (fun g => decide (start ≤ g.last)) = some h) :
    start ≤ h.last ∧ ∃ pre post, l = pre ++ h :: post ∧ ∀ g ∈ pre, g.last < start := by
  obtain ⟨hreach, pre, post, hl, hpre⟩ := List.find?_eq_some_iff_append.mp hf
  refine ⟨of_decide_eq_true hreach, pre, post, hl, ?_⟩
  intro g hg
  have := hpre g hg
  simp only [Bool.not_eq_true', decide_eq_false_iff_not] at this
  omega

structure Added (s s' : Defrag) (ip : Buf) (f : FragInfo) (len k : Nat) (l : List Hole) :
    Prop where
  listed : l ≠ [] → Listed s' l
  total : s'.totalLen = if f.more then s.totalLen else UInt16.ofNat (8 * f.offset8 + len)
  data : ∀ i < len, s'.pktBuff (holeAt f.offset8 + i) = ip (20 + i)
  off : ∀ a, 4 ≤ a → a < holeAt f.offset8 ∨ holeAt f.offset8 + len ≤ a → ¬ InCell k a →
    (∀ g ∈ l, ¬ InCell g.first a) → s'.pktBuff a = s.pktBuff a

section Add
variable {s : Defrag} {l pre post : List Hole} {h : Hole} {ip : Buf} {avail : Nat} {f : FragInfo}

/-- A fragment behind every hole is dropped. -/
theorem addFragment_unreached (w : HolesWf l) (hl : Listed s l) (hne : l ≠ [])
    (hf : l.find? (fun g => decide (f.start ≤ g.last)) = none) :
    addFragment s ip avail f = .ok (s, none) := by
  rw [addFragment, hl.find f.start w hne, hf]
  rfl

/-- A fragment in front of the first hole it could fill is dropped. -/
theorem addFragment_dup (w : HolesWf l) (hl : Listed s l) (hne : l ≠ [])
    (hf : l.find? (fun g => decide (f.start ≤ g.last)) = some h)
    (hdup : f.offset8 + (f.len + 7).tdiv 8 ≤ h.first) :
    addFragment s ip avail f = .ok (s, none) := by
  rw [addFragment, hl.find f.start w hne, hf]
  simp only [Option.map_some, ok_bind, if_pos hdup]
  rfl

/-- The copied data stay clear of the descriptors that are left. -/
theorem Edited.stored {s' : Defrag} {k len : Nat} (ip : Buf) (he : Edited s s' k l)
    (hclear : ∀ g ∈ l, 8 * g.first + 8 ≤ 8 * f.offset8 ∨ 8 * f.offset8 + len ≤ 8 * g.first) :
    l ≠ [] → Listed { s' with pktBuff := copy s'.pktBuff (holeAt f.offset8) ip 20 len } l := by
  intro hne
  have hl := he.listed hne
  have hfields := fun g (hg : g ∈ l) =>
    fields_patch (b := s'.pktBuff) (i := g.first) (o := holeAt f.offset8) (n := len)
      (f := fun i => ip (20 + i)) (by simp only [holeAt]; have := hclear g hg; omega)
  refine ⟨hl.first, hl.seg.congr _ _ ?_ ?_, ?_⟩
  · intro i hi
    obtain ⟨g, hg, rfl⟩ := List.mem_map.mp hi
    exact (hfields g hg).2.1
  · intro i hi
    obtain ⟨g, hg, rfl⟩ := List.mem_map.mp hi
    exact (hfields g hg).2.2
  · intro g hg
    exact (hfields g hg).1.trans (hl.last g hg)

/-- A fragment that fills its hole: the list is edited and the data copied. -/
theorem addFragment_fills {len : Nat} (w : HolesWf (pre ++ h :: post))
    (hl : Listed s (pre ++ h :: post))
    (hf : (pre ++ h :: post).find? (fun g => decide (f.start ≤ g.last)) = some h)
    (p : Filling pre h post f.offset8 len f.more) (hlen : f.len = len)
    (he : 8 * f.offset8 + len ≤ 16364) (havail : 20 + len ≤ avail) :
    ∃ s', addFragment s ip avail f =
        .ok (s', if fillHoles pre h post f.offset8 len f.more = [] then
          some (s'.totalLen.toNat + 20 : Int) else none) ∧
      Added s s' ip f len h.first (fillHoles pre h post f.offset8 len f.more) := by
  have hnew : ¬ (f.offset8 : Int) + (f.len + 7).tdiv 8 ≤ h.first := by
    have hover := p.overlap
    have : (f.len + 7).tdiv 8 = ((len + 7) / 8 : Nat) := by
      rw [hlen]
      rfl
    omega
  obtain ⟨t, ht, hedit⟩ := fixHoles_edited w hl p hlen he
  obtain ⟨-, hclear⟩ := fillHoles_wf w p
  have hstore : storeFragment t ip avail f =
      .ok { t with pktBuff := copy t.pktBuff (holeAt f.offset8) ip 20 len } := by
    rw [storeFragment, hlen, if_pos (by simp only [holeAt]; omega)]
    rfl
  have htotal : t.totalLen =
      if f.more then s.totalLen else UInt16.ofNat (8 * f.offset8 + len) := by
    have hend : (f.start + f.len).toNat = 8 * f.offset8 + len := by
      rw [FragInfo.start, hlen]
      omega
    rw [hedit.total, truncateHole, hend]
    cases f.more with
    | true => rfl
    | false => rfl
  have hoff : ∀ a, ¬ InCell h.first a →
      (truncateHole s h.first f).pktBuff a = s.pktBuff a := by
    intro a ha
    rw [truncateHole]
    cases f.more with
    | true => rfl
    | false => exact setLastByte_off _ _ ha
  rw [addFragment, hl.find f.start w (by simp), hf]
  simp only [Option.map_some, ok_bind, if_neg hnew, ht, hstore]
  have hdata : ∀ i < len, copy t.pktBuff (holeAt f.offset8) ip 20 len (holeAt f.offset8 + i) =
      ip (20 + i) := by
    intro i hi
    simp only [patch]
    rw [if_pos (by omega), Nat.add_sub_cancel_left]
  have hrest : ∀ a, a < holeAt f.offset8 ∨ holeAt f.offset8 + len ≤ a → ¬ InCell h.first a →
      (∀ g ∈ fillHoles pre h post f.offset8 len f.more, ¬ InCell g.first a) →
      copy t.pktBuff (holeAt f.offset8) ip 20 len a = s.pktBuff a := by
    intro a hout hk hcells
    rw [copy, patch_off hout, hedit.off a hk hcells, hoff a hk]
  have hlisted := hedit.stored ip hclear
  by_cases hfill : fillHoles pre h post f.offset8 len f.more = []
  · refine ⟨{ t with pktBuff := store16 (copy t.pktBuff (holeAt f.offset8) ip 20 len) 2
                        (htons t.totalLen.toNat) }, ?_, ?_, htotal, ?_, ?_⟩
    · rw [hfill]
      rfl
    · intro hne
      exact absurd hfill hne
    · intro i hi
      refine (patch_off ?_).trans (hdata i hi)
      simp only [holeAt]
      omega
    · intro a ha hout hk hcells
      exact (patch_off (by omega)).trans (hrest a hout hk hcells)
  · refine ⟨{ t with pktBuff := copy t.pktBuff (holeAt f.offset8) ip 20 len }, ?_, hlisted,
      htotal, hdata, fun a _ => hrest a⟩
    have hempty : (fillHoles pre h post f.offset8 len f.more).isEmpty = false :=
      List.isEmpty_eq_false_iff.mpr hfill
    rw [hempty, if_neg hfill]
    rfl

/-- A hole that would begin at 16360 has no room for its descriptor. -/
theorem addFragment_outside (w : HolesWf l) (hl : Listed s l)
    (hf : l.find? (fun g => decide (f.start ≤ g.last)) = some h)
    (hnew : ¬ f.offset8 + (f.len + 7).tdiv 8 ≤ h.first) (hmore : f.more = true)
    (hend : f.start + f.len = 16360) (hover : 16360 < h.last) :
    addFragment s ip avail f = .error .outside := by
  have hmem := List.mem_of_find?_eq_some hf
  have hlast := hl.last h hmem
  have hindex : (f.offset8 : Int) + f.len.tdiv 8 = 2045 := by
    rw [FragInfo.start] at hend
    have hlen : f.len = 8 * (2045 - f.offset8 : Int) := by omega
    rw [hlen, Int.mul_tdiv_cancel_left _ (by decide)]
    omega
  have hout : inside 2045 = .error .outside := by decide
  have htrunc : truncateHole s h.first f = s := if_pos hmore
  have hlt : ¬ (h.last : Int) ≤ 16360 := by omega
  have hfix : fixHoles s h.first f = .error .outside := by
    simp only [fixHoles, hindex, hend, hlast]
    rw [if_neg (fun hc => hlt hc.2), if_neg hlt]
    split
    · rw [moveHole, hout]
      rfl
    · rw [splitHole, hout]
      rfl
  rw [addFragment, hl.find f.start w (List.ne_nil_of_mem hmem), hf]
  simp only [Option.map_some, ok_bind, if_neg hnew, htrunc, hfix]
  rfl

end Add

/-- A new packet is one hole. -/
theorem holesWf_reset : HolesWf [⟨0, 65535⟩] := by
  apply HolesWf.cons ⟨by decide, by decide, by decide⟩ holesWf_nil
  intro g hg
  cases hg

/-- A new packet begins as one hole. -/
theorem resetPacket_listed (s : Defrag) (ip : Buf) :
    Listed (resetPacket s ip) [⟨0, 65535⟩] := by
  have hcell : ∀ c : Buf, lastByte (copy c 0 ip 0 20) 0 = lastByte c 0 ∧
      nextHole (copy c 0 ip 0 20) 0 = nextHole c 0 ∧
      prevHole (copy c 0 ip 0 20) 0 = prevHole c 0 :=
    fun c => fields_patch (Or.inr (by decide))
  obtain ⟨hlast, hnext, hprev⟩ := hcell
    (setPrevHole (setNextHole (setLastByte s.pktBuff 0 0xffff) 0 0) 0 0)
  rw [lastByte_setPrevHole _ _ (by decide), lastByte_setNextHole _ _ (by decide),
    lastByte_setLastByte _ _ (by decide), Function.update_self] at hlast
  rw [nextHole_setPrevHole _ _ (by decide), nextHole_setNextHole _ _ (by decide),
    Function.update_self] at hnext
  rw [prevHole_setPrevHole _ _ (by decide), Function.update_self] at hprev
  refine ⟨rfl, ⟨hprev, hnext, trivial⟩, ?_⟩
  intro h hh
  rw [List.mem_singleton.mp hh]
  exact hlast

theorem resetPacket_id (s : Defrag) (ip : Buf) :
    load16 (resetPacket s ip).pktBuff 4 = load16 ip 4 := by
  apply load16_congr
  intro i hi
  simp only [resetPacket, patch]
  rw [if_pos (by omega), Nat.sub_zero, Nat.zero_add]

end EmacDriver
