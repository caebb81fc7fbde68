import Mathlib.Data.Nat.Bitwise
import EmacDriver.Proofs.Arrivals

namespace EmacDriver
open Bytes

/-- The piece `k` arrives out of place behind the pieces `arrived`: it ends the
first run of pieces that are there while piece 0 is missing; or it leaves the
last piece, at offset 16360, to a hole of its own; or it is an empty last piece
and the one in front of it is there. -/
def Misplaced (c : Cutting) (arrived : List Nat) (k : Nat) : Prop :=
  (∃ m, 0 < m ∧ m < k ∧ ∀ i < k, (i ∈ arrived ↔ m ≤ i)) ∨
    (k + 2 = c.n ∧ k + 1 ∉ arrived ∧ c.off (k + 1) = 16360) ∨
    (k + 1 = c.n ∧ c.len k = 0 ∧ ∃ j ∈ arrived, j + 1 = k)

def InGoodOrder (c : Cutting) (order : List Nat) : Prop :=
  ∀ arrived k rest, order = arrived ++ k :: rest → ¬ Misplaced c arrived k

structure Partway (c : Cutting) (id : UInt16) (payload : Buf) (arrived : List Nat) (gs : List Gap)
    (s : Defrag) : Prop where
  assembling : Assembling c id (fun i => i < c.n ∧ i ∉ arrived) gs s
  pieces : ∀ k ∈ arrived, k < c.n
  data : ∀ k ∈ arrived, ∀ i < c.len k, s.pktBuff (20 + (c.off k + i)) = payload (c.off k + i)
  total : c.n - 1 ∈ arrived → s.totalLen = UInt16.ofNat c.size

section Partway
variable {c : Cutting} {id : UInt16} {payload : Buf} {gs pre post : List Gap} {g : Gap}
  {s : Defrag} {k : Nat} {frag : Nat → Datagram} {arrived rest : List Nat} {d : Datagram}

/-- The piece in front of a gap has arrived. -/
theorem Partway.front_arrived (h : Partway c id payload arrived (pre ++ g :: post) s)
    (hin : g.Within k) {i : Nat} (hi : i + 1 = g.first) : i ∈ arrived := by
  have hkn := (h.assembling.last_le hin).2
  have hg := h.assembling.gaps.proper g (by simp)
  have hlo := hin.1
  by_contra hnot
  have hwithin := h.assembling.gaps.within_of_missing (k := i) ⟨by omega, hnot⟩ (by omega)
    (by omega)
  have := hwithin.1
  omega

/-- The gap in front is linked unless the piece is the one that ends the first run. -/
theorem Partway.linked (h : Partway c id payload arrived (pre ++ g :: post) s) (hin : g.Within k)
    (hgood : ¬ Misplaced c arrived k) : gapsAfter pre g post k = pre ++ (g.cut k ++ post) := by
  rw [gapsAfter]
  by_cases hlost : k = g.first ∧ frontFirst pre = 0
  · rcases List.eq_nil_or_concat pre with hnil | ⟨front, a, hpre⟩
    · rw [if_pos hlost, hnil]
    · exfalso
      subst hpre
      have hgaps : Gaps (fun i => i < c.n ∧ i ∉ arrived) (front ++ a :: g :: post) := by
        simpa using h.assembling.gaps
      have hkn := (h.assembling.last_le hin).2
      have ha := (h.assembling.gaps.sides).1 a (by simp)
      have hzero : a.first = 0 := by simpa [frontFirst] using hlost.2
      apply hgood
      refine Or.inl ⟨a.last, by omega, by omega, ?_⟩
      intro i hi
      constructor
      · intro harrived
        by_contra hlt
        have hmiss := hgaps.missing_of (k := i) (g := a) (by simp) ⟨by omega, by omega⟩
        exact hmiss.2 harrived
      · intro hle
        by_contra hnot
        exact hgaps.not_missing_between hle (by omega) ⟨by omega, hnot⟩
  · rw [if_neg hlost]

/-- In good order the piece fits its gap, and leaves room for a descriptor. -/
theorem Partway.room (h : Partway c id payload arrived (pre ++ g :: post) s) (hin : g.Within k)
    (hgood : ¬ Misplaced c arrived k) :
    (g.first < k ∨ 0 < c.len k) ∧ (k + 1 < g.last → c.off (k + 1) ≠ 16360) := by
  obtain ⟨hn, hkn⟩ := h.assembling.last_le hin
  obtain ⟨hlo, hhi⟩ := hin
  constructor
  · by_contra hnot
    have hfirst : g.first = k := by omega
    have hlen : c.len k = 0 := by omega
    have hlast := c.last_of_empty hkn hlen
    have hpos : 0 < k := by
      rcases Nat.eq_zero_or_pos k with hk0 | hpos
      · have hadd := c.off_add_len hkn
        have := c.nonempty
        rw [hlen, hlast, hk0, c.start] at hadd
        omega
      · exact hpos
    apply hgood
    refine Or.inr (Or.inr ⟨hlast, hlen, k - 1, ?_, by omega⟩)
    exact h.front_arrived ⟨hlo, hhi⟩ (by omega)
  · intro hlt hoff
    have hmiss := h.assembling.gaps.missing_of (k := k + 1) (g := g) (by simp) ⟨by omega, hlt⟩
    apply hgood
    refine Or.inr (Or.inl ⟨?_, hmiss.2, hoff⟩)
    by_contra hne
    have hstep := c.grows (k + 1) (by omega)
    have hblock := c.blocks (k + 1 + 1) (by omega)
    have hk2 : k + 1 + 1 ≤ c.n := by omega
    have := c.off_bound hk2
    omega

/-- A piece in its place is put in. -/
theorem Partway.put (h : Partway c id payload arrived gs s) (hd : HoldsPiece c id payload k d)
    (hkn : k < c.n) (hk : k ∉ arrived) (hgood : ¬ Misplaced c arrived k) :
    ∃ s' gs', addFragment s d.ip d.avail (c.info k) =
        .ok (s', if gs' = [] then some (s'.totalLen.toNat + 20 : Int) else none) ∧
      Gaps (fun i => i < c.n ∧ i ∉ arrived ++ [k]) gs' ∧
      (gs' ≠ [] → Partway c id payload (arrived ++ [k]) gs' s') ∧
      (∀ j ∈ arrived ++ [k], ∀ i < c.len j,
        s'.pktBuff (20 + (c.off j + i)) = payload (c.off j + i)) ∧
      (c.n - 1 ∈ arrived ++ [k] → s'.totalLen = UInt16.ofNat c.size) := by
  have a := h.assembling
  obtain ⟨pre, g, post, rfl, hin⟩ := a.gaps.find ⟨hkn, hk⟩
  obtain ⟨hover, hroom⟩ := h.room hin hgood
  obtain ⟨s', hadd, hadded, hwf⟩ := a.put d.ip hin hover hroom hd.whole
  rw [h.linked hin hgood] at hadd hadded hwf
  have hgaps : Gaps (fun i => i < c.n ∧ i ∉ arrived ++ [k]) (pre ++ (g.cut k ++ post)) := by
    apply (a.gaps.cut hin).congr
    intro i
    simp [and_assoc]
  have hpieces : ∀ j ∈ arrived ++ [k], j < c.n := by
    intro j hj
    rcases List.mem_append.mp hj with hj | hj
    · exact h.pieces j hj
    · rw [List.mem_singleton.mp hj]
      exact hkn
  have hdata : ∀ j ∈ arrived ++ [k], ∀ i < c.len j,
      s'.pktBuff (20 + (c.off j + i)) = payload (c.off j + i) := by
    intro j hj i hi
    by_cases hjk : j = k
    · subst hjk
      have hat : holeAt (c.info j).offset8 = 20 + c.off j := by
        rw [holeAt, ← c.off_div hkn]
        rfl
      rw [← hd.data i hi, ← hadded.data i hi, hat, Nat.add_assoc]
    · have hj' : j ∈ arrived := by simpa [hjk] using hj
      have hmiss : ∀ b : Gap, (b.first < c.n ∧ b.first ∉ arrived) → b.first < c.n ∧ b.first ≠ j :=
        fun b hb => ⟨hb.1, fun heq => hb.2 (heq ▸ hj')⟩
      rw [← h.data j hj' i hi]
      apply hadded.keeps hkn (hmiss g (a.gaps.missing_first (by simp))) ?_ (h.pieces j hj') hjk hi
      intro b hb
      have hfirst := hgaps.missing_first hb
      exact hmiss b ⟨hfirst.1, fun hc => hfirst.2 (List.mem_append_left _ hc)⟩
  have htotal : c.n - 1 ∈ arrived ++ [k] → s'.totalLen = UInt16.ofNat c.size := by
    intro hlast
    rw [hadded.total_size hkn]
    by_cases hk1 : k + 1 < c.n
    · rw [if_pos hk1]
      apply h.total
      have hne : c.n - 1 ≠ k := by omega
      simpa [hne] using hlast
    · rw [if_neg hk1]
  refine ⟨s', _, hadd, hgaps, ?_, hdata, htotal⟩
  intro hne
  exact ⟨a.next hadded hwf hne hkn hgaps (fun i hi => hi.1), hpieces, hdata, htotal⟩

/-- A piece that has not arrived. -/
theorem not_arrived (hperm : (arrived ++ k :: rest).Perm (List.range c.n)) :
    k < c.n ∧ k ∉ arrived ∧ k ∉ rest ∧ rest.Nodup := by
  have hnodup := hperm.nodup_iff.mpr List.nodup_range
  obtain ⟨-, hrest, hcross⟩ := List.nodup_append.mp hnodup
  obtain ⟨hk, hrest⟩ := List.nodup_cons.mp hrest
  refine ⟨List.mem_range.mp (hperm.mem_iff.mp (by simp)), ?_, hk, hrest⟩
  intro hc
  exact hcross k hc k List.mem_cons_self rfl

theorem coming (hperm : (arrived ++ k :: rest).Perm (List.range c.n)) {i : Nat} (hi : i ∈ rest) :
    i < c.n ∧ i ∉ arrived := by
  refine ⟨List.mem_range.mp (hperm.mem_iff.mp (by simp [hi])), ?_⟩
  intro hia
  have hnodup := hperm.nodup_iff.mpr List.nodup_range
  exact (List.nodup_append.mp hnodup).2.2 i hia i (List.mem_cons_of_mem k hi) rfl

theorem arrived_or_coming (hperm : (arrived ++ k :: rest).Perm (List.range c.n)) {i : Nat}
    (hi : i < c.n) : i ∈ arrived ++ [k] ∨ i ∈ rest := by
  have := hperm.mem_iff.mpr (List.mem_range.mpr hi)
  simpa [or_assoc] using this

/-- With the last gap gone, the whole payload is there. -/
theorem whole_payload {s' : Defrag} (hall : ∀ i < c.n, i ∈ arrived)
    (hdata : ∀ j ∈ arrived, ∀ i < c.len j,
      s'.pktBuff (20 + (c.off j + i)) = payload (c.off j + i))
    (htotal : c.n - 1 ∈ arrived → s'.totalLen = UInt16.ofNat c.size) :
    s'.totalLen.toNat = c.size ∧ ∀ i < c.size, s'.pktBuff (20 + i) = payload i := by
  have hn := c.pieces
  have hbound := c.bound
  constructor
  · rw [htotal (hall _ (by omega)), UInt16.toNat_ofNat', Cutting.size, Nat.mod_eq_of_lt (by omega)]
  · intro i hi
    obtain ⟨k, hk, hlo, hhi⟩ := c.piece_of (Nat.le_refl _) hi
    have hlen : i - c.off k < c.len k := by
      rw [Cutting.len]
      omega
    have heq : c.off k + (i - c.off k) = i := by omega
    have := hdata k (hall k hk) (i - c.off k) hlen
    rw [heq] at this
    exact this

/-- Good order is enough: by induction on the pieces still to come. -/
theorem Partway.assembles (hfrag : ∀ k < c.n, HoldsPiece c id payload k (frag k))
    (h : Partway c id payload arrived gs s)
    (hperm : (arrived ++ rest).Perm (List.range c.n)) (hne : rest ≠ [])
    (hgood : ∀ front k back, rest = front ++ k :: back → ¬ Misplaced c (arrived ++ front) k) :
    Assembles payload c.size s (rest.map frag) := by
  induction rest generalizing arrived gs s with
  | nil => exact absurd rfl hne
  | cons k rest ih =>
    obtain ⟨hkn, hk, hkrest, -⟩ := not_arrived hperm
    have hd := hfrag k hkn
    have hnow : ¬ Misplaced c arrived k := by simpa using hgood [] k rest rfl
    obtain ⟨s', gs', hadd, hgaps, hpart, hdata, htotal⟩ := h.put hd hkn hk hnow
    rw [List.map_cons, Assembles.cons_iff ((h.assembling.assemble hd hkn).trans hadd)]
    cases rest with
    | nil =>
      have hall : ∀ i < c.n, i ∈ arrived ++ [k] := by
        intro i hi
        simpa using arrived_or_coming hperm hi
      obtain ⟨hlen, hbytes⟩ := whole_payload hall hdata htotal
      have hnil : gs' = [] := by
        rw [hgaps.nil_iff]
        intro i hi
        exact hi.2 (hall i hi.1)
      left
      rw [if_pos hnil, hlen]
      exact ⟨rfl, rfl, hbytes⟩
    | cons j rest =>
      have hne' : gs' ≠ [] := by
        intro hnil
        apply hgaps.nil_iff.mp hnil j
        have hj : j < c.n := List.mem_range.mp (hperm.mem_iff.mp (by simp))
        refine ⟨hj, ?_⟩
        have hperm' : ((arrived ++ [k]) ++ j :: rest).Perm (List.range c.n) := by simpa using hperm
        exact (not_arrived hperm').2.1
      right
      rw [if_neg hne']
      refine ⟨by simp, rfl, ih (hpart hne') (by simpa using hperm) (by simp) ?_⟩
      intro front i back heq
      have := hgood (k :: front) i back (by rw [heq]; rfl)
      simpa using this

/-- An empty last piece behind one that is there never gets in. -/
theorem Partway.not_empty_last (hfrag : ∀ k < c.n, HoldsPiece c id payload k (frag k))
    (h : Partway c id payload arrived gs s)
    (hperm : (arrived ++ k :: rest).Perm (List.range c.n)) (hlast : k + 1 = c.n)
    (hlen : c.len k = 0) {j : Nat} (hj : j ∈ arrived) (hjk : j + 1 = k) :
    ¬ Assembles payload c.size s ((k :: rest).map frag) := by
  obtain ⟨hkn, hk, hkrest, hnodup⟩ := not_arrived hperm
  obtain ⟨pre, g, post, rfl, hin⟩ := h.assembling.gaps.find ⟨hkn, hk⟩
  have hfirst : g.first = k := by
    by_contra hne
    have hlo := hin.1
    have hhi := hin.2
    have hmiss := h.assembling.gaps.missing_of (k := j) (g := g) (by simp)
      ⟨by omega, by omega⟩
    exact hmiss.2 hj
  have hadd : addFragment s (frag k).ip (frag k).avail (c.info k) = .ok (s, none) :=
    h.assembling.dropped_empty hin hfirst hlen
  intro hc
  rw [List.map_cons,
    Assembles.cons_iff ((h.assembling.assemble (hfrag k hkn) hkn).trans hadd)] at hc
  rcases hc with ⟨-, hr, -⟩ | ⟨-, -, hc⟩
  · cases hr
  · have hopeless : Hopeless c id payload (fun i => i < c.n ∧ i ∉ arrived) (pre ++ g :: post) s
        rest := by
      refine ⟨h.assembling, by simp, ?_, hnodup, Or.inr ?_⟩
      · intro i hi
        have hcoming := coming hperm hi
        exact ⟨hcoming.1, Or.inl hcoming⟩
      · have heq : c.n - 1 = k := by omega
        rw [heq]
        exact ⟨⟨hkn, hk⟩, hkrest⟩
    exact hopeless.not_assembles hfrag hc

/-- The piece that ends the first run is at the front of its gap, and the gap of
piece 0 is the one in front. -/
theorem Partway.first_run (h : Partway c id payload arrived (pre ++ g :: post) s)
    (hin : g.Within k) {m : Nat} (hm : 0 < m) (hmk : m < k)
    (hrun : ∀ i < k, (i ∈ arrived ↔ m ≤ i)) : g.first = k ∧ ∃ b, pre = [b] ∧ b.first = 0 := by
  have gaps := h.assembling.gaps
  obtain ⟨hn, hkn⟩ := h.assembling.last_le hin
  obtain ⟨hlo, hhi⟩ := hin
  obtain ⟨hpre, hg, hpost, -⟩ := gaps.sides
  have hfirst : g.first = k := by
    by_contra hne
    have hmiss := gaps.missing_of (k := k - 1) (g := g) (by simp) ⟨by omega, by omega⟩
    exact hmiss.2 ((hrun (k - 1) (by omega)).mpr (by omega))
  refine ⟨hfirst, ?_⟩
  have hzero : 0 ∉ arrived := by
    intro h0
    have := (hrun 0 (by omega)).mp h0
    omega
  obtain ⟨b, hb, hb1, hb2⟩ := (gaps.covers 0).mp ⟨by omega, hzero⟩
  have hbpre : b ∈ pre := by
    rcases List.mem_append.mp hb with hb | hb
    · exact hb
    · rcases List.mem_cons.mp hb with heq | hb
      · rw [heq] at hb1
        omega
      · have := hpost b hb
        omega
  obtain ⟨front, back, rfl⟩ := List.append_of_mem hbpre
  have hfront : front = [] := by
    apply List.eq_nil_iff_forall_not_mem.mpr
    intro a ha
    have hgaps : Gaps (fun i => i < c.n ∧ i ∉ arrived) (front ++ b :: (back ++ g :: post)) := by
      simpa using gaps
    have := hgaps.sides.1 a ha
    omega
  have hback : back = [] := by
    cases back with
    | nil => rfl
    | cons a back =>
      -- the run begins between the two gaps, so that the second is part of it
      have hgaps : Gaps (fun i => i < c.n ∧ i ∉ arrived)
          (front ++ b :: a :: (back ++ g :: post)) := by
        simpa using gaps
      have ha := hpre a (by simp)
      have hba := (hgaps.sides.2.2.1 a (by simp)).1
      have hmiss := hgaps.missing_first (g := a) (by simp)
      have hend : b.last ∈ arrived := by
        by_contra hnot
        exact hgaps.not_missing_between (Nat.le_refl _) hba ⟨by omega, hnot⟩
      have hmb := (hrun b.last (by omega)).mp hend
      exact absurd ((hrun a.first (by omega)).mpr (by omega)) hmiss.2
  rw [hfront, hback]
  exact ⟨b, rfl, by omega⟩

/-- The end of the first run unlinks the hole of piece 0. -/
theorem Partway.hopeless (h : Partway c id payload arrived (pre ++ g :: post) s)
    (hin : g.Within k) {m : Nat} (hm : 0 < m) (hmk : m < k)
    (hrun : ∀ i < k, (i ∈ arrived ↔ m ≤ i)) (hp : payload 4 ≠ 0)
    (hperm : (arrived ++ k :: rest).Perm (List.range c.n)) {s' : Defrag} {ip : Buf}
    (hadd : Added s s' ip (c.info k) (c.len k) (c.hole g).first
      ((gapsAfter pre g post k).map c.hole))
    (hwf : HolesWf ((gapsAfter pre g post k).map c.hole))
    (hne : gapsAfter pre g post k ≠ []) :
    ∃ missing', Hopeless c id payload missing' (gapsAfter pre g post k) s' rest := by
  have a := h.assembling
  obtain ⟨hkn, hk, hkrest, hnodup⟩ := not_arrived hperm
  obtain ⟨hfirst, b, hpre, hb⟩ := h.first_run hin hm hmk hrun
  obtain ⟨missing', hgaps, hsub, -, hleft⟩ := gaps_after a.gaps hin
  have hpieces : ∀ i, missing' i → i < c.n := fun i hi => (hsub i hi).1.1
  have hafter : gapsAfter pre g post k = g.cut k ++ post := by
    rw [gapsAfter, hpre, if_pos ⟨hfirst.symm, by simpa [frontFirst] using hb⟩, List.nil_append]
  have hpos : ∀ x ∈ gapsAfter pre g post k, 0 < x.first := by
    intro x hx
    rw [hafter] at hx
    rcases List.mem_append.mp hx with hx | hx
    · rcases Gap.mem_cut hx with ⟨heq, -⟩ | ⟨heq, -⟩
      · rw [heq]
        simp only
        omega
      · rw [heq]
        exact Nat.succ_pos k
    · have := a.gaps.sides.2.2.1 x hx
      omega
  refine ⟨missing', a.next hadd hwf hne hkn hgaps hpieces, hne, ?_, hnodup, Or.inl ⟨hpos, ?_, hp⟩⟩
  · intro i hi
    have hcoming := coming hperm hi
    refine ⟨hcoming.1, hleft i hcoming ?_⟩
    intro heq
    exact hkrest (heq ▸ hi)
  · -- the descriptor of piece 0 says that nothing is in front of it
    have hlisted := a.listed
    have hzero : (c.hole b).first = 0 := by
      rw [Cutting.hole, hb, c.start]
    have halone : Listed s ([] ++ c.hole b :: (g :: post).map c.hole) := by
      rw [hpre] at hlisted
      exact hlisted
    have hprev := halone.around.2.1
    rw [hzero, prevHole, load16_toNat] at hprev
    have hbyte : (s.pktBuff 24).toNat = 0 := by
      have : holeAt 0 + 4 = 24 := rfl
      rw [this] at hprev
      have hfront : frontIdx [] = 0 := rfl
      omega
    rw [hadd.front hin hkn (by omega) ?_ (by decide) (by decide)]
    · exact UInt8.toNat_inj.mp hbyte
    · intro x hx
      exact ⟨hpos x hx, hpieces _ (hgaps.missing_first hx)⟩

theorem Partway.not_misplaced (hfrag : ∀ k < c.n, HoldsPiece c id payload k (frag k))
    (h : Partway c id payload arrived gs s) (hp : payload 4 ≠ 0)
    (hperm : (arrived ++ k :: rest).Perm (List.range c.n))
    (hc : Assembles payload c.size s ((k :: rest).map frag)) : ¬ Misplaced c arrived k := by
  obtain ⟨hkn, hk, hkrest, -⟩ := not_arrived hperm
  have a := h.assembling
  have hd := hfrag k hkn
  have heq := a.assemble hd hkn
  have hempty : ∀ j ∈ arrived, j + 1 = k → k + 1 = c.n → c.len k = 0 → False :=
    fun j hj hjk hlast hlen => h.not_empty_last hfrag hperm hlast hlen hj hjk hc
  obtain ⟨pre, g, post, rfl, hin⟩ := a.gaps.find ⟨hkn, hk⟩
  have hout : ¬ (k + 1 < g.last ∧ c.off (k + 1) = 16360) := by
    intro hout
    have hadd := a.put_outside (frag k).ip (frag k).avail hin hout.1 hout.2
    exact not_assembles_of_error (heq.trans hadd) hc
  rintro (⟨m, hm, hmk, hrun⟩ | ⟨hlast, hnot, hoff⟩ | ⟨hlast, hlen, j, hj, hjk⟩)
  · have hover : g.first < k ∨ 0 < c.len k := by
      right
      by_contra hlen
      have hk1 := c.last_of_empty hkn (by omega)
      exact hempty (k - 1) ((hrun (k - 1) (by omega)).mpr (by omega)) (by omega) hk1 (by omega)
    obtain ⟨s', hadd, hadded, hwf⟩ := a.put (frag k).ip hin hover
      (fun hlt hoff => hout ⟨hlt, hoff⟩) hd.whole
    have hzero : 0 ∈ rest := by
      have h0 : 0 ∉ arrived := by
        intro h0
        have := (hrun 0 (by omega)).mp h0
        omega
      have hk0 : 0 ≠ k := by omega
      have := arrived_or_coming hperm c.pieces
      simpa [h0, hk0] using this
    rw [List.map_cons, Assembles.cons_iff (heq.trans hadd)] at hc
    rcases hc with ⟨hnil, -, -⟩ | ⟨-, hr, hc⟩
    · rw [List.map_eq_nil_iff.mp hnil] at hzero
      cases hzero
    · by_cases hnil : gapsAfter pre g post k = []
      · rw [if_pos hnil] at hr
        cases hr
      · obtain ⟨missing', hopeless⟩ := h.hopeless hin hm hmk hrun hp hperm hadded hwf hnil
        exact hopeless.not_assembles hfrag hc
  · apply hout
    refine ⟨?_, hoff⟩
    have hlo := hin.1
    have hhi := hin.2
    have hwithin := a.gaps.within_of_missing (k := k + 1) ⟨by omega, hnot⟩ (by omega) (by omega)
    exact hwithin.2
  · exact hempty j hj hjk hlast hlen

/-- Good order is needed: the first piece out of place leaves the packet hopeless. -/
theorem Partway.in_good_order (hfrag : ∀ k < c.n, HoldsPiece c id payload k (frag k))
    (h : Partway c id payload arrived gs s) (hp : payload 4 ≠ 0)
    (hperm : (arrived ++ rest).Perm (List.range c.n))
    (hc : Assembles payload c.size s (rest.map frag)) :
    ∀ front k back, rest = front ++ k :: back → ¬ Misplaced c (arrived ++ front) k := by
  induction rest generalizing arrived gs s with
  | nil => exact fun _ => False.elim hc
  | cons k rest ih =>
    obtain ⟨hkn, hk, -, -⟩ := not_arrived hperm
    have hd := hfrag k hkn
    have hnow := h.not_misplaced hfrag hp hperm hc
    obtain ⟨s', gs', hadd, hgaps, hpart, -⟩ := h.put hd hkn hk hnow
    rw [List.map_cons, Assembles.cons_iff ((h.assembling.assemble hd hkn).trans hadd)] at hc
    intro front j back heq
    cases front with
    | nil =>
      obtain ⟨rfl, -⟩ := List.cons.inj heq
      simpa using hnow
    | cons i front =>
      obtain ⟨rfl, hrest⟩ := List.cons.inj heq
      rcases hc with ⟨hnil, -⟩ | ⟨-, hr, hc⟩
      · rw [List.map_eq_nil_iff.mp hnil] at hrest
        simp at hrest
      · by_cases hnil : gs' = []
        · rw [if_pos hnil] at hr
          cases hr
        · have := ih (hpart hnil) (by simpa using hperm) hc front j back hrest
          simpa using this

end Partway

section Order
variable {c : Cutting} {id : UInt16} {payload : Buf} {order : List Nat} {s : Defrag}
  {frag : Nat → Datagram}

/-- The first fragment finds an empty packet. -/
theorem begun (hfrag : ∀ k < c.n, HoldsPiece c id payload k (frag k))
    (horder : order.Perm (List.range c.n)) (hs : s.totalLen = 0 ∨ load16 s.pktBuff 4 ≠ id) :
    ∃ s', Partway c id payload [] [⟨0, c.n⟩] s' ∧
      (Assembles payload c.size s (order.map frag) ↔
        Assembles payload c.size s' (order.map frag)) := by
  cases order with
  | nil =>
    have := horder.length_eq
    have hn := c.pieces
    simp only [List.length_nil, List.length_range] at this
    omega
  | cons k rest =>
    have hkn : k < c.n := List.mem_range.mp (horder.mem_iff.mp List.mem_cons_self)
    have hd := hfrag k hkn
    have a := assembling_reset c hd s
    have hstart : Assembling c id (fun i => i < c.n ∧ i ∉ []) [⟨0, c.n⟩]
        (resetPacket s (frag k).ip) :=
      ⟨a.gaps.congr (by simp), fun i hi => hi.1, a.wf, a.listed, a.id, a.total⟩
    refine ⟨resetPacket s (frag k).ip, ⟨hstart, by simp, by simp, by simp⟩, ?_⟩
    have hnew := assemble_new hd hkn hs
    rw [List.map_cons]
    cases rest.map frag with
    | nil => rw [Assembles, Assembles, hnew]
    | cons e ds => rw [Assembles, Assembles, hnew]

theorem assembles_of_inGoodOrder (hfrag : ∀ k < c.n, HoldsPiece c id payload k (frag k))
    (horder : order.Perm (List.range c.n)) (hs : s.totalLen = 0 ∨ load16 s.pktBuff 4 ≠ id)
    (hgood : InGoodOrder c order) : Assembles payload c.size s (order.map frag) := by
  obtain ⟨s', h, hiff⟩ := begun hfrag horder hs
  have hne : order ≠ [] := by
    intro hnil
    have := horder.length_eq
    have hn := c.pieces
    rw [hnil, List.length_nil, List.length_range] at this
    omega
  rw [hiff]
  exact h.assembles hfrag horder hne hgood

/-- A byte 4 that is not 0 shows that piece 0 was unlinked. -/
theorem inGoodOrder_of_assembles (hfrag : ∀ k < c.n, HoldsPiece c id payload k (frag k))
    (horder : order.Perm (List.range c.n)) (hs : s.totalLen = 0 ∨ load16 s.pktBuff 4 ≠ id)
    (hp : payload 4 ≠ 0) (hc : Assembles payload c.size s (order.map frag)) :
    InGoodOrder c order := by
  obtain ⟨s', h, hiff⟩ := begun hfrag horder hs
  exact h.in_good_order hfrag hp horder (hiff.mp hc)

end Order

theorem fragment_field {o : Nat} (ho : o < 8192) (more : Bool) :
    (o + if more then 0x2000 else 0) &&& 0x1fff = o ∧
      ((o + if more then 0x2000 else 0) &&& 0x2000 != 0) = more := by
  have hand : ∀ x : Nat, x &&& 0x1fff = x % 8192 := fun x => Nat.and_two_pow_sub_one_eq_mod x 13
  have hbit : ∀ x : Nat, x &&& 0x2000 = (x.testBit 13).toNat * 8192 := fun x => Nat.and_two_pow x 13
  rw [hand, hbit, Nat.testBit_eq_decide_div_mod_eq]
  cases more with
  | true =>
    have hdiv : (o + 8192) / 2 ^ 13 % 2 = 1 := by omega
    rw [if_pos rfl, hdiv]
    exact ⟨by omega, rfl⟩
  | false =>
    have hdiv : (o + 0) / 2 ^ 13 % 2 = 0 := by omega
    rw [if_neg (by decide), hdiv]
    exact ⟨by omega, rfl⟩

def fragmentOf (c : Cutting) (id : UInt16) (payload : Buf) (k : Nat) : Datagram where
  ip :=
    let b := store16 (fun _ => 0) 2 (htons (20 + c.len k))
    let b := store16 b 4 id
    let b := store16 b 6 (htons (c.off k / 8 + if k + 1 < c.n then 0x2000 else 0))
    copy b 20 payload (c.off k) (c.len k)
  avail := 20 + c.len k

theorem holdsPiece_fragmentOf (c : Cutting) (id : UInt16) (payload : Buf) {k : Nat} (hk : k < c.n) :
    HoldsPiece c id payload k (fragmentOf c id payload k) := by
  have hadd := c.off_add_len hk
  have hkn1 : k + 1 ≤ c.n := by omega
  have hbound := c.off_bound hkn1
  have hblocks : c.off k / 8 < 8192 := by omega
  obtain ⟨hoff, hmore⟩ := fragment_field hblocks (decide (k + 1 < c.n))
  simp only [decide_eq_true_eq] at hoff hmore
  have hlen : ntohs (load16 (fragmentOf c id payload k).ip 2) = 20 + c.len k := by
    simp (disch := omega) only [fragmentOf, load16_patch_off, load16_store16]
    exact ntohs_htons (by omega)
  have hfield : ntohs (load16 (fragmentOf c id payload k).ip 6) =
      c.off k / 8 + if k + 1 < c.n then 0x2000 else 0 := by
    simp (disch := omega) only [fragmentOf, load16_patch_off, load16_store16]
    apply ntohs_htons
    split
    · omega
    · omega
  refine ⟨?_, ?_, Nat.le_refl _, ?_⟩
  · simp (disch := omega) only [fragmentOf, load16_patch_off, load16_store16]
  · rw [fragInfo, hfield, hoff, hmore, hlen, lenMinus_eq (by omega) (by omega) (by decide)]
    simp only [Cutting.info, FragInfo.mk.injEq, and_true, true_and]
    omega
  · intro i hi
    simp only [fragmentOf, patch]
    rw [if_pos (by omega), Nat.add_sub_cancel_left]

/-- For a payload under a new `ip_id`, in any pieces: whatever its bytes, it is
assembled from fragments that arrive in an order exactly when the order is good. -/
theorem reassembly_iff (c : Cutting) (id : UInt16) (order : List Nat)
    (horder : order.Perm (List.range c.n)) (s : Defrag)
    (hs : s.totalLen = 0 ∨ load16 s.pktBuff 4 ≠ id) :
    (∀ (payload : Buf) (frag : Nat → Datagram), (∀ k < c.n, HoldsPiece c id payload k (frag k)) →
        Assembles payload c.size s (order.map frag)) ↔ InGoodOrder c order := by
  constructor
  · intro h
    have hfrag : ∀ k < c.n, HoldsPiece c id (fun _ => 1) k (fragmentOf c id (fun _ => 1) k) :=
      fun k hk => holdsPiece_fragmentOf c id _ hk
    exact inGoodOrder_of_assembles hfrag horder hs (by decide) (h _ _ hfrag)
  · intro hgood payload frag hfrag
    exact assembles_of_inGoodOrder hfrag horder hs hgood

def threePieces : Cutting where
  n := 3
  off := fun k => if k = 3 then 21 else 8 * k
  pieces := by decide
  start := rfl
  grows := by
    intro k hk
    split
    · omega
    · split
      · omega
      · omega
  blocks := by
    intro k hk
    split
    · omega
    · omega
  rest := by decide
  nonempty := by decide
  bound := by decide

theorem threePieces_backwards : InGoodOrder threePieces [2, 0, 1] := by
  intro arrived k rest h hbad
  rcases arrived with _ | ⟨a, _ | ⟨b, _ | ⟨d, l⟩⟩⟩
  · simp only [List.nil_append, List.cons.injEq] at h
    obtain ⟨rfl, -⟩ := h
    rcases hbad with ⟨m, hm, hmk, hrun⟩ | ⟨hk, -⟩ | ⟨-, -, j, hj, -⟩
    · have := (hrun 1 (by decide)).mpr (by omega)
      cases this
    · cases hk
    · cases hj
  · simp only [List.cons_append, List.nil_append, List.cons.injEq] at h
    obtain ⟨rfl, rfl, -⟩ := h
    rcases hbad with ⟨m, hm, hmk, -⟩ | ⟨hk, -⟩ | ⟨hk, -⟩
    · omega
    · cases hk
    · cases hk
  · simp only [List.cons_append, List.nil_append, List.cons.injEq] at h
    obtain ⟨rfl, rfl, rfl, -⟩ := h
    rcases hbad with ⟨m, hm, hmk, -⟩ | ⟨-, hnot, -⟩ | ⟨hk, -⟩
    · omega
    · exact hnot (by decide)
    · cases hk
  · simp at h

/-- The last piece first. -/
theorem reassembly_iff_backwards :
    Assembles (fun i => UInt8.ofNat i) 21 .initial
      ([2, 0, 1].map (fragmentOf threePieces 7 (fun i => UInt8.ofNat i))) :=
  (reassembly_iff threePieces 7 [2, 0, 1] (by decide) .initial (Or.inl rfl)).mpr
    threePieces_backwards _ _ (fun _ hk => holdsPiece_fragmentOf threePieces 7 _ hk)

/-- The first piece last: the second fragment already completes the packet. -/
theorem reassembly_out_of_order :
    ¬ ∀ (c : Cutting) (id : UInt16) (order : List Nat) (s : Defrag) (payload : Buf)
      (frag : Nat → Datagram), order.Perm (List.range c.n) →
      (s.totalLen = 0 ∨ load16 s.pktBuff 4 ≠ id) →
      (∀ k < c.n, HoldsPiece c id payload k (frag k)) →
      Assembles payload c.size s (order.map frag) := by
  intro h
  have hfrag : ∀ k < threePieces.n,
      HoldsPiece threePieces 7 (fun _ => 1) k (fragmentOf threePieces 7 (fun _ => 1) k) :=
    fun k hk => holdsPiece_fragmentOf threePieces 7 _ hk
  have hperm : [1, 2, 0].Perm (List.range threePieces.n) := by decide
  have hassembles := h threePieces 7 [1, 2, 0] .initial _ _ hperm (Or.inl rfl) hfrag
  have hgood := inGoodOrder_of_assembles hfrag hperm (Or.inl rfl) (by decide) hassembles
  apply hgood [1] 2 [0] rfl
  refine Or.inl ⟨1, by decide, by decide, ?_⟩
  intro i hi
  have hcases : i = 0 ∨ i = 1 := by omega
  rcases hcases with rfl | rfl
  · decide
  · decide

end EmacDriver
