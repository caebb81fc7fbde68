import EmacDriver.Lib.Gaps
import EmacDriver.Proofs.DefragStep

namespace EmacDriver
open Bytes

/-- A payload of 1 to `IP_MAXUDP` bytes in `n` pieces, the piece `k` from `off k`
on: all but the last a positive multiple of eight bytes. -/
structure Cutting where
  n : Nat
  off : Nat → Nat
  pieces : 0 < n
  start : off 0 = 0
  grows : ∀ k, k + 1 < n → off k < off (k + 1)
  blocks : ∀ k < n, off k % 8 = 0
  rest : off (n - 1) ≤ off n
  nonempty : 0 < off n
  bound : off n ≤ 16364

def Cutting.size (c : Cutting) : Nat := c.off c.n

def Cutting.len (c : Cutting) (k : Nat) : Nat := c.off (k + 1) - c.off k

def Cutting.info (c : Cutting) (k : Nat) : FragInfo :=
  ⟨c.off k / 8, c.len k, decide (k + 1 < c.n)⟩

section Info
variable (c : Cutting) (k : Nat)

@[simp] theorem Cutting.info_offset8 : (c.info k).offset8 = c.off k / 8 := rfl
@[simp] theorem Cutting.info_len : (c.info k).len = c.len k := rfl
@[simp] theorem Cutting.info_more : (c.info k).more = decide (k + 1 < c.n) := rfl

theorem Cutting.info_blocks : ((c.info k).len + 7).tdiv 8 = ((c.len k + 7) / 8 : Nat) := rfl

end Info

/-- The hole of the missing pieces; it has no end yet while the last is missing. -/
def Cutting.hole (c : Cutting) (g : Gap) : Hole :=
  ⟨c.off g.first / 8, if g.last = c.n then 65535 else c.off g.last⟩

@[simp] theorem Cutting.hole_first (c : Cutting) (g : Gap) :
    (c.hole g).first = c.off g.first / 8 := rfl

section Cutting
variable (c : Cutting) {i j k : Nat} {g : Gap}

theorem Cutting.off_lt (hij : i < j) (hj : j < c.n) : c.off i < c.off j := by
  induction j with
  | zero => omega
  | succ j ih =>
    have hstep := c.grows j hj
    rcases Nat.lt_succ_iff_lt_or_eq.mp hij with hlt | heq
    · exact Nat.lt_trans (ih hlt (by omega)) hstep
    · rw [heq]
      exact hstep

theorem Cutting.off_le (hij : i ≤ j) (hj : j ≤ c.n) : c.off i ≤ c.off j := by
  have hlow : ∀ {a b : Nat}, a ≤ b → b < c.n → c.off a ≤ c.off b := by
    intro a b hab hb
    rcases Nat.lt_or_eq_of_le hab with hlt | heq
    · exact Nat.le_of_lt (c.off_lt hlt hb)
    · rw [heq]
  rcases Nat.lt_or_eq_of_le hj with hlt | heq
  · exact hlow hij hlt
  · rcases Nat.lt_or_eq_of_le hij with hlt | heq'
    · have hpos := c.pieces
      have := hlow (a := i) (b := c.n - 1) (by omega) (by omega)
      rw [heq]
      exact Nat.le_trans this c.rest
    · rw [heq']

/-- Every piece begins where `pkt_buff` has room for it. -/
theorem Cutting.off_bound (hk : k ≤ c.n) : c.off k ≤ 16364 :=
  Nat.le_trans (c.off_le hk (Nat.le_refl _)) c.bound

/-- The offset of a piece counts whole blocks. -/
theorem Cutting.off_div (hk : k < c.n) : 8 * (c.off k / 8) = c.off k := by
  have := c.blocks k hk
  omega

theorem Cutting.off_add_len (hk : k < c.n) : c.off k + c.len k = c.off (k + 1) := by
  have hle : c.off k ≤ c.off (k + 1) := c.off_le (Nat.le_succ k) hk
  rw [Cutting.len]
  omega

/-- A piece that another one follows is not empty. -/
theorem Cutting.len_pos (hk : k + 1 < c.n) : 8 ≤ c.len k ∧ c.len k % 8 = 0 := by
  have hlt := c.grows k hk
  have h0 := c.blocks k (by omega)
  have h1 := c.blocks (k + 1) hk
  rw [Cutting.len]
  omega

theorem Cutting.last_of_empty (hk : k < c.n) (hlen : c.len k = 0) : k + 1 = c.n := by
  by_contra hne
  have hk1 : k + 1 < c.n := by omega
  have := c.len_pos hk1
  omega

/-- A byte of the payload is in one of the pieces. -/
theorem Cutting.piece_of {i m : Nat} (hm : m ≤ c.n) (hi : i < c.off m) :
    ∃ k < m, c.off k ≤ i ∧ i < c.off (k + 1) := by
  induction m with
  | zero =>
    rw [c.start] at hi
    omega
  | succ m ih =>
    by_cases hlt : i < c.off m
    · obtain ⟨k, hk, hin⟩ := ih (by omega) hlt
      exact ⟨k, by omega, hin⟩
    · exact ⟨m, by omega, by omega, hi⟩

theorem Cutting.hole_last (hg : g.first < g.last) (hn : g.last ≤ c.n) :
    c.off g.first ≤ c.off g.last ∧ c.off g.last ≤ (c.hole g).last ∧ (c.hole g).last < 65536 := by
  have hle := c.off_le (Nat.le_of_lt hg) hn
  have := c.off_bound hn
  refine ⟨hle, ?_⟩
  rw [Cutting.hole]
  split
  · simp only
    omega
  · simp only
    omega

end Cutting

/-- The first missing piece of the last gap, 0 when there is none. -/
def frontFirst (pre : List Gap) : Nat := (pre.map Gap.first).getLastD 0

def gapsAfter (pre : List Gap) (g : Gap) (post : List Gap) (k : Nat) : List Gap :=
  (if k = g.first ∧ frontFirst pre = 0 then [] else pre) ++ (g.cut k ++ post)

structure Assembling (c : Cutting) (id : UInt16) (missing : Nat → Prop) (gs : List Gap)
    (s : Defrag) : Prop where
  gaps : Gaps missing gs
  pieces : ∀ k, missing k → k < c.n
  wf : HolesWf (gs.map c.hole)
  listed : Listed s (gs.map c.hole)
  id : load16 s.pktBuff 4 = id
  total : s.totalLen ≠ 0

section Gaps
variable {c : Cutting} {missing : Nat → Prop} {pre post : List Gap} {g : Gap} {k : Nat}

/-- The gaps around the one of a missing piece, all among the pieces. -/
theorem gap_last_le (hg : Gaps missing (pre ++ g :: post)) (hm : ∀ k, missing k → k < c.n) :
    ∀ a ∈ pre ++ g :: post, a.last ≤ c.n := by
  intro a ha
  have hlt := hg.proper a ha
  have hend : missing (a.last - 1) :=
    hg.missing_of ha ⟨by omega, by omega⟩
  have := hm _ hend
  omega

/-- The index of the neighbour in front is 0 when its gap begins with piece 0. -/
theorem frontIdx_eq_zero (hn : ∀ a ∈ pre, a.first < c.n) :
    frontIdx (pre.map c.hole) = 0 ↔ frontFirst pre = 0 := by
  have hidx : indices (pre.map c.hole) = (pre.map Gap.first).map (fun i => c.off i / 8) := by
    simp [indices, Cutting.hole, Function.comp_def]
  rw [frontIdx, frontFirst, hidx]
  rcases List.eq_nil_or_concat pre with hnil | ⟨front, a, hpre⟩
  · rw [hnil]
    simp
  · rw [hpre]
    have ha : a.first < c.n := hn a (by simp [hpre])
    simp only [List.concat_eq_append, List.map_append, List.map_cons, List.map_nil,
      List.getLastD_concat]
    have hdiv := c.off_div ha
    constructor
    · intro h0
      by_contra hne
      have := c.off_lt (Nat.pos_of_ne_zero hne) ha
      omega
    · intro h0
      rw [h0, c.start]

/-- No gap comes to begin further in front. -/
theorem mem_gapsAfter {b : Gap} (hk : g.Within k) (hb : b ∈ gapsAfter pre g post k) :
    ∃ a ∈ pre ++ g :: post, a.first ≤ b.first := by
  rw [gapsAfter] at hb
  rcases List.mem_append.mp hb with hb | hb
  · have hpre : b ∈ pre := by
      split at hb
      · cases hb
      · exact hb
    exact ⟨b, by simp [hpre], Nat.le_refl _⟩
  · rcases List.mem_append.mp hb with hb | hb
    · refine ⟨g, by simp, ?_⟩
      have hlo := hk.1
      rcases Gap.mem_cut hb with ⟨heq, -⟩ | ⟨heq, -⟩
      · rw [heq]
      · rw [heq]
        exact Nat.le_succ_of_le hlo
    · exact ⟨b, by simp [hb], Nat.le_refl _⟩

/-- The gaps that are left, and what they have of what was missing. -/
theorem gaps_after (hg : Gaps missing (pre ++ g :: post)) (hk : g.Within k) :
    ∃ missing', Gaps missing' (gapsAfter pre g post k) ∧
      (∀ i, missing' i → missing i ∧ i ≠ k) ∧
      (∀ i, missing i → i ≠ k → g.first ≤ i → missing' i) ∧
      ∀ i, missing i → i ≠ k → missing' i ∨ ∀ b ∈ gapsAfter pre g post k, i < b.first := by
  rw [gapsAfter]
  by_cases hlost : k = g.first ∧ frontFirst pre = 0
  · rw [if_pos hlost, List.nil_append]
    have hbehind : Gaps (fun i => missing i ∧ g.first ≤ i) ([] ++ g :: post) := hg.behind
    have hcut := hbehind.cut hk
    refine ⟨_, hcut, fun i hi => ⟨hi.1.1, hi.2⟩, fun i hi hne hle => ⟨⟨hi, hle⟩, hne⟩, ?_⟩
    intro i hi hne
    by_cases hle : g.first ≤ i
    · exact Or.inl ⟨⟨hi, hle⟩, hne⟩
    · right
      intro b hb
      have := (hcut.missing_first hb).1.2
      omega
  · rw [if_neg hlost]
    exact ⟨_, hg.cut hk, fun i hi => hi, fun i hi hne _ => ⟨hi, hne⟩,
      fun i hi hne => Or.inl ⟨hi, hne⟩⟩

/-- A missing piece and the gap that it lies in, in bytes. -/
theorem gap_within_off (hg : Gaps missing (pre ++ g :: post)) (hm : ∀ k, missing k → k < c.n)
    (hk : g.Within k) :
    (c.off k / 8 ≤ (c.hole g).first ↔ k = g.first) ∧
      ((if k + 1 < c.n then (c.hole g).last else c.off (k + 1)) ≤ c.off (k + 1) ↔
        ¬ k + 1 < g.last) := by
  obtain ⟨hlo, hhi⟩ := hk
  have hn : g.last ≤ c.n := gap_last_le hg hm g (by simp)
  have hkn : k < c.n := by omega
  have hdiv := c.off_div hkn
  have hgn : g.first < c.n := by omega
  have hfdiv := c.off_div hgn
  constructor
  · constructor
    · intro hle
      by_contra hne
      have hgk : g.first < k := by omega
      have := c.off_lt hgk hkn
      simp only [Cutting.hole] at hle
      omega
    · intro heq
      rw [heq]
      exact Nat.le_refl _
  · by_cases hmore : k + 1 < c.n
    · have hkn1 : k + 1 ≤ c.n := by omega
      have hbound := c.off_bound hkn1
      rw [if_pos hmore, Cutting.hole]
      by_cases hend : g.last = c.n
      · simp only [if_pos hend]
        omega
      · simp only [if_neg hend]
        constructor
        · intro hle hlt
          have := c.off_lt hlt (by omega)
          omega
        · intro hlt
          exact c.off_le (by omega) (by omega)
    · rw [if_neg hmore]
      simp only [Nat.le_refl, true_iff]
      omega

/-- Filling a hole cuts the piece out of its gap. -/
theorem fillHoles_gaps (hg : Gaps missing (pre ++ g :: post)) (hm : ∀ k, missing k → k < c.n)
    (hk : g.Within k) :
    fillHoles (pre.map c.hole) (c.hole g) (post.map c.hole) (c.off k / 8) (c.len k)
      (decide (k + 1 < c.n)) = (gapsAfter pre g post k).map c.hole := by
  obtain ⟨hfirst, hlast⟩ := gap_within_off hg hm hk
  obtain ⟨hlo, hhi⟩ := hk
  have hn : g.last ≤ c.n := gap_last_le hg hm g (by simp)
  have hkn : k < c.n := by omega
  have hdiv := c.off_div hkn
  have hlen : 8 * (c.off k / 8) + c.len k = c.off (k + 1) := by
    rw [hdiv]
    exact c.off_add_len hkn
  have hpre : ∀ a ∈ pre, a.first < c.n := by
    intro a ha
    have := hg.proper a (by simp [ha])
    have := gap_last_le hg hm a (by simp [ha])
    omega
  have hkept : keptFront (pre.map c.hole) =
      (if frontFirst pre = 0 then [] else pre).map c.hole := by
    rw [keptFront]
    by_cases hz : frontFirst pre = 0
    · rw [if_pos ((frontIdx_eq_zero hpre).mpr hz), if_pos hz]
      rfl
    · rw [if_neg (fun hc => hz ((frontIdx_eq_zero hpre).mp hc)), if_neg hz]
  have hshort : c.hole ⟨g.first, k⟩ = ⟨(c.hole g).first, 8 * (c.off k / 8)⟩ := by
    rw [Cutting.hole, Cutting.hole, if_neg (Nat.ne_of_lt hkn), hdiv]
  have hnew : k + 1 < g.last →
      c.hole ⟨k + 1, g.last⟩ = ⟨c.off k / 8 + c.len k / 8, (c.hole g).last⟩ := by
    intro hlt
    have hmod := (c.len_pos (k := k) (by omega)).2
    have hadd := c.off_add_len hkn
    have hsum : c.off (k + 1) / 8 = c.off k / 8 + c.len k / 8 := by omega
    rw [Cutting.hole, Cutting.hole, hsum]
  have hmore : k + 1 < g.last → k + 1 < c.n := fun h => by omega
  simp only [fillHoles, decide_eq_true_eq, hlen, hfirst, hlast, gapsAfter, Gap.cut]
  by_cases hf : k = g.first
  · have hnf : ¬ g.first < k := by omega
    have hfront : (if k = g.first ∧ frontFirst pre = 0 then [] else pre) =
        if frontFirst pre = 0 then [] else pre := by
      simp only [hf, true_and]
    rw [if_neg hnf, hfront]
    by_cases hl : k + 1 < g.last
    · rw [if_neg (fun hc => hc.2 hl), if_neg (not_not.mpr hl), if_pos hf, if_pos hl, hkept,
        if_pos (hmore hl), ← hnew hl]
      simp
    · rw [if_pos ⟨hf, hl⟩, if_neg hl, hkept]
      simp
  · have hlt : g.first < k := by omega
    have hfront : (if k = g.first ∧ frontFirst pre = 0 then [] else pre) = pre :=
      if_neg (fun hc => hf hc.1)
    rw [if_neg (fun hc => hf hc.1), if_pos hlt, ← hshort, hfront]
    by_cases hl : k + 1 < g.last
    · rw [if_neg (not_not.mpr hl), if_neg hf, if_pos hl, if_pos (hmore hl), ← hnew hl]
      simp
    · rw [if_pos hl, if_neg hl]
      simp

end Gaps

section Put
variable {c : Cutting} {id : UInt16} {missing missing' : Nat → Prop} {s s' : Defrag}
  {gs pre post : List Gap} {g : Gap} {k i : Nat} {ip : Buf} {avail : Nat} {l : List Hole}

theorem Assembling.last_le (a : Assembling c id missing (pre ++ g :: post) s)
    (hk : g.Within k) : g.last ≤ c.n ∧ k < c.n := by
  have hn := gap_last_le a.gaps a.pieces g (by simp)
  have := hk.2
  exact ⟨hn, by omega⟩

theorem Cutting.info_start (hk : k < c.n) : (c.info k).start = c.off k := c.off_div hk

/-- The hole of a missing piece is the one that its fragment is put into. -/
theorem Assembling.found (a : Assembling c id missing (pre ++ g :: post) s) (hk : g.Within k) :
    ((pre ++ g :: post).map c.hole).find? (fun h => decide ((c.info k).start ≤ h.last)) =
      some (c.hole g) := by
  obtain ⟨hn, hkn⟩ := a.last_le hk
  obtain ⟨hpre, hg, hpost, -⟩ := a.gaps.sides
  obtain ⟨hlo, hhi⟩ := hk
  rw [c.info_start hkn, List.find?_eq_some_iff_append]
  refine ⟨?_, pre.map c.hole, post.map c.hole, by simp, ?_⟩
  · have hle := c.off_le (Nat.le_of_lt hhi) hn
    have := (c.hole_last hg hn).2.1
    exact decide_eq_true (by omega)
  · intro h hh
    obtain ⟨b, hb, heq⟩ := List.mem_map.mp hh
    have hlt := hpre b hb
    have hbk : b.last < k := by omega
    have hoff := c.off_lt hbk hkn
    have hend : ¬ b.last = c.n := by omega
    rw [← heq, Cutting.hole, if_neg hend]
    simpa using hoff

/-- A missing piece can be put in, unless it is empty and behind one that is
there, or leaves a hole at the end of the buffer. -/
theorem Assembling.filling (a : Assembling c id missing (pre ++ g :: post) s) (hk : g.Within k)
    (hover : g.first < k ∨ 0 < c.len k) (hroom : k + 1 < g.last → c.off (k + 1) ≠ 16360) :
    Filling (pre.map c.hole) (c.hole g) (post.map c.hole) (c.off k / 8) (c.len k)
      (decide (k + 1 < c.n)) := by
  obtain ⟨hn, hkn⟩ := a.last_le hk
  obtain ⟨hpre, hg, hpost, -⟩ := a.gaps.sides
  obtain ⟨hlo, hhi⟩ := hk
  have hdiv := c.off_div hkn
  have hadd := c.off_add_len hkn
  refine ⟨?_, ?_, ?_, ?_, ?_⟩
  · intro h hh
    obtain ⟨b, hb, heq⟩ := List.mem_map.mp hh
    have hlt := hpre b hb
    have hbk : b.last < k := by omega
    have hoff := c.off_lt hbk hkn
    have hend : ¬ b.last = c.n := by omega
    rw [← heq, Cutting.hole, if_neg hend, hdiv]
    exact hoff
  · have hle := c.off_le (Nat.le_of_lt hhi) hn
    have := (c.hole_last hg hn).2.1
    omega
  · have hgn : g.first < c.n := by omega
    have hfdiv := c.off_div hgn
    rw [Cutting.hole_first]
    rcases hover with hlt | hpos
    · have := c.off_lt hlt hkn
      omega
    · have := c.off_le hlo (Nat.le_of_lt hkn)
      omega
  · intro h hh
    obtain ⟨b, hb, heq⟩ := List.mem_map.mp hh
    have hbn := gap_last_le a.gaps a.pieces b (by simp [hb])
    have hlt := hpost b hb
    have hkb : k + 1 ≤ b.first := by omega
    have hoff := c.off_le hkb (by omega)
    have hbfirst : b.first < c.n := by omega
    have hbdiv := c.off_div hbfirst
    rw [← heq, Cutting.hole_first]
    omega
  · intro hmore hend
    have hk1 : k + 1 < c.n := of_decide_eq_true hmore
    have hmod := (c.len_pos hk1).2
    have hb := c.blocks (k + 1) hk1
    have hle := c.off_bound (Nat.le_of_lt hk1)
    have hne : c.off (k + 1) ≠ 16360 := by
      apply hroom
      by_contra hnot
      have hlast := (gap_within_off a.gaps a.pieces ⟨hlo, hhi⟩).2.mpr hnot
      rw [if_pos hk1] at hlast
      omega
    omega

/-- A piece in its place: its gap is cut, and the last gap closed completes the packet. -/
theorem Assembling.put (ip : Buf) (a : Assembling c id missing (pre ++ g :: post) s)
    (hk : g.Within k)
    (hover : g.first < k ∨ 0 < c.len k) (hroom : k + 1 < g.last → c.off (k + 1) ≠ 16360)
    (havail : 20 + c.len k ≤ avail) :
    ∃ s', addFragment s ip avail (c.info k) =
        .ok (s', if gapsAfter pre g post k = [] then some (s'.totalLen.toNat + 20 : Int)
          else none) ∧
      Added s s' ip (c.info k) (c.len k) (c.hole g).first
        ((gapsAfter pre g post k).map c.hole) ∧
      HolesWf ((gapsAfter pre g post k).map c.hole) := by
  obtain ⟨hn, hkn⟩ := a.last_le hk
  have hfill := a.filling hk hover hroom
  have hgaps := fillHoles_gaps a.gaps a.pieces hk
  have hwf := a.wf
  have hlisted := a.listed
  have hfound := a.found hk
  rw [List.map_append, List.map_cons] at hwf hlisted hfound
  have hdiv := c.off_div hkn
  have hadd := c.off_add_len hkn
  have hkn1 : k + 1 ≤ c.n := by omega
  have hbound := c.off_bound hkn1
  have hend : 8 * (c.info k).offset8 + c.len k ≤ 16364 := by
    rw [Cutting.info_offset8]
    omega
  obtain ⟨s', hs, hadded⟩ :=
    addFragment_fills hwf hlisted hfound (f := c.info k) hfill rfl hend havail
  obtain ⟨hwf', -⟩ := fillHoles_wf hwf hfill
  rw [Cutting.info_offset8, Cutting.info_more, hgaps] at hs hadded
  rw [hgaps] at hwf'
  refine ⟨s', ?_, hadded, hwf'⟩
  rw [hs]
  simp only [List.map_eq_nil_iff]

/-- A piece that would leave a hole at the end of the buffer. -/
theorem Assembling.put_outside (ip : Buf) (avail : Nat)
    (a : Assembling c id missing (pre ++ g :: post) s)
    (hk : g.Within k) (hlast : k + 1 < g.last) (hoff : c.off (k + 1) = 16360) :
    addFragment s ip avail (c.info k) = .error .outside := by
  obtain ⟨hn, hkn⟩ := a.last_le hk
  have hk1 : k + 1 < c.n := by omega
  have hdiv := c.off_div hkn
  have hadd := c.off_add_len hkn
  have hlen := c.len_pos hk1
  have hwithin := gap_within_off a.gaps a.pieces hk
  have hend : 16360 < (c.hole g).last := by
    have := mt hwithin.2.mp (not_not.mpr hlast)
    rw [if_pos hk1] at this
    omega
  have hle := c.off_le hk.1 (Nat.le_of_lt hkn)
  apply addFragment_outside a.wf a.listed (a.found hk)
  · rw [Cutting.info_offset8, Cutting.info_blocks, Cutting.hole_first]
    omega
  · exact decide_eq_true hk1
  · rw [c.info_start hkn, Cutting.info_len]
    omega
  · exact hend

/-- A piece in front of all that are missing, or an empty one behind one that is
there, is taken for a duplicate. -/
theorem Assembling.dropped (a : Assembling c id missing (g :: post) s) (hk : k < g.first) :
    addFragment s ip avail (c.info k) = .ok (s, none) := by
  have hgaps : Gaps missing ([] ++ g :: post) := a.gaps
  have hn := gap_last_le hgaps a.pieces g List.mem_cons_self
  have hg := a.gaps.proper g List.mem_cons_self
  have hkn : k < c.n := by omega
  have hk1 : k + 1 < c.n := by omega
  have hlen := c.len_pos hk1
  have hadd := c.off_add_len hkn
  have hdiv := c.off_div hkn
  have hkg : k + 1 ≤ g.first := by omega
  have hle := c.off_le hkg (by omega)
  have hgn : g.first < c.n := by omega
  have hgdiv := c.off_div hgn
  have hlast := (c.hole_last hg hn).2.1
  have hlt := c.off_le (Nat.le_of_lt hg) hn
  have hfound : ((g :: post).map c.hole).find?
      (fun h => decide ((c.info k).start ≤ h.last)) = some (c.hole g) := by
    rw [List.map_cons, List.find?_cons_of_pos]
    rw [c.info_start hkn]
    exact decide_eq_true (by omega)
  apply addFragment_dup a.wf a.listed (by simp) hfound
  rw [Cutting.hole_first, Cutting.info_offset8, Cutting.info_blocks]
  omega

/-- An empty last piece is in front of its own hole, and dropped. -/
theorem Assembling.dropped_empty (a : Assembling c id missing (pre ++ g :: post) s)
    (hk : g.Within k) (hfirst : g.first = k) (hlen : c.len k = 0) :
    addFragment s ip avail (c.info k) = .ok (s, none) := by
  apply addFragment_dup a.wf a.listed (by simp) (a.found hk)
  rw [Cutting.hole_first, hfirst, Cutting.info_offset8, Cutting.info_blocks, hlen]
  omega

theorem Added.total_size (hadd : Added s s' ip (c.info k) (c.len k) i l) (hk : k < c.n) :
    s'.totalLen = if k + 1 < c.n then s.totalLen else UInt16.ofNat c.size := by
  have hlen := c.off_add_len hk
  have htotal := hadd.total
  rw [Cutting.info_more, Cutting.info_offset8, c.off_div hk, hlen] at htotal
  simp only [decide_eq_true_eq] at htotal
  rw [htotal]
  by_cases hk1 : k + 1 < c.n
  · rw [if_pos hk1, if_pos hk1]
  · have heq : k + 1 = c.n := by omega
    rw [if_neg hk1, if_neg hk1, heq, Cutting.size]

theorem Cutting.total_ne_zero (c : Cutting) : UInt16.ofNat c.size ≠ 0 := by
  intro h0
  have hsize : (UInt16.ofNat c.size).toNat = c.size := by
    have := c.bound
    rw [UInt16.toNat_ofNat', Cutting.size, Nat.mod_eq_of_lt (by omega)]
  have := c.nonempty
  rw [h0, Cutting.size] at hsize
  change 0 = _ at hsize
  omega

/-- The descriptors and the data are all behind the header. -/
theorem Added.header (hadd : Added s s' ip (c.info k) (c.len k) i l) {a : Nat} (h4 : 4 ≤ a)
    (h20 : a < 20) : s'.pktBuff a = s.pktBuff a := by
  apply hadd.off a h4
  · left
    simp only [holeAt]
    omega
  · simp only [InCell, holeAt]
    omega
  · intro g _
    simp only [InCell, holeAt]
    omega

theorem Added.ipId (hadd : Added s s' ip (c.info k) (c.len k) i l) :
    load16 s'.pktBuff 4 = load16 s.pktBuff 4 := by
  apply load16_congr
  intro j hj
  exact hadd.header (by omega) (by omega)

/-- The bytes at the front are only written to while piece 0 is linked. -/
theorem Added.front (hadd : Added s s' ip (c.info k) (c.len k) (c.hole g).first
    ((gapsAfter pre g post k).map c.hole)) (hin : g.Within k) (hk : k < c.n)
    (hpos : 0 < g.first) (hafter : ∀ b ∈ gapsAfter pre g post k, 0 < b.first ∧ b.first < c.n)
    {a : Nat} (h4 : 4 ≤ a) (h28 : a < 28) : s'.pktBuff a = s.pktBuff a := by
  have hclear : ∀ b : Gap, 0 < b.first → b.first < c.n → ¬ InCell (c.hole b).first a := by
    intro b hb hn
    have := c.off_lt hb hn
    have hdiv := c.off_div hn
    simp only [Cutting.hole, InCell, holeAt]
    omega
  have hlo := hin.1
  apply hadd.off a h4
  · have hk0 : 0 < k := by omega
    have := c.off_lt hk0 hk
    have hdiv := c.off_div hk
    rw [Cutting.info_offset8, holeAt]
    omega
  · exact hclear g hpos (by omega)
  · intro h hh
    obtain ⟨b, hb, heq⟩ := List.mem_map.mp hh
    rw [← heq]
    exact hclear b (hafter b hb).1 (hafter b hb).2

/-- The bytes of a piece that is there are not written over. -/
theorem Added.keeps {j n : Nat} {gs' : List Gap}
    (hadd : Added s s' ip (c.info k) (c.len k) (c.hole g).first (gs'.map c.hole)) (hk : k < c.n)
    (hg : g.first < c.n ∧ g.first ≠ j) (hgs : ∀ b ∈ gs', b.first < c.n ∧ b.first ≠ j)
    (hj : j < c.n) (hjk : j ≠ k) (hn : n < c.len j) :
    s'.pktBuff (20 + (c.off j + n)) = s.pktBuff (20 + (c.off j + n)) := by
  have hadd_j := c.off_add_len hj
  -- a descriptor is as long as the shortest piece in front of another one
  have hclear : ∀ x, x < c.n → x ≠ j → ¬ InCell (c.off x / 8) (20 + (c.off j + n)) := by
    intro x hx hne
    have hdiv := c.off_div hx
    simp only [InCell, holeAt]
    rcases Nat.lt_or_gt_of_ne hne with hlt | hgt
    · have hx1 : x + 1 < c.n := by omega
      have hpos := c.len_pos hx1
      have := c.off_add_len hx
      have hxj : x + 1 ≤ j := by omega
      have := c.off_le hxj (Nat.le_of_lt hj)
      omega
    · have hjx : j + 1 ≤ x := by omega
      have := c.off_le hjx (Nat.le_of_lt hx)
      omega
  have hkadd := c.off_add_len hk
  have hdiv := c.off_div hk
  apply hadd.off _ (by omega)
  · rw [Cutting.info_offset8, holeAt]
    rcases Nat.lt_or_gt_of_ne hjk with hlt | hgt
    · have hjk1 : j + 1 ≤ k := by omega
      have := c.off_le hjk1 (Nat.le_of_lt hk)
      omega
    · have hkj : k + 1 ≤ j := by omega
      have := c.off_le hkj (Nat.le_of_lt hj)
      omega
  · exact hclear g.first hg.1 hg.2
  · intro h hh
    obtain ⟨b, hb, heq⟩ := List.mem_map.mp hh
    rw [← heq]
    exact hclear b.first (hgs b hb).1 (hgs b hb).2

/-- What the next fragment finds. -/
theorem Assembling.next (a : Assembling c id missing gs s)
    (hadd : Added s s' ip (c.info k) (c.len k) i (post.map c.hole))
    (hwf : HolesWf (post.map c.hole)) (hne : post ≠ []) (hk : k < c.n)
    (hgaps : Gaps missing' post) (hm : ∀ i, missing' i → i < c.n) :
    Assembling c id missing' post s' := by
  refine ⟨hgaps, hm, hwf, hadd.listed (by simpa using hne), hadd.ipId.trans a.id, ?_⟩
  rw [hadd.total_size hk]
  split
  · exact a.total
  · exact c.total_ne_zero

end Put

end EmacDriver
