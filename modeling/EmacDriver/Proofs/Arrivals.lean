import EmacDriver.Proofs.Pieces
import EmacDriver.Proofs.RxSpec

namespace EmacDriver
open Bytes

structure Datagram where
  ip : Buf
  avail : Nat

structure HoldsPiece (c : Cutting) (id : UInt16) (payload : Buf) (k : Nat) (d : Datagram) :
    Prop where
  ipId : load16 d.ip 4 = id
  info : fragInfo d.ip = c.info k
  whole : 20 + c.len k ≤ d.avail
  data : ∀ i < c.len k, d.ip (20 + i) = payload (c.off k + i)

/-- Null for each datagram but the last, and for that one the payload with `*lenp`. -/
def Assembles (payload : Buf) (size : Nat) : Defrag → List Datagram → Prop
  | _, [] => False
  | s, [d] => ∃ s', netDefragmentAssemble s d.ip d.avail = .ok (s', some (size + 20 : Int)) ∧
      ∀ i < size, s'.pktBuff (20 + i) = payload i
  | s, d :: e :: ds => ∃ s', netDefragmentAssemble s d.ip d.avail = .ok (s', none) ∧
      Assembles payload size s' (e :: ds)

theorem Assembles.cons_iff {payload : Buf} {size : Nat} {s s' : Defrag} {d : Datagram}
    {ds : List Datagram} {r : Option Int}
    (h : netDefragmentAssemble s d.ip d.avail = .ok (s', r)) :
    Assembles payload size s (d :: ds) ↔
      ds = [] ∧ r = some (size + 20 : Int) ∧ (∀ i < size, s'.pktBuff (20 + i) = payload i) ∨
        ds ≠ [] ∧ r = none ∧ Assembles payload size s' ds := by
  cases ds with
  | nil => simp [Assembles, h]
  | cons e ds => simp [Assembles, h]

theorem not_assembles_of_error {payload : Buf} {size : Nat} {s : Defrag} {d : Datagram}
    {ds : List Datagram} {e : Fault} (h : netDefragmentAssemble s d.ip d.avail = .error e) :
    ¬ Assembles payload size s (d :: ds) := by
  cases ds with
  | nil => simp [Assembles, h]
  | cons _ _ => simp [Assembles, h]

section Arrival
variable {c : Cutting} {id : UInt16} {payload : Buf} {missing : Nat → Prop} {gs : List Gap}
  {s : Defrag} {k : Nat} {d : Datagram}

/-- No piece is beyond the end of `pkt_buff`. -/
theorem HoldsPiece.not_far (hd : HoldsPiece c id payload k d) (hk : k < c.n) :
    ¬ toSize ((fragInfo d.ip).start + (fragInfo d.ip).len) > 16364 := by
  have hadd := c.off_add_len hk
  have hkn1 : k + 1 ≤ c.n := by omega
  have hbound := c.off_bound hkn1
  rw [hd.info, c.info_start hk, Cutting.info_len, toSize_of_range (by omega) (by omega)]
  omega

/-- A packet that has been begun goes on. -/
theorem Assembling.assemble (a : Assembling c id missing gs s) (hd : HoldsPiece c id payload k d)
    (hk : k < c.n) :
    netDefragmentAssemble s d.ip d.avail = addFragment s d.ip d.avail (c.info k) := by
  have hsame : startsPacket s d.ip = false := by
    simp [startsPacket, a.total, a.id, hd.ipId]
  rw [netDefragmentAssemble, if_neg (hd.not_far hk), hsame, hd.info]
  rfl

/-- A fragment of a new packet begins with everything missing. -/
theorem assembling_reset (c : Cutting) (hd : HoldsPiece c id payload k d) (s : Defrag) :
    Assembling c id (fun i => i < c.n) [⟨0, c.n⟩] (resetPacket s d.ip) := by
  have hhole : [(⟨0, c.n⟩ : Gap)].map c.hole = [⟨0, 65535⟩] := by
    simp [Cutting.hole, c.start]
  have htotal : (0xffff : UInt16) ≠ 0 := by decide
  refine ⟨Gaps.whole c.pieces, fun _ h => h, ?_, ?_, ?_, htotal⟩
  · rw [hhole]
    exact holesWf_reset
  · rw [hhole]
    exact resetPacket_listed s d.ip
  · rw [resetPacket_id]
    exact hd.ipId

/-- Another `ip_id` begins a packet. -/
theorem assemble_new (hd : HoldsPiece c id payload k d) (hk : k < c.n)
    (hs : s.totalLen = 0 ∨ load16 s.pktBuff 4 ≠ id) :
    netDefragmentAssemble s d.ip d.avail =
      netDefragmentAssemble (resetPacket s d.ip) d.ip d.avail := by
  have hstarts : startsPacket s d.ip = true := by
    simp only [startsPacket, Bool.or_eq_true, beq_iff_eq, bne_iff_ne, hd.ipId]
    exact hs
  have hwhole := hd.whole
  rw [(assembling_reset c hd s).assemble hd hk, netDefragmentAssemble, if_neg (hd.not_far hk),
    if_pos hstarts, if_neg (by omega), hd.info]

end Arrival

/-- What cannot end well any more: piece 0 is not linked, so that the bytes of its
descriptor stay, or the last piece is missing and has already arrived. -/
structure Hopeless (c : Cutting) (id : UInt16) (payload : Buf) (missing : Nat → Prop)
    (gs : List Gap) (s : Defrag) (rest : List Nat) : Prop where
  assembling : Assembling c id missing gs s
  left : gs ≠ []
  coming : ∀ k ∈ rest, k < c.n ∧ (missing k ∨ ∀ g ∈ gs, k < g.first)
  nodup : rest.Nodup
  wrong : (∀ g ∈ gs, 0 < g.first) ∧ s.pktBuff 24 = 0 ∧ payload 4 ≠ 0 ∨
    missing (c.n - 1) ∧ c.n - 1 ∉ rest

section Hopeless
variable {c : Cutting} {id : UInt16} {payload : Buf} {missing : Nat → Prop} {gs : List Gap}
  {s : Defrag} {k : Nat} {frag : Nat → Datagram} {rest : List Nat}

/-- A fragment that is dropped does not help. -/
theorem Hopeless.dropped (h : Hopeless c id payload missing gs s (k :: rest)) :
    Hopeless c id payload missing gs s rest := by
  refine ⟨h.assembling, h.left, fun i hi => h.coming i (List.mem_cons_of_mem k hi),
    (List.nodup_cons.mp h.nodup).2, h.wrong.imp_right ?_⟩
  intro hlast
  exact ⟨hlast.1, fun hm => hlast.2 (List.mem_cons_of_mem k hm)⟩

/-- A piece that is put in does not mend it. -/
theorem Hopeless.put {pre post : List Gap} {g : Gap} {s' : Defrag} {ip : Buf}
    (h : Hopeless c id payload missing (pre ++ g :: post) s (k :: rest)) (hin : g.Within k)
    (hadd : Added s s' ip (c.info k) (c.len k) (c.hole g).first
      ((gapsAfter pre g post k).map c.hole))
    (hwf : HolesWf ((gapsAfter pre g post k).map c.hole)) :
    (gapsAfter pre g post k ≠ [] →
        ∃ missing', Hopeless c id payload missing' (gapsAfter pre g post k) s' rest) ∧
      (gapsAfter pre g post k = [] →
        s'.pktBuff 24 = 0 ∧ payload 4 ≠ 0 ∧ 4 < c.size) := by
  have a := h.assembling
  obtain ⟨hn, hkn⟩ := a.last_le hin
  obtain ⟨missing', hgaps, hsub, hkeep, hrest⟩ := gaps_after a.gaps hin
  obtain ⟨hknot, hnodup⟩ := List.nodup_cons.mp h.nodup
  have hm : ∀ i, missing' i → i < c.n := fun i hi => a.pieces i (hsub i hi).1
  have hfront : (∀ b ∈ pre ++ g :: post, 0 < b.first) →
      s'.pktBuff 24 = s.pktBuff 24 ∧ ∀ b ∈ gapsAfter pre g post k, 0 < b.first := by
    intro hpos
    have hafter : ∀ b ∈ gapsAfter pre g post k, 0 < b.first := by
      intro b hb
      obtain ⟨b', hb', hle⟩ := mem_gapsAfter hin hb
      have := hpos b' hb'
      omega
    refine ⟨hadd.front hin hkn (hpos g (by simp)) ?_ (by decide) (by decide), hafter⟩
    intro b hb
    exact ⟨hafter b hb, hm _ (hgaps.missing_first hb)⟩
  constructor
  · intro hne
    refine ⟨missing', a.next hadd hwf hne hkn hgaps hm, hne, ?_, hnodup, ?_⟩
    · intro i hi
      obtain ⟨hin', hor⟩ := h.coming i (List.mem_cons_of_mem k hi)
      refine ⟨hin', ?_⟩
      rcases hor with hmi | hall
      · apply hrest i hmi
        intro heq
        exact hknot (heq ▸ hi)
      · right
        intro b hb
        obtain ⟨b', hb', hle⟩ := mem_gapsAfter hin hb
        have := hall b' hb'
        omega
    · rcases h.wrong with ⟨hpos, hzero, hp⟩ | ⟨hlast, hnot⟩
      · obtain ⟨hbyte, hafter⟩ := hfront hpos
        exact Or.inl ⟨hafter, hbyte.trans hzero, hp⟩
      · right
        have hlo := hin.1
        refine ⟨hkeep _ hlast ?_ (by omega), fun hc => hnot (List.mem_cons_of_mem k hc)⟩
        intro heq
        exact hnot (heq ▸ List.mem_cons_self)
  · intro hnil
    rcases h.wrong with ⟨hpos, hzero, hp⟩ | ⟨hlast, hnot⟩
    · have hgn : g.first < c.n := by
        have := hin.1
        omega
      have hoff := c.off_lt (hpos g (by simp)) hgn
      have hblock := c.blocks g.first (by have := hin.1; omega)
      have hgn' : g.first ≤ c.n := by
        have := hin.1
        omega
      have hle := c.off_le hgn' (Nat.le_refl _)
      refine ⟨(hfront hpos).1.trans hzero, hp, ?_⟩
      rw [Cutting.size]
      omega
    · have hlo := hin.1
      have hstill := hkeep _ hlast (fun heq => hnot (heq ▸ List.mem_cons_self)) (by omega)
      exact absurd hstill (hgaps.nil_iff.mp hnil _)

/-- What is hopeless is not assembled: by induction on what is still to come. -/
theorem Hopeless.not_assembles (hfrag : ∀ k < c.n, HoldsPiece c id payload k (frag k))
    (h : Hopeless c id payload missing gs s rest) :
    ¬ Assembles payload c.size s (rest.map frag) := by
  induction rest generalizing missing gs s with
  | nil => exact fun hc => hc
  | cons k rest ih =>
    obtain ⟨hkn, hk⟩ := h.coming k List.mem_cons_self
    have hd := hfrag k hkn
    have heq := h.assembling.assemble hd hkn
    rw [List.map_cons]
    -- a fragment that is dropped leaves everything as it was
    have hdrop : addFragment s (frag k).ip (frag k).avail (c.info k) = .ok (s, none) →
        ¬ Assembles payload c.size s (frag k :: rest.map frag) := by
      intro hadd hc
      rcases (Assembles.cons_iff (heq.trans hadd)).mp hc with ⟨-, hr, -⟩ | ⟨-, -, hc⟩
      · cases hr
      · exact ih h.dropped hc
    rcases hk with hm | hfront
    · obtain ⟨pre, g, post, rfl, hin⟩ := h.assembling.gaps.find hm
      by_cases hout : k + 1 < g.last ∧ c.off (k + 1) = 16360
      · have hadd := h.assembling.put_outside (frag k).ip (frag k).avail hin hout.1 hout.2
        exact not_assembles_of_error (heq.trans hadd)
      · by_cases hempty : g.first = k ∧ c.len k = 0
        · exact hdrop (h.assembling.dropped_empty hin hempty.1 hempty.2)
        · have hover : g.first < k ∨ 0 < c.len k := by
            have := hin.1
            omega
          obtain ⟨s', hadd, hadded, hwf⟩ := h.assembling.put (frag k).ip hin hover
            (fun hlt hoff => hout ⟨hlt, hoff⟩) hd.whole
          obtain ⟨hnext, hdone⟩ := h.put hin hadded hwf
          intro hc
          rcases (Assembles.cons_iff (heq.trans hadd)).mp hc with ⟨-, hr, hdata⟩ | ⟨-, hr, hc⟩
          · by_cases hnil : gapsAfter pre g post k = []
            · obtain ⟨hzero, hp, hsize⟩ := hdone hnil
              exact hp ((hdata 4 hsize).symm.trans hzero)
            · rw [if_neg hnil] at hr
              cases hr
          · by_cases hnil : gapsAfter pre g post k = []
            · rw [if_pos hnil] at hr
              cases hr
            · obtain ⟨missing', hnext⟩ := hnext hnil
              exact ih hnext hc
    · obtain ⟨g, post, hgs⟩ := List.exists_cons_of_ne_nil h.left
      subst hgs
      exact hdrop (h.assembling.dropped (hfront g List.mem_cons_self))

end Hopeless

end EmacDriver
