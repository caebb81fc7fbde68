import EmacDriver.Proofs.DefragStep
import EmacDriver.Proofs.ReceiveBounds

namespace EmacDriver
open Bytes

def holesFrom (b : Buf) : Nat → Nat → List Hole
  | 0, _ => []
  | n + 1, h => ⟨h, lastByte b h⟩ :: if nextHole b h = 0 then [] else holesFrom b n (nextHole b h)

def Defrag.holes (s : Defrag) : List Hole := holesFrom s.pktBuff 2046 s.firstHole.toNat

/-- A fragment that leaves every descriptor but that of its own hole alone, and
starts its copy where the packet has room for it. -/
def InPlace (l : List Hole) (f : FragInfo) : Prop :=
  ∀ h ∈ l.find? (fun g => decide (f.start ≤ g.last)),
    f.offset8 + (f.len + 7).tdiv 8 ≤ h.first ∨
      0 ≤ f.len ∧ (∀ g ∈ l, h.first < g.first → f.start + f.len ≤ 8 * g.first) ∧
        (f.more = true → f.start + f.len < h.last → f.len % 8 = 0 ∧ f.start + f.len ≤ 16352)

/-- What a datagram with a fragment has to meet: it is too long, or begins a
packet, or belongs to one that has not been returned, and is in its place there. -/
def DatagramMeets (s : Defrag) (returned : Bool) (ip : Buf) : Prop :=
  toSize ((fragInfo ip).start + (fragInfo ip).len) > 16364 ∨
    if startsPacket s ip then InPlace [⟨0, 65535⟩] (fragInfo ip)
    else returned = false ∧ InPlace s.holes (fragInfo ip)

def FrameMeets (conf : NetConf) (s : Defrag) (returned : Bool) (f : Frame) : Prop :=
  ∀ p ∈ rxLink conf f.inPacket f.len,
    p.ethProto = 0x0800 ∧ ipTests conf f.inPacket p.ip p.len = true →
      ntohs (load16 f.inPacket (p.ip + 6)) &&& 0x3fff ≠ 0 →
        DatagramMeets s returned (fun i => f.inPacket (p.ip + i))

/-- Whether the packet in `pkt_buff` has been returned: until its `ip_id` changes. -/
def returnedAfter (s : Defrag) (returned : Bool) : Defrag × Defragmented → Bool
  | (_, .assembled _) => true
  | (s', _) => returned && load16 s'.pktBuff 4 == load16 s.pktBuff 4

def FramesMeet (conf : NetConf) : Defrag → Bool → List Frame → Prop
  | _, _, [] => True
  | s, returned, f :: fs =>
    FrameMeets conf s returned f ∧
      ∀ r ∈ (rxDefragment conf s f).toOption,
        FramesMeet conf r.1 (returnedAfter s returned r) fs

instance InPlace.decidable (l : List Hole) (f : FragInfo) : Decidable (InPlace l f) :=
  inferInstanceAs (Decidable (∀ h ∈ l.find? _, _ ∨ _))

instance DatagramMeets.decidable (s : Defrag) (returned : Bool) (ip : Buf) :
    Decidable (DatagramMeets s returned ip) :=
  inferInstanceAs (Decidable (toSize _ > _ ∨
    if startsPacket s ip then InPlace _ _ else returned = false ∧ InPlace _ _))

instance FrameMeets.decidable (conf : NetConf) (s : Defrag) (returned : Bool) (f : Frame) :
    Decidable (FrameMeets conf s returned f) :=
  inferInstanceAs (Decidable (∀ p ∈ rxLink conf f.inPacket f.len, _ → _ → DatagramMeets _ _ _))

instance FramesMeet.decidable (conf : NetConf) :
    (s : Defrag) → (returned : Bool) → (fs : List Frame) → Decidable (FramesMeet conf s returned fs)
  | _, _, [] => inferInstanceAs (Decidable True)
  | s, returned, f :: fs =>
    have (r : Defrag × Defragmented) :=
      FramesMeet.decidable conf r.1 (returnedAfter s returned r) fs
    inferInstanceAs (Decidable (FrameMeets conf s returned f ∧
      ∀ r ∈ (rxDefragment conf s f).toOption, FramesMeet conf _ _ fs))

def rxDefragments (conf : NetConf) : Defrag → List Frame → Except Fault Defrag
  | s, [] => .ok s
  | s, f :: fs => do
    let (s, _) ← rxDefragment conf s f
    rxDefragments conf s fs

theorem holesFrom_eq {b : Buf} {l : List Hole} {p n : Nat}
    (hseg : DoublyLinked.Seg (nextHole b) (prevHole b) p (indices l) 0)
    (hlast : ∀ h ∈ l, lastByte b h.first = h.last) (w : HolesWf l) (hne : l ≠ [])
    (hn : l.length ≤ n) : holesFrom b n ((indices l).headD 0) = l := by
  induction l generalizing p n with
  | nil => exact absurd rfl hne
  | cons h l ih =>
    cases n with
    | zero => simp at hn
    | succ n =>
      obtain ⟨-, hnext, hrest⟩ := hseg
      have hl := hlast h List.mem_cons_self
      simp only [indices, List.map_cons, List.headD_cons, holesFrom, hl, hnext]
      cases l with
      | nil => rfl
      | cons g l =>
        have hpos : 0 < g.first := w.second_pos
        have hrec := ih hrest (fun k hk => hlast k (List.mem_cons_of_mem h hk)) w.tail (by simp)
          (Nat.le_of_succ_le_succ hn)
        simp only [indices, List.map_cons, List.headD_cons] at hrec ⊢
        rw [if_neg (Nat.ne_of_gt hpos), hrec]

def Held (s : Defrag) : Prop := ∃ l, l ≠ [] ∧ HolesWf l ∧ Listed s l

/-- The descriptors are read back as the list. -/
theorem Listed.holes {s : Defrag} {l : List Hole} (hl : Listed s l) (w : HolesWf l)
    (hne : l ≠ []) : s.holes = l := by
  rw [Defrag.holes, hl.first]
  exact holesFrom_eq hl.seg hl.last w hne (Nat.le_trans w.length_le (by decide))

theorem InPlace.filling {pre post : List Hole} {h : Hole} {f : FragInfo} {len : Nat}
    (w : HolesWf (pre ++ h :: post)) (hreach : f.start ≤ h.last)
    (hpre : ∀ g ∈ pre, g.last < f.start) (hlen : f.len = len)
    (hnew : ¬ f.offset8 + (f.len + 7).tdiv 8 ≤ h.first)
    (hbehind : ∀ g ∈ pre ++ h :: post, h.first < g.first → f.start + f.len ≤ 8 * g.first)
    (hroom : f.more = true → f.start + f.len < h.last →
      f.len % 8 = 0 ∧ f.start + f.len ≤ 16352) :
    Filling pre h post f.offset8 len f.more := by
  have hceil : (f.len + 7).tdiv 8 = ((len + 7) / 8 : Nat) := by
    rw [hlen]
    rfl
  rw [FragInfo.start] at hreach hpre hbehind hroom
  rw [hlen] at hbehind hroom
  obtain ⟨-, hh, -, -, hpost, -⟩ := w.split
  refine ⟨hpre, hreach, by omega, ?_, ?_⟩
  · intro g hg
    have hlt := hh.nonempty
    have hap := hpost g hg
    have := hbehind g (by simp [hg]) (by omega)
    omega
  · intro hm hb
    have := hroom hm (by omega)
    omega

/-- A fragment in its place is put into the packet without a fault. -/
theorem addFragment_ok {s : Defrag} {l : List Hole} {ip : Buf} {avail : Nat} {f : FragInfo}
    (hl : Listed s l) (w : HolesWf l) (hne : l ≠ []) (hin : InPlace l f)
    (hend : 0 ≤ f.len → f.start + f.len ≤ 16364) (havail : 20 + f.len ≤ avail) :
    ∃ s' r, addFragment s ip avail f = .ok (s', r) ∧ (r = none → Held s') := by
  cases hf : l.find? (fun g => decide (f.start ≤ g.last)) with
  | none => exact ⟨s, none, addFragment_unreached w hl hne hf, fun _ => ⟨l, hne, w, hl⟩⟩
  | some h =>
    rcases Classical.em (f.offset8 + (f.len + 7).tdiv 8 ≤ (h.first : Int)) with hdup | hnew
    · exact ⟨s, none, addFragment_dup w hl hne hf hdup, fun _ => ⟨l, hne, w, hl⟩⟩
    · obtain ⟨hreach, pre, post, rfl, hpre⟩ := reached hf
      obtain ⟨hnonneg, hbehind, hroom⟩ := (hin h hf).resolve_left hnew
      obtain ⟨len, hlen⟩ := Int.eq_ofNat_of_zero_le hnonneg
      have hp := InPlace.filling w hreach hpre hlen hnew hbehind hroom
      have hend' : 8 * f.offset8 + len ≤ 16364 := by
        have := hend hnonneg
        rw [hlen, FragInfo.start] at this
        omega
      have havail' : 20 + len ≤ avail := by omega
      obtain ⟨s', hs, hadd⟩ := addFragment_fills w hl hf hp hlen hend' havail'
      refine ⟨s', _, hs, ?_⟩
      intro hr
      have hleft : fillHoles pre h post f.offset8 len f.more ≠ [] := by
        intro hfill
        rw [if_pos hfill] at hr
        cases hr
      exact ⟨_, hleft, (fillHoles_wf w hp).1, hadd.listed hleft⟩

-- unfolded, its modulus sends unification into unary arithmetic
attribute [local irreducible] lenMinus

theorem fragInfo_range (ip : Buf) :
    (fragInfo ip).offset8 ≤ 8191 ∧ (fragInfo ip).len = ntohs (load16 ip 2) - 20 := by
  have hlen := ntohs_lt (load16 ip 2)
  exact ⟨Nat.and_le_right, lenMinus_eq (by omega) (by omega) (by omega)⟩

/-- Whether the next fragment may be taken for one of the packet in `pkt_buff`. -/
def Ready (s : Defrag) (returned : Bool) : Prop := s.totalLen = 0 ∨ returned = true ∨ Held s

/-- One datagram that meets the condition raises no fault, and the next one may come. -/
theorem netDefragmentAssemble_ok {s : Defrag} {returned : Bool} {ip : Buf} {avail : Nat}
    (hs : Ready s returned) (hm : DatagramMeets s returned ip)
    (havail : 20 + (fragInfo ip).len ≤ avail) (hhdr : 20 ≤ avail) :
    ∃ s' r, netDefragmentAssemble s ip avail = .ok (s', r) ∧ (r = none → s' = s ∨ Held s') := by
  obtain ⟨hoff, hlen⟩ := fragInfo_range ip
  have hlt := ntohs_lt (load16 ip 2)
  by_cases hfar : toSize ((fragInfo ip).start + (fragInfo ip).len) > 16364
  · refine ⟨s, none, ?_, fun _ => Or.inl rfl⟩
    rw [netDefragmentAssemble, if_pos hfar]
  · have hend : 0 ≤ (fragInfo ip).len →
        ((fragInfo ip).start : Int) + (fragInfo ip).len ≤ 16364 := by
      intro h0
      rw [FragInfo.start] at hfar ⊢
      rw [toSize_of_range (by omega) (by omega)] at hfar
      omega
    have hplace := hm.resolve_left hfar
    have heq : netDefragmentAssemble s ip avail =
        if startsPacket s ip then addFragment (resetPacket s ip) ip avail (fragInfo ip)
        else addFragment s ip avail (fragInfo ip) := by
      rw [netDefragmentAssemble, if_neg hfar, if_neg (Nat.not_lt.mpr hhdr)]
    by_cases hstarts : startsPacket s ip = true
    · rw [if_pos hstarts] at hplace heq
      obtain ⟨s', r, hadd, hheld⟩ := addFragment_ok (resetPacket_listed s ip)
        holesWf_reset (by simp) hplace hend havail
      exact ⟨s', r, heq.trans hadd, fun hr => Or.inr (hheld hr)⟩
    · rw [if_neg hstarts] at hplace heq
      obtain ⟨hret, hin⟩ := hplace
      have htotal : s.totalLen ≠ 0 := by
        intro h0
        apply hstarts
        rw [startsPacket, h0]
        rfl
      rcases hs with h0 | hr | ⟨l, hne, w, hl⟩
      · exact absurd h0 htotal
      · rw [hret] at hr
        cases hr
      · rw [hl.holes w hne] at hin
        obtain ⟨s', r, hadd, hheld⟩ := addFragment_ok hl w hne hin hend havail
        exact ⟨s', r, heq.trans hadd, fun hr => Or.inr (hheld hr)⟩

/-- The tests in front leave the datagram in the frame. -/
theorem ipTests_room {conf : NetConf} {b : Buf} {ip : Nat} {len : Int}
    (h : ipTests conf b ip len = true) : 28 ≤ len ∧ ntohs (load16 b (ip + 2)) ≤ len := by
  simp only [ipTests, Bool.and_eq_true, Bool.not_eq_true', decide_eq_false_iff_not] at h
  obtain ⟨⟨⟨⟨⟨hroom, hfits⟩, -⟩, -⟩, -⟩, -⟩ := h
  unfold toSize at hroom
  omega

/-- What one received frame leaves. -/
theorem rxDefragment_ok {conf : NetConf} {s : Defrag} {returned : Bool} {f : Frame}
    (hs : Ready s returned) (hm : FrameMeets conf s returned f) :
    ∃ r, rxDefragment conf s f = .ok r ∧ Ready r.1 (returnedAfter s returned r) := by
  have hsame : ∀ d : Defragmented, (∀ n, d ≠ .assembled n) →
      Ready s (returnedAfter s returned (s, d)) := by
    intro d hd
    cases d with
    | none => simpa [returnedAfter] using hs
    | asReceived => simpa [returnedAfter] using hs
    | assembled n => exact absurd rfl (hd n)
  have hunchanged : Ready s (returnedAfter s returned (s, .none)) :=
    hsame .none (fun _ h => nomatch h)
  cases hlink : rxLink conf f.inPacket f.len with
  | none => exact ⟨(s, .none), by simp [rxDefragment, hlink], hunchanged⟩
  | some p =>
    by_cases hip : p.ethProto = 0x0800 ∧ ipTests conf f.inPacket p.ip p.len = true
    · have heq : rxDefragment conf s f =
          s.netDefragment (fun i => f.inPacket (p.ip + i)) p.len.toNat := by
        simp only [rxDefragment, hlink, if_pos hip]
      rw [heq]
      by_cases hfrag : ntohs (load16 f.inPacket (p.ip + 6)) &&& 0x3fff = 0
      · exact ⟨(s, .asReceived), if_pos hfrag, hsame .asReceived (fun _ h => nomatch h)⟩
      · have hmeets := hm p hlink hip hfrag
        obtain ⟨hroom, hfits⟩ := ipTests_room hip.2
        have hlen := (fragInfo_range (fun i => f.inPacket (p.ip + i))).2
        have hload : load16 (fun i => f.inPacket (p.ip + i)) 2 = load16 f.inPacket (p.ip + 2) := rfl
        rw [hload] at hlen
        have havail : 20 + (fragInfo (fun i => f.inPacket (p.ip + i))).len ≤ p.len.toNat := by omega
        obtain ⟨s', r, hcall, hheld⟩ := netDefragmentAssemble_ok hs hmeets havail (by omega)
        have hcut : ¬ ntohs (load16 (fun i => f.inPacket (p.ip + i)) 6) &&& 0x3fff = 0 := hfrag
        rw [Defrag.netDefragment, if_neg hcut, hcall]
        cases r with
        | some n => exact ⟨(s', .assembled n), rfl, Or.inr (Or.inl rfl)⟩
        | none =>
          refine ⟨(s', .none), rfl, ?_⟩
          rcases hheld rfl with rfl | hheld
          · exact hunchanged
          · exact Or.inr (Or.inr hheld)
    · exact ⟨(s, .none), by simp only [rxDefragment, hlink, if_neg hip], hunchanged⟩

/-- By induction on the frames. -/
theorem rxDefragments_ok {conf : NetConf} {s : Defrag} {returned : Bool} {fs : List Frame}
    (hs : Ready s returned) (hm : FramesMeet conf s returned fs) :
    ∃ s', rxDefragments conf s fs = .ok s' := by
  induction fs generalizing s returned with
  | nil => exact ⟨s, rfl⟩
  | cons f fs ih =>
    obtain ⟨hframe, hrest⟩ := hm
    obtain ⟨r, hr, hready⟩ := rxDefragment_ok hs hframe
    obtain ⟨s', hrun⟩ := ih hready (hrest r (by rw [hr]; rfl))
    refine ⟨s', ?_⟩
    rw [rxDefragments, hr]
    exact hrun

/-- From the start on, frames that all meet the condition are taken without a
fault: each hole index within `pkt_buff`, each copy within both its ranges. -/
theorem defragment_inside (conf : NetConf) (fs : List Frame)
    (h : FramesMeet conf .initial false fs) : ∃ s, rxDefragments conf .initial fs = .ok s :=
  rxDefragments_ok (Or.inl rfl) h

def fragmentFrame (ipLen : UInt8) (off sum payload : List UInt8) : Frame where
  inPacket := ofList ([0x6a, 0xe3, 0xd1, 0x16, 0xb0, 0x50, 0x02, 0, 0, 0, 0, 3, 0x08, 0x00,
    0x45, 0, 0, ipLen, 0, 1] ++ off ++ [64, 17] ++ sum ++
    [192, 168, 100, 3, 192, 168, 100, 22] ++ payload)
  len := 60

/-- Eight bytes at offset 8, twice, and the eight in front of them. -/
theorem defragment_inside_twice :
    ∃ s, rxDefragments plainConf .initial
      [fragmentFrame 28 [0, 1] [0x31, 0x65] [8, 7, 6, 5, 4, 3, 2, 1],
        fragmentFrame 28 [0, 1] [0x31, 0x65] [8, 7, 6, 5, 4, 3, 2, 1],
        fragmentFrame 28 [0x20, 0] [0x11, 0x66] [1, 2, 3, 4, 5, 6, 7, 8]] = .ok s :=
  defragment_inside plainConf _ (by decide +kernel)

/-- A header that gives `ip_len` as 0: a copy of minus 20 bytes. -/
theorem defragment_outside :
    ¬ ∀ (conf : NetConf) (fs : List Frame), rxDefragments conf .initial fs ≠ .error .outside := by
  intro h
  apply h plainConf [fragmentFrame 0 [0x20, 4] [0x11, 0x7e] []]
  have hfault : (match rxDefragments plainConf .initial
      [fragmentFrame 0 [0x20, 4] [0x11, 0x7e] []] with
      | .error e => some e
      | .ok _ => none) = some .outside := by decide +kernel
  cases hr : rxDefragments plainConf .initial [fragmentFrame 0 [0x20, 4] [0x11, 0x7e] []] with
  | error e =>
    rw [hr] at hfault
    exact congrArg Except.error (Option.some.inj hfault)
  | ok s =>
    rw [hr] at hfault
    cases hfault

end EmacDriver
