import EmacDriver.Proofs.ParkedPacket

namespace EmacDriver
open Bytes

structure Request where
  frame : List UInt8
  ip : UInt32
  ether : Option Nat

inductive RequestOp where
  | pingSend
  | netSendUdpPacket (ether : Nat) (dest : UInt32) (dport sport payloadLen : Nat)
  | netProcessReceivedPacket (f : Frame)
  | arpTimeoutCheck

def RequestOp.apply (s : Host) : RequestOp → Host
  | .pingSend => EmacDriver.pingSend s
  | .netSendUdpPacket ether dest dport sport len =>
    EmacDriver.netSendUdpPacket s ether dest dport sport len
  | .netProcessReceivedPacket f => EmacDriver.netProcessReceivedPacket s f
  | .arpTimeoutCheck => (EmacDriver.arpTimeoutCheck s).2

def RequestOp.request (s : Host) : RequestOp → Option Request
  | .pingSend =>
    some ⟨slice (EmacDriver.pingSend s).netTxPacket 0 (netEthHdrSize s + 28), s.conf.netPingIp,
      none⟩
  | .netSendUdpPacket ether dest dport sport len =>
    if udpMac s ether dest = netNullEthaddr then
      some ⟨slice (EmacDriver.netSendUdpPacket s ether dest dport sport len).netTxPacket 0
        (netEthHdrSize s + 28 + len), udpDest dest, some ether⟩
    else none
  | _ => none

inductive RequestRun (ok : Host → RequestOp → Prop) (s0 : Host) : Host → Option Request → Prop where
  | start : RequestRun ok s0 s0 none
  | step {s : Host} {last : Option Request} (run : RequestRun ok s0 s last) (op : RequestOp)
      (allowed : ok s op) : RequestRun ok s0 (op.apply s) ((op.request s).or last)

/-- The frame a matching reply sends is the one the last request built, and its
IP destination is the address waited for. -/
def SendsOwnFrame (s : Host) (last : Option Request) : Prop :=
  ∀ f arp len, Awaited s f arp len → ∃ q, last = some q ∧ q.ip = s.arp.netArpWaitPacketIp ∧
    load32 (ofList q.frame) (netEthHdrSize s + 16) = q.ip ∧
    (netProcessReceivedPacket s f).txSends = s.txSends ++
      [(loadVec 6 f.inPacket (arp + 8)).toList ++ q.frame.drop 6]

/-- The sender's MAC goes where the last request pointed, and nowhere else. -/
def StoresOwnMac (s : Host) (last : Option Request) : Prop :=
  ∀ f arp len, Awaited s f arp len → ∃ q, last = some q ∧
    (netProcessReceivedPacket s f).ethaddrs = fun p =>
      if q.ether = some p then loadVec 6 f.inPacket (arp + 8) else s.ethaddrs p

/-- No datagram goes over a packet that waits, and no ping inherits the pointer
of a datagram. -/
def RequestOp.Separate (s : Host) : RequestOp → Prop
  | .pingSend => s.conf.netPingIp = 0 ∨ s.arp.arpWaitPacketEthaddr = none
  | .netSendUdpPacket ether dest _ _ _ =>
    udpMac s ether dest = netNullEthaddr ∨ s.arp.netArpWaitPacketIp = 0
  | _ => True

structure Describes (s : Host) (q : Request) : Prop where
  ip : q.ip = s.arp.netArpWaitPacketIp
  frame : q.frame = slice s.netTxPacket 0 s.arp.arpWaitTxPacketSize
  ether : q.ether = s.arp.arpWaitPacketEthaddr
  dst : load32 s.netTxPacket (netEthHdrSize s + 16) = q.ip
  size : netEthHdrSize s + 28 ≤ s.arp.arpWaitTxPacketSize

def OneRequest (s : Host) (last : Option Request) : Prop :=
  s.arp.netArpWaitPacketIp ≠ 0 → ∃ q, last = some q ∧ Describes s q

theorem netEthHdrSize_ge (s : Host) : 14 ≤ netEthHdrSize s := by
  unfold netEthHdrSize
  split <;> omega

theorem OneRequest.pingSend {s : Host} {last : Option Request}
    (hsep : RequestOp.pingSend.Separate s) :
    OneRequest (pingSend s) ((RequestOp.pingSend.request s).or last) := by
  obtain ⟨b, ip, r, arp, he, hl, hh, -⟩ := pingSend_eq s
  have hip := hl.hdrSize
  subst hip
  intro hw
  refine ⟨_, rfl, ?_⟩
  rw [he] at hw ⊢
  have hnone : s.arp.arpWaitPacketEthaddr = none := hsep.resolve_left hw
  exact ⟨rfl, rfl, hnone.symm, hh.dst, Nat.le_refl _⟩

theorem OneRequest.netSendUdpPacket {s : Host} {last : Option Request} {ether : Nat}
    {dest : UInt32} {dport sport len : Nat}
    (hsep : (RequestOp.netSendUdpPacket ether dest dport sport len).Separate s) :
    OneRequest (netSendUdpPacket s ether dest dport sport len)
      (((RequestOp.netSendUdpPacket ether dest dport sport len).request s).or last) := by
  have he := netSendUdpPacket_built s ether dest dport sport len
  have hdst := udpPacket_dst s ether dest dport sport len
  intro hw
  by_cases hm : udpMac s ether dest = netNullEthaddr
  · obtain ⟨r, arp, hr, -⟩ := arpRequest_eq { s with
      netTxPacket := udpPacket s ether dest dport sport len
      netIpId := s.netIpId + 1
      timerReads := s.timerReads + 1
      arp := { s.arp with
        netArpWaitPacketIp := udpDest dest
        arpWaitPacketEthaddr := some ether
        arpWaitTxPacketSize := netEthHdrSize s + 28 + len
        arpWaitTry := 1
        arpWaitTimerStart := (getTimer s 0).1 } }
    rw [if_pos hm, hr] at he
    simp only [RequestOp.request, hm, if_true, he, Option.some_or]
    exact ⟨_, rfl, rfl, rfl, rfl, hdst, Nat.le_add_right _ _⟩
  · rw [if_neg hm] at he
    rw [he] at hw
    exact absurd (hsep.resolve_left hm) hw

theorem OneRequest.rx {s : Host} {last : Option Request} (h : OneRequest s last) (f : Frame) :
    OneRequest (netProcessReceivedPacket s f) last := by
  rcases rx_cases s f with ⟨arp, len, -, he⟩ | hother
  · rw [he]
    intro hw
    simp at hw
  · obtain ⟨st, es, he, -⟩ := hother.eq
    rw [he]
    intro hw
    obtain ⟨q, hq, hd⟩ := h hw
    exact ⟨q, hq, { hd with }⟩

theorem OneRequest.tick {s : Host} {last : Option Request} (h : OneRequest s last) :
    OneRequest (arpTimeoutCheck s).2 last := by
  have ht := arpTimeoutCheck_cases s
  generalize (arpTimeoutCheck s).2 = s' at ht
  intro hw
  cases ht with
  | idle => exact h hw
  | waiting =>
    obtain ⟨q, hq, hd⟩ := h hw
    exact ⟨q, hq, { hd with }⟩
  | gaveUp =>
    obtain ⟨q, hq, hd⟩ := h hw
    exact ⟨q, hq, { hd with }⟩
  | asked tries t =>
    obtain ⟨r, arp, he, -⟩ := arpRequest_eq { s with
      timerReads := s.timerReads + 1
      arp := { s.arp with arpWaitTry := tries, arpWaitTimerStart := t } }
    rw [he] at hw ⊢
    obtain ⟨q, hq, hd⟩ := h hw
    exact ⟨q, hq, { hd with }⟩

/-- A separate operation leaves one request in the wait variables. -/
theorem OneRequest.step {s : Host} {last : Option Request} (h : OneRequest s last) (op : RequestOp)
    (hsep : op.Separate s) : OneRequest (op.apply s) ((op.request s).or last) := by
  cases op with
  | pingSend => exact .pingSend hsep
  | netSendUdpPacket ether dest dport sport len => exact .netSendUdpPacket hsep
  | netProcessReceivedPacket f => exact h.rx f
  | arpTimeoutCheck => exact h.tick

/-- By induction on the steps. -/
theorem OneRequest.run {s0 s : Host} {last : Option Request}
    (hr : RequestRun (fun s op => op.Separate s) s0 s last) (h0 : s0.arp.netArpWaitPacketIp = 0) :
    OneRequest s last := by
  induction hr with
  | start =>
    intro hw
    exact absurd h0 hw
  | step _ op hsep ih => exact ih.step op hsep

theorem arpMatched_ethaddrs (s : Host) (et : Buf) (arp : Nat) (len : Int) :
    (arpMatched s et arp len).ethaddrs = fun p =>
      if s.arp.arpWaitPacketEthaddr = some p then loadVec 6 et (arp + 8) else s.ethaddrs p := by
  funext p
  unfold arpMatched
  cases h : s.arp.arpWaitPacketEthaddr with
  | none => rfl
  | some q => simp [netSendPacket, Host.log, eq_comm]

/-- Reading a slice as a packet again. -/
theorem load32_ofList_slice {b : Buf} {o n : Nat} (h : o + 4 ≤ n) :
    load32 (ofList (slice b 0 n)) o = load32 b o :=
  load32_congr (fun i hi => by
    have hlt : o + i < n := by omega
    simp [ofList, slice, hlt])

/-- In a run that keeps its requests separate a matching reply serves the call
that waits for it, in both respects. -/
theorem requests_kept_apart (s0 s : Host) (last : Option Request)
    (h0 : s0.arp.netArpWaitPacketIp = 0)
    (hr : RequestRun (fun s op => op.Separate s) s0 s last) :
    SendsOwnFrame s last ∧ StoresOwnMac s last := by
  have hone := OneRequest.run hr h0
  constructor
  · intro f arp len ha
    obtain ⟨q, hq, hd⟩ := hone ha.1
    have hge := netEthHdrSize_ge s
    have hsize := hd.size
    refine ⟨q, hq, hd.ip, ?_, ?_⟩
    · rw [hd.frame, load32_ofList_slice (by omega), hd.dst]
    · rw [rx_awaited ha, Host.txSends, arpMatched_trace, slice_storeVec _ _ (by omega), ← hd.frame,
        List.filterMap_append]
      rfl
  · intro f arp len ha
    obtain ⟨q, hq, hd⟩ := hone ha.1
    exact ⟨q, hq, by rw [rx_awaited ha, arpMatched_ethaddrs, hd.ether]⟩

def pingThenDatagram : List RequestOp :=
  [.pingSend, .netProcessReceivedPacket arpReplyFrame, .netSendUdpPacket 5 0x0964a8c0 7 7 0]

theorem requests_kept_apart_twice :
    ∃ q, q.ip = 0x0964a8c0 ∧ q.ether = some 5 ∧
      SendsOwnFrame (pingThenDatagram.foldl RequestOp.apply idleHost) (some q) ∧
      StoresOwnMac (pingThenDatagram.foldl RequestOp.apply idleHost) (some q) := by
  have hreq : ((RequestOp.netSendUdpPacket 5 0x0964a8c0 7 7 0).request
      ((pingThenDatagram.take 2).foldl RequestOp.apply idleHost)).map (fun q => (q.ip, q.ether)) =
        some (0x0964a8c0, some 5) := by decide +kernel
  obtain ⟨q, hq, hfields⟩ := Option.map_eq_some_iff.mp hreq
  obtain ⟨hip, hether⟩ := Prod.mk.inj hfields
  have hping := RequestRun.step (@RequestRun.start (fun s op => op.Separate s) idleHost) .pingSend
    (Or.inr (by decide))
  have hdatagram := (hping.step (.netProcessReceivedPacket arpReplyFrame) trivial).step
    (.netSendUdpPacket 5 0x0964a8c0 7 7 0) (Or.inl (by decide +kernel))
  have hkept := requests_kept_apart idleHost _ _ (by decide) hdatagram
  simp only [pingThenDatagram, List.take_succ_cons, List.take_zero, List.foldl_cons,
    List.foldl_nil] at hq ⊢
  rw [hq, Option.some_or] at hkept
  exact ⟨q, hip, hether, hkept⟩

/-- A datagram to a known MAC over the parked echo request: the ARP reply sends
the datagram once more. A datagram waiting for its MAC when a ping starts: the
MAC of the pinged host is stored as that of the datagram's destination. -/
theorem requests_mixed_up :
    (¬ ∀ (s0 s : Host) (last : Option Request), s0.arp.netArpWaitPacketIp = 0 →
        RequestRun (fun _ _ => True) s0 s last → SendsOwnFrame s last) ∧
    (¬ ∀ (s0 s : Host) (last : Option Request), s0.arp.netArpWaitPacketIp = 0 →
        RequestRun (fun _ _ => True) s0 s last → StoresOwnMac s last) := by
  constructor
  · intro h
    have hrun := RequestRun.step (.step (@RequestRun.start (fun _ _ => True)
      { idleHost with ethaddrs := fun _ => Vector.replicate 6 9 }) .pingSend trivial)
      (.netSendUdpPacket 0 0x0964a8c0 7 7 0) trivial
    obtain ⟨q, hq, -, -, hsent⟩ := h _ _ _ (by decide) hrun arpReplyFrame 14 28
      ⟨by decide +kernel, by decide +kernel, by decide +kernel, by decide +kernel,
        by decide +kernel⟩
    cases hq
    -- the protocol field of the frame sent last
    have hproto := congrArg (fun l => (l.getLastD []).getD 23 0) hsent
    revert hproto
    decide +kernel
  · intro h
    have hrun := RequestRun.step (.step (@RequestRun.start (fun _ _ => True) idleHost)
      (.netSendUdpPacket 5 0x0964a8c0 7 7 0) trivial) .pingSend trivial
    obtain ⟨q, hq, hstored⟩ := h _ _ _ (by decide) hrun arpReplyFrame 14 28
      ⟨by decide +kernel, by decide +kernel, by decide +kernel, by decide +kernel,
        by decide +kernel⟩
    cases hq
    have hstored5 := congrFun hstored 5
    revert hstored5
    decide +kernel

end EmacDriver
