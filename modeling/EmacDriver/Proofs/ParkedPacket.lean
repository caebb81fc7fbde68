import EmacDriver.Proofs.ArpWait
import EmacDriver.Proofs.ReceiveBounds

namespace EmacDriver
open Bytes

inductive WaitOp where
  | netProcessReceivedPacket (f : Frame)
  | arpTimeoutCheck

def WaitOp.apply (s : Host) : WaitOp → Host
  | .netProcessReceivedPacket f => EmacDriver.netProcessReceivedPacket s f
  | .arpTimeoutCheck => (EmacDriver.arpTimeoutCheck s).2

def runWait (s : Host) (ops : List WaitOp) : Host := ops.foldl WaitOp.apply s

def WaitOp.IsReplyFrom (conf : NetConf) (ip : UInt32) : WaitOp → Prop
  | .netProcessReceivedPacket f => ∃ arp len, ArpReplyFrom conf ip f arp len
  | .arpTimeoutCheck => False

/-- `s` still waits as `s0` did. Only the timer of the wait, the ARP transmit
buffer and the trace may have moved on. -/
structure StillWaiting (s0 s : Host) : Prop where
  conf : s.conf = s0.conf
  waitIp : s.arp.netArpWaitPacketIp = s0.arp.netArpWaitPacketIp
  replyIp : s.arp.netArpWaitReplyIp = s0.arp.netArpWaitReplyIp
  asked : s0.arp.netArpWaitReplyIp = arpReplyIp s0.conf s0.arp.netArpWaitPacketIp
  tx : s.netTxPacket = s0.netTxPacket
  size : s.arp.arpWaitTxPacketSize = s0.arp.arpWaitTxPacketSize
  sends : s.txSends = s0.txSends

/-- No frame but the awaited reply ends the wait. -/
theorem StillWaiting.rx {s0 s : Host} {f : Frame} (h : StillWaiting s0 s)
    (hn : ¬ (WaitOp.netProcessReceivedPacket f).IsReplyFrom s0.conf s0.arp.netArpWaitReplyIp) :
    StillWaiting s0 (netProcessReceivedPacket s f) := by
  have hother : RxOther s f (netProcessReceivedPacket s f) := rx_other (fun arp len ha =>
    hn ⟨arp, len, by rw [← h.conf, ← h.replyIp]; exact ha.2⟩)
  obtain ⟨st, es, he, hes⟩ := hother.eq
  rw [he]
  exact { h with sends := by simpa [Host.txSends, hes] using h.sends }

/-- A repeated request goes to the address asked before. -/
theorem StillWaiting.tick {s0 s : Host} (h : StillWaiting s0 s) :
    StillWaiting s0 (arpTimeoutCheck s).2 := by
  have ht := arpTimeoutCheck_cases s
  generalize (arpTimeoutCheck s).2 = s' at ht
  cases ht with
  | idle => exact h
  | waiting => exact { h with }
  | gaveUp => exact { h with }
  | asked tries t =>
    obtain ⟨b, arp, he, -⟩ := arpRequest_eq { s with
      timerReads := s.timerReads + 1
      arp := { s.arp with arpWaitTry := tries, arpWaitTimerStart := t } }
    rw [he]
    exact { h with
      replyIp := by simp [Host.log, h.conf, h.waitIp, h.asked]
      sends := by
        rw [txSends_log]
        exact (List.append_nil _).trans h.sends }

/-- By induction on the operations before the reply. -/
theorem StillWaiting.run {s0 s : Host} (h : StillWaiting s0 s) {ops : List WaitOp}
    (hn : ∀ op ∈ ops, ¬ op.IsReplyFrom s0.conf s0.arp.netArpWaitReplyIp) :
    StillWaiting s0 (runWait s ops) :=
  List.foldlRecOn ops WaitOp.apply h (fun _ hs op hop => by
    cases op with
    | netProcessReceivedPacket f => exact hs.rx (hn _ hop)
    | arpTimeoutCheck => exact hs.tick)

/-- Nothing waits any more, and `sends` are all the packets ever sent. -/
structure Settled (sends : List (List UInt8)) (s : Host) : Prop where
  free : s.arp.netArpWaitPacketIp = 0
  sends : s.txSends = sends

theorem Settled.rx {sends : List (List UInt8)} {s : Host} {f : Frame} (h : Settled sends s) :
    Settled sends (netProcessReceivedPacket s f) := by
  obtain ⟨st, es, he, hes⟩ := (rx_other (fun arp len ha => ha.1 h.free) : RxOther s f _).eq
  rw [he]
  exact ⟨h.free, by simpa [Host.txSends, hes] using h.sends⟩

theorem Settled.tick {sends : List (List UInt8)} {s : Host} (h : Settled sends s) :
    Settled sends (arpTimeoutCheck s).2 := by
  simpa [arpTimeoutCheck, h.free] using h

/-- Nothing is sent a second time, whatever still comes. -/
theorem Settled.run {sends : List (List UInt8)} {s : Host} (h : Settled sends s)
    (ops : List WaitOp) : Settled sends (runWait s ops) :=
  List.foldlRecOn ops WaitOp.apply h (fun _ hs op _ => by
    cases op with
    | netProcessReceivedPacket f => exact hs.rx
    | arpTimeoutCheck => exact hs.tick)

/-- The first reply sends what waits, addressed to its sender, and ends the wait. -/
theorem StillWaiting.reply {s0 s : Host} {f : Frame} {arp : Nat} {len : Int}
    (h : StillWaiting s0 s) (hw : s0.arp.netArpWaitPacketIp ≠ 0)
    (hs : 6 ≤ s0.arp.arpWaitTxPacketSize)
    (hr : ArpReplyFrom s0.conf s0.arp.netArpWaitReplyIp f arp len) :
    Settled (s0.txSends ++ [(loadVec 6 f.inPacket (arp + 8)).toList ++
        (slice s0.netTxPacket 0 s0.arp.arpWaitTxPacketSize).drop 6])
      (netProcessReceivedPacket s f) := by
  have ha : Awaited s f arp len := ⟨by rw [h.waitIp]; exact hw, by rw [h.conf, h.replyIp]; exact hr⟩
  rw [rx_awaited ha]
  constructor
  · simp
  · rw [Host.txSends, arpMatched_trace, h.tx, h.size, slice_storeVec _ _ hs,
      List.filterMap_append, ← Host.txSends, h.sends]
    rfl

theorem pingSend_waits (s : Host) : StillWaiting (pingSend s) (pingSend s) ∧
    (pingSend s).arp.netArpWaitPacketIp = s.conf.netPingIp ∧
    6 ≤ (pingSend s).arp.arpWaitTxPacketSize := by
  obtain ⟨b, ip, r, arp, he, -⟩ := pingSend_eq s
  rw [he]
  refine ⟨⟨rfl, rfl, rfl, rfl, rfl, rfl, rfl⟩, rfl, ?_⟩
  simp only [Host.log]
  omega

/-- Until the first reply of the host asked, the packet and its size stay and
nothing is sent; the reply sends it, with the destination filled in; and
whatever comes later, it is not sent again. `net_check_prereq` lets nothing start
without an address to ping. -/
theorem parked_packet (s : Host) (hping : s.conf.netPingIp ≠ 0) (ops : List WaitOp)
    (hn : ∀ op ∈ ops,
      ¬ op.IsReplyFrom (pingSend s).conf (pingSend s).arp.netArpWaitReplyIp) :
    (slice (runWait (pingSend s) ops).netTxPacket 0 (pingSend s).arp.arpWaitTxPacketSize =
        slice (pingSend s).netTxPacket 0 (pingSend s).arp.arpWaitTxPacketSize ∧
      (runWait (pingSend s) ops).arp.arpWaitTxPacketSize = (pingSend s).arp.arpWaitTxPacketSize ∧
      (runWait (pingSend s) ops).arp.netArpWaitReplyIp = (pingSend s).arp.netArpWaitReplyIp ∧
      (runWait (pingSend s) ops).txSends = (pingSend s).txSends) ∧
    ∀ f arp len, ArpReplyFrom (pingSend s).conf (pingSend s).arp.netArpWaitReplyIp f arp len →
      ∀ later, (runWait (pingSend s) (ops ++ .netProcessReceivedPacket f :: later)).txSends =
        (pingSend s).txSends ++ [(loadVec 6 f.inPacket (arp + 8)).toList ++
          (slice (pingSend s).netTxPacket 0 (pingSend s).arp.arpWaitTxPacketSize).drop 6] := by
  obtain ⟨h0, hwait, hsize⟩ := pingSend_waits s
  have h := h0.run hn
  refine ⟨⟨by rw [h.tx], h.size, h.replyIp, h.sends⟩, ?_⟩
  intro f arp len hr later
  have hsent := h.reply (by rw [hwait]; exact hping) hsize hr
  have hlater := (hsent.run later).sends
  rwa [runWait, List.foldl_append]

def arpReplyFrame : Frame where
  inPacket := ofList [2, 2, 2, 2, 2, 2, 0x50, 0x02, 0, 0, 0, 3, 0x08, 0x06,
    0, 1, 0x08, 0x00, 6, 4, 0, 2, 0x50, 0x02, 0, 0, 0, 3, 192, 168, 100, 3,
    2, 2, 2, 2, 2, 2, 192, 168, 100, 22]
  len := 42

/-- Sent once, although the reply comes twice. -/
theorem parked_packet_once :
    (runWait (pingSend idleHost)
      [.netProcessReceivedPacket arpReplyFrame, .netProcessReceivedPacket arpReplyFrame]).txSends =
      (pingSend idleHost).txSends ++ [(loadVec 6 arpReplyFrame.inPacket (14 + 8)).toList ++
        (slice (pingSend idleHost).netTxPacket 0
          (pingSend idleHost).arp.arpWaitTxPacketSize).drop 6] :=
  (parked_packet idleHost (by decide) [] (by simp)).2 arpReplyFrame 14 28
    ⟨by decide +kernel, by decide +kernel, by decide +kernel, by decide +kernel⟩
    [.netProcessReceivedPacket arpReplyFrame]

end EmacDriver
