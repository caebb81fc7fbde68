import EmacDriver.Proofs.Packets

namespace EmacDriver
open Bytes

structure ArpReplyFrom (conf : NetConf) (ip : UInt32) (f : Frame) (arp : Nat) (len : Int) :
    Prop where
  call : rxCall conf f.inPacket f.len = .arpReceive arp len
  accepted : arpAccepted conf f.inPacket arp len = true
  op : ntohs (load16 f.inPacket (arp + 6)) = 2
  spa : load32 f.inPacket (arp + 14) = ip

def Awaited (s : Host) (f : Frame) (arp : Nat) (len : Int) : Prop :=
  s.arp.netArpWaitPacketIp ≠ 0 ∧ ArpReplyFrom s.conf s.arp.netArpWaitReplyIp f arp len

inductive RxOther (s : Host) (f : Frame) : Host → Prop where
  | ignored : RxOther s f s
  | answered (frame : List UInt8) : RxOther s f (s.log (.ethSend .inPacket frame))
  | delivered (pkt dport : Nat) (sip : UInt32) (sport len : Nat) :
      RxOther s f (s.log (.udpHandler s.hand.udpPacketHandler f.inPacket pkt dport sip sport len))
  | pong (ip : Nat) (l : Int) (src : UInt32)
      (call : rxCall s.conf f.inPacket f.len = .receiveIcmp ip l src)
      (type : f.inPacket (ip + 20) = 0) (pinged : load32 f.inPacket (ip + 12) = s.conf.netPingIp) :
      RxOther s f (netSetState (s.log (.echoReply f.inPacket ip)) .netloopSuccess)

def Event.txSend : Event → Option (List UInt8)
  | .ethSend .netTxPacket frame => some frame
  | _ => none

def Host.txSends (s : Host) : List (List UInt8) := s.trace.filterMap Event.txSend

@[simp] theorem txSends_log (s : Host) (e : Event) :
    (s.log e).txSends = s.txSends ++ (e.txSend).toList := by
  simp only [Host.txSends, Host.log, List.filterMap_append]
  cases h : e.txSend <;> simp [h]

/-- Such a frame leaves everything but `net_state` as it was, and sends nothing
from `net_tx_packet`. -/
theorem RxOther.eq {s s' : Host} {f : Frame} (h : RxOther s f s') :
    ∃ st es, s' = { s with loop := { s.loop with netState := st }, trace := s.trace ++ es } ∧
      es.filterMap Event.txSend = [] := by
  cases h with
  | ignored => exact ⟨s.loop.netState, [], by simp, rfl⟩
  | answered frame => exact ⟨s.loop.netState, [.ethSend .inPacket frame], rfl, rfl⟩
  | delivered pkt dport sip sport len => exact ⟨s.loop.netState, [_], rfl, rfl⟩
  | pong ip l src call type pinged => exact ⟨.netloopSuccess, [_], rfl, rfl⟩

/-- The awaited reply is the only frame that is matched. -/
theorem rx_awaited {s : Host} {f : Frame} {arp : Nat} {len : Int} (h : Awaited s f arp len) :
    netProcessReceivedPacket s f = arpMatched s f.inPacket arp len := by
  obtain ⟨hw, hr⟩ := h
  simp [netProcessReceivedPacket, hr.call, arpReceive, hr.accepted, hr.op, hr.spa, hw]

theorem arpReceive_other {s : Host} {f : Frame} {arp : Nat} {len : Int}
    (hc : rxCall s.conf f.inPacket f.len = .arpReceive arp len)
    (hn : ¬ Awaited s f arp len) : RxOther s f (arpReceive s f.inPacket arp len) := by
  unfold arpReceive
  split
  · rename_i ha
    split
    · exact .answered _
    · split
      · rename_i hop
        split
        · exact .ignored
        · rename_i hw
          split
          · rename_i hspa
            exact absurd ⟨hw, hc, ha, hop, hspa⟩ hn
          · exact .ignored
      · exact .ignored
  · exact .ignored

/-- No other frame touches the wait. -/
theorem rx_other {s : Host} {f : Frame} (hn : ∀ arp len, ¬ Awaited s f arp len) :
    RxOther s f (netProcessReceivedPacket s f) := by
  unfold netProcessReceivedPacket
  split
  · exact .ignored
  · rename_i arp len hc
    exact arpReceive_other hc (hn arp len)
  · rename_i ip len src hc
    unfold receiveIcmp pingReceive
    split
    · exact .ignored
    · split
      · rename_i ht
        split
        · rename_i hp
          exact .pong ip len src hc ht hp
        · exact .ignored
      · split
        · exact .answered _
        · exact .ignored
  · exact .delivered _ _ _ _ _

/-- Either the awaited reply, which ends the wait, or any other frame. -/
theorem rx_cases (s : Host) (f : Frame) :
    (∃ arp len, Awaited s f arp len ∧
      netProcessReceivedPacket s f = arpMatched s f.inPacket arp len) ∨
    RxOther s f (netProcessReceivedPacket s f) := by
  by_cases h : ∃ arp len, Awaited s f arp len
  · obtain ⟨arp, len, ha⟩ := h
    exact Or.inl ⟨arp, len, ha, rx_awaited ha⟩
  · exact Or.inr (rx_other (fun arp len ha => h ⟨arp, len, ha⟩))

@[simp] theorem arpMatched_conf (s : Host) (et : Buf) (arp : Nat) (len : Int) :
    (arpMatched s et arp len).conf = s.conf := by
  unfold arpMatched
  split <;> rfl

@[simp] theorem arpMatched_arp (s : Host) (et : Buf) (arp : Nat) (len : Int) :
    (arpMatched s et arp len).arp = { s.arp with
      netArpWaitPacketIp := 0, arpWaitTxPacketSize := 0, arpWaitPacketEthaddr := none } := by
  unfold arpMatched
  split <;> rfl

/-- The one place that sends `net_tx_packet` for a waiting packet. -/
theorem arpMatched_trace (s : Host) (et : Buf) (arp : Nat) (len : Int) :
    (arpMatched s et arp len).trace = s.trace ++
      [.arpHandler s.hand.arpPacketHandler et arp (load32 et (arp + 14)) len,
       .ethSend .netTxPacket (slice (storeVec s.netTxPacket 0 (loadVec 6 et (arp + 8))) 0
        s.arp.arpWaitTxPacketSize)] := by
  unfold arpMatched
  split <;> simp [netSendPacket, Host.log]

/-- `arp_request` writes its own buffer, sends it, and notes whom it asked. -/
theorem arpRequest_eq (s : Host) :
    ∃ b arp, arpRequest s =
        ({ s with arp := { s.arp with
            netArpWaitReplyIp := arpReplyIp s.conf s.arp.netArpWaitPacketIp
            arpTxPacket := b } }).log (.ethSend .arpTxPacket (slice b 0 (arp + 28))) ∧
      LinkHdr s.conf.netOurVlan b 0x0806 arp ∧
      ArpHdr b arp 1 s.netEthaddr s.conf.netIp (arpReplyIp s.conf s.arp.netArpWaitPacketIp) :=
  arpRawRequest_hdr _ _ _ _

/-- The ARP timer: idle, still waiting, out of tries, or asking again. -/
inductive ArpTick (s : Host) : Host → Prop where
  | idle (free : s.arp.netArpWaitPacketIp = 0) : ArpTick s s
  | waiting : ArpTick s { s with timerReads := s.timerReads + 1 }
  | gaveUp : ArpTick s (netSetState
      { s with timerReads := s.timerReads + 1, arp := { s.arp with arpWaitTry := 0 } } .netloopFail)
  | asked (tries : Int) (t : UInt64) : ArpTick s (arpRequest { s with
      timerReads := s.timerReads + 1
      arp := { s.arp with arpWaitTry := tries, arpWaitTimerStart := t } })

/-- What a look at the ARP timer can do. -/
theorem arpTimeoutCheck_cases (s : Host) : ArpTick s (arpTimeoutCheck s).2 := by
  by_cases hw : s.arp.netArpWaitPacketIp = 0
  · simp only [arpTimeoutCheck, hw, if_true]
    exact .idle hw
  · by_cases ht : UInt64.ofInt (runtimeTick (s.hw.readTimer s.timerReads)) - 0 -
        s.arp.arpWaitTimerStart > 5000
    · by_cases hn : s.arp.arpWaitTry + 1 ≥ 5
      · simp only [arpTimeoutCheck, hw, getTimer, ht, hn, if_true, if_false]
        exact .gaveUp
      · simp only [arpTimeoutCheck, hw, getTimer, ht, hn, if_true, if_false]
        exact .asked _ _
    · simp only [arpTimeoutCheck, hw, getTimer, ht, if_false]
      exact .waiting

/-- Everything `ping_send` leaves behind. -/
theorem pingSend_eq (s : Host) :
    ∃ b ip r arp, pingSend s =
        ({ s with
            netTxPacket := b
            netIpId := s.netIpId + 1
            pingSeqNumber := s.pingSeqNumber + 1
            timerReads := s.timerReads + 1
            arp := {
              netArpWaitPacketIp := s.conf.netPingIp
              netArpWaitReplyIp := arpReplyIp s.conf s.conf.netPingIp
              arpWaitPacketEthaddr := s.arp.arpWaitPacketEthaddr
              arpWaitTxPacketSize := ip + 28
              arpWaitTimerStart := (getTimer s 0).1
              arpWaitTry := 1
              arpTxPacket := r } }).log (.ethSend .arpTxPacket (slice r 0 (arp + 28))) ∧
      LinkHdr s.conf.netOurVlan b 0x0800 ip ∧
      EchoHdr b ip 8 s.conf.netIp s.conf.netPingIp ∧
      LinkHdr s.conf.netOurVlan r 0x0806 arp ∧
      ArpHdr r arp 1 s.netEthaddr s.conf.netIp (arpReplyIp s.conf s.conf.netPingIp) := by
  let s1 : Host := { s with arp := { s.arp with netArpWaitPacketIp := s.conf.netPingIp } }
  have hlink := netSetEther_link s1 s.netTxPacket netNullEthaddr 0x0800 (by omega)
  obtain ⟨hecho, hsame, -⟩ := setIcmpHeader_hdr s1 (netSetEther s1 s.netTxPacket netNullEthaddr
    0x0800).1 (netSetEther s1 s.netTxPacket netNullEthaddr 0x0800).2 s.conf.netPingIp
  obtain ⟨r, arp, he, hl, ha⟩ := arpRequest_eq
    { s1 with
      netTxPacket := _, netIpId := s.netIpId + 1, pingSeqNumber := s.pingSeqNumber + 1
      timerReads := s.timerReads + 1
      arp := { s1.arp with
        arpWaitTxPacketSize := _, arpWaitTry := 1, arpWaitTimerStart := (getTimer s 0).1 } }
  exact ⟨_, _, r, arp, he, hlink.same (fun i _ hi => hsame i (by omega) hi) (Nat.le_refl _), hecho,
    hl, ha⟩

/-- The address a datagram goes to: 0 means broadcast. -/
def udpDest (dest : UInt32) : UInt32 := if dest = 0 then 0xffffffff else dest

/-- The MAC address `net_send_udp_packet` finds; the null one is looked up first. -/
def udpMac (s : Host) (ether : Nat) (dest : UInt32) : Mac :=
  if udpDest dest = 0xffffffff then netBcastEthaddr else s.ethaddrs ether

def udpPacket (s : Host) (ether : Nat) (dest : UInt32) (dport sport len : Nat) : Buf :=
  (netSetUdpHeader s (netSetEther s s.netTxPacket (udpMac s ether dest) 0x0800).1
    (netEthHdrSize s) (udpDest dest) dport sport len).1

theorem udpPacket_dst (s : Host) (ether : Nat) (dest : UInt32) (dport sport len : Nat) :
    load32 (udpPacket s ether dest dport sport len) (netEthHdrSize s + 16) = udpDest dest :=
  (netSetUdpHeader_hdr s _ (netEthHdrSize s) (udpDest dest) dport sport len).1

/-- The datagram is built over `net_tx_packet`, whatever becomes of it then. -/
theorem netSendUdpPacket_built (s : Host) (ether : Nat) (dest : UInt32) (dport sport len : Nat) :
    netSendUdpPacket s ether dest dport sport len =
      (if udpMac s ether dest = netNullEthaddr then
        arpRequest { s with
          netTxPacket := udpPacket s ether dest dport sport len
          netIpId := s.netIpId + 1
          timerReads := s.timerReads + 1
          arp := { s.arp with
            netArpWaitPacketIp := udpDest dest
            arpWaitPacketEthaddr := some ether
            arpWaitTxPacketSize := netEthHdrSize s + 28 + len
            arpWaitTry := 1
            arpWaitTimerStart := (getTimer s 0).1 } }
      else
        ({ s with
          netTxPacket := udpPacket s ether dest dport sport len
          netIpId := s.netIpId + 1 }).log
        (.ethSend .netTxPacket
          (slice (udpPacket s ether dest dport sport len) 0 (netEthHdrSize s + 28 + len)))) := by
  have hsize := (netSetEther_link s s.netTxPacket (udpMac s ether dest) 0x0800 (by omega)).hdrSize
  unfold udpPacket
  rw [← hsize]
  rfl

end EmacDriver
