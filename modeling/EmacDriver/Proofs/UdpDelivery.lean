import EmacDriver.Proofs.PingExchange

namespace EmacDriver
open Bytes

structure UdpHdr (b : Buf) (ip : Nat) (src dst : UInt32) (sport dport len : Nat) : Prop where
  hl_v : b ip = 0x45
  ipLen : ipLen b ip = 28 + len
  whole : swap16 (load16 b (ip + 6)) &&& 0x3fff = 0
  proto : b (ip + 9) = 17
  sum : ipChecksumOk b ip 20 = true
  src : load32 b (ip + 12) = src
  dst : load32 b (ip + 16) = dst
  sport : ntohs (load16 b (ip + 20)) = sport
  dport : ntohs (load16 b (ip + 22)) = dport
  udpLen : ntohs (load16 b (ip + 24)) = 8 + len

theorem UdpHdr.same {b c : Buf} {ip m n sport dport len : Nat} {src dst : UInt32}
    (hu : UdpHdr b ip src dst sport dport len) (hs : Same m n b c) (hm : m ≤ ip)
    (hn : ip + 28 ≤ n) : UdpHdr c ip src dst sport dport len where
  hl_v := by rw [hs ip (by omega) (by omega)]; exact hu.hl_v
  ipLen := by unfold EmacDriver.ipLen; rw [hs.load16 (by omega) (by omega)]; exact hu.ipLen
  whole := by rw [hs.load16 (by omega) (by omega)]; exact hu.whole
  proto := by rw [hs (ip + 9) (by omega) (by omega)]; exact hu.proto
  sum := by
    rw [ipChecksumOk_congr (by omega) (fun i _ _ => hs i (by omega) (by omega))]
    exact hu.sum
  src := by rw [hs.load32 (by omega) (by omega)]; exact hu.src
  dst := by rw [hs.load32 (by omega) (by omega)]; exact hu.dst
  sport := by rw [hs.load16 (by omega) (by omega)]; exact hu.sport
  dport := by rw [hs.load16 (by omega) (by omega)]; exact hu.dport
  udpLen := by rw [hs.load16 (by omega) (by omega)]; exact hu.udpLen

/-- The addressee takes it, and so does every host if it is broadcast and a host
that has no address yet. -/
theorem UdpHdr.accepted {conf : NetConf} {b : Buf} {ip sport dport len : Nat} {src dst : UInt32}
    {room : Int} (hu : UdpHdr b ip src dst sport dport len) (hr : 28 + len ≤ room)
    (hmax : room < 2147483648) (hd : conf.netIp = dst ∨ dst = 0xffffffff ∨ conf.netIp = 0) :
    IpAccepted conf b ip room where
  room := by rw [toSize_of_range (by omega) hmax]; omega
  fits := by rw [hu.ipLen]; omega
  version := by rw [hu.hl_v]; decide
  ihl := by rw [hu.hl_v]; decide
  sum := hu.sum
  dst := by
    rw [hu.dst]
    rintro ⟨hip, hne, hb⟩
    rcases hd with h | h | h
    · exact hne h.symm
    · exact hb h
    · exact hip h
  whole := hu.whole

/-- The handler gets the ports and the payload of the header. -/
theorem UdpHdr.call {b : Buf} {ip sport dport len : Nat} {src dst : UInt32}
    (hu : UdpHdr b ip src dst sport dport len) (hlen : len < 65528) :
    ipCall b ip = .udpPacketHandler (ip + 28) dport src sport len := by
  have hp : ¬ b (ip + 9) = 1 := by
    rw [hu.proto]
    decide
  have hsize : toUnsigned (toSize (((8 + len : Nat) : Int) - 8)) = len := by
    rw [toSize_of_range (by omega) (by omega), toUnsigned_of_range (by omega) (by omega)]
    omega
  rw [ipCall, if_neg hp, if_neg (not_not_intro hu.proto), hu.dport, hu.src, hu.sport, hu.udpLen,
    hsize]

/-- The payload was there before: the header ends in front of it, and the zero
byte that pads an odd one stands behind it. -/
theorem netSetUdpHeader_udp (s : Host) (b : Buf) (pkt : Nat) (dest : UInt32)
    (dport sport len : Nat) (hd : dport < 65536) (hs : sport < 65536) (hl : 28 + len < 65536) :
    UdpHdr (netSetUdpHeader s b pkt dest dport sport len).1 pkt s.conf.netIp dest sport dport len ∧
      ∀ i < len, (netSetUdpHeader s b pkt dest dport sport len).1 (pkt + 28 + i) =
        b (pkt + 28 + i) := by
  refine ⟨?hdr, fun i hi => ?payload⟩
  case payload =>
    simp only [netSetUdpHeader, netSetIpHeader]
    simp (disch := omega) only [patch_off]
    split
    · exact patch_off (by omega)
    · rfl
  case hdr =>
    simp only [netSetUdpHeader, netSetIpHeader]
    constructor
    · simp (disch := omega) only [patch_off, store8_same]
    · unfold EmacDriver.ipLen
      simp (disch := omega) only [load16_patch_off, load16_store16]
      exact ntohs_htons hl
    · simp (disch := omega) only [load16_patch_off, load16_store16]
      decide
    · simp (disch := omega) only [patch_off, store8_same]
    · generalize hc : store8 (store16 _ (pkt + 2) (htons (28 + len))) (pkt + 9) 17 = c
      have hz : load16 c (pkt + 2 * 5) = 0 := by
        subst hc
        simp (disch := omega) only [load16_patch_off, load16_store16]
      rw [← ipChecksumOk_store c pkt 20 5 (by omega) (by omega) hz]
      apply ipChecksumOk_congr (by omega)
      intro i hi hi'
      simp (disch := omega) only [patch_off]
    · simp (disch := omega) only [load32_patch_off, load32_store32]
    · simp (disch := omega) only [load32_patch_off, load32_store32]
    · simp (disch := omega) only [load16_patch_off, load16_store16]
      exact ntohs_htons hs
    · simp (disch := omega) only [load16_patch_off, load16_store16]
      exact ntohs_htons hd
    · simp (disch := omega) only [load16_patch_off, load16_store16]
      exact ntohs_htons (by omega)

/-- Link header, UDP header and payload of what is built. -/
theorem udpPacket_hdr (s : Host) (ether : Nat) (dest : UInt32) (dport sport len : Nat)
    (hd : dport < 65536) (hs : sport < 65536) (hl : 28 + len < 65536) :
    LinkHdr s.conf.netOurVlan (udpPacket s ether dest dport sport len) 0x0800 (netEthHdrSize s) ∧
      UdpHdr (udpPacket s ether dest dport sport len) (netEthHdrSize s) s.conf.netIp
        (udpDest dest) sport dport len ∧
      ∀ i < len, udpPacket s ether dest dport sport len (netEthHdrSize s + 28 + i) =
        s.netTxPacket (netEthHdrSize s + 28 + i) := by
  have hlink := netSetEther_link s s.netTxPacket (udpMac s ether dest) 0x0800 (by omega)
  have hbehind := netSetEther_behind s s.netTxPacket (udpMac s ether dest) 0x0800
  have hsize := hlink.hdrSize
  rw [hsize] at hlink hbehind
  unfold udpPacket
  generalize (netSetEther s s.netTxPacket (udpMac s ether dest) 0x0800).1 = b at *
  obtain ⟨-, hsame, -⟩ :=
    netSetUdpHeader_hdr s b (netEthHdrSize s) (udpDest dest) dport sport len
  obtain ⟨hudp, hpayload⟩ :=
    netSetUdpHeader_udp s b (netEthHdrSize s) (udpDest dest) dport sport len hd hs hl
  refine ⟨hlink.same (fun i _ hi => hsame i (by omega) hi) (Nat.le_refl _), hudp, ?_⟩
  intro i hi
  rw [hpayload i hi, hbehind _ (by omega)]

def pktsizeAlign : Nat := 1536

/-- A datagram sent with a known destination MAC reaches the handler of every
host it is for, once and with the sender's payload. -/
theorem udp_delivered (A B : Host) (ether : Nat) (dest : UInt32) (dport sport len : Nat)
    (hmac : A.ethaddrs ether ≠ netNullEthaddr) (hd : dport < 65536) (hs : sport < 65536)
    (hfit : netEthHdrSize A + 28 + len ≤ pktsizeAlign)
    (hvlan : B.conf.netOurVlan = A.conf.netOurVlan)
    (hip : B.conf.netIp = udpDest dest ∨ udpDest dest = 0xffffffff ∨ B.conf.netIp = 0) :
    ∃ frame, (netSendUdpPacket A ether dest dport sport len).trace =
        A.trace ++ [.ethSend .netTxPacket frame] ∧
      frame.length = netEthHdrSize A + 28 + len ∧
    ∀ f, Delivers frame f →
    ∃ pkt, (netProcessReceivedPacket B f).trace = B.trace ++
        [.udpHandler B.hand.udpPacketHandler f.inPacket pkt dport A.conf.netIp sport len] ∧
      slice f.inPacket pkt len = slice A.netTxPacket (netEthHdrSize A + 28) len := by
  unfold pktsizeAlign at hfit
  obtain ⟨hlink, hudp, hpayload⟩ :=
    udpPacket_hdr A ether dest dport sport len hd hs (by omega)
  have hknown : udpMac A ether dest ≠ netNullEthaddr := by
    unfold udpMac
    split
    · decide
    · exact hmac
  have hsent := netSendUdpPacket_built A ether dest dport sport len
  rw [if_neg hknown] at hsent
  generalize udpPacket A ether dest dport sport len = b at *
  refine ⟨slice b 0 (netEthHdrSize A + 28 + len), by rw [hsent]; rfl, length_slice _ _ _, ?_⟩
  intro f hf
  have hsame := hf.same
  have hlen : ((netEthHdrSize A + 28 + len : Nat) : Int) ≤ f.len := by simpa using hf.len
  have hrange := hf.range
  have hlink' : LinkHdr B.conf.netOurVlan f.inPacket 0x0800 (netEthHdrSize A) := by
    rw [hvlan]
    exact hlink.same (fun i _ hi => hsame i (by omega) hi) (by omega)
  have hudp' := hudp.same hsame (by omega) (by omega)
  have hacc : IpAccepted B.conf f.inPacket (netEthHdrSize A) (f.len - netEthHdrSize A) :=
    hudp'.accepted (by omega) (by omega) hip
  have hcall : rxCall B.conf f.inPacket f.len =
      .udpPacketHandler (netEthHdrSize A + 28) dport A.conf.netIp sport len := by
    simp [rxCall, rxLink_of_link hlink' (by omega) (by omega) (by omega) hrange,
      rxIp_of_accepted hacc, hudp'.call (by omega)]
  refine ⟨netEthHdrSize A + 28, ?_, ?_⟩
  · simp [netProcessReceivedPacket, hcall, Host.log]
  · apply List.ext_getElem
    · simp
    · intro i hi hi'
      rw [length_slice] at hi
      rw [getElem_slice, getElem_slice, hsame _ (by omega) (by omega), hpayload i hi]

/-- Five bytes from `idleHost`, which knows one MAC address, to port 69 of a
host in its VLAN that has no address yet. -/
theorem udp_delivered_unaddressed :
    ∃ frame f pkt, Delivers frame f ∧
      (netSendUdpPacket { idleHost with ethaddrs := fun _ => Vector.replicate 6 4 }
        0 0x0364a8c0 69 1024 5).trace = [.ethSend .netTxPacket frame] ∧
      (netProcessReceivedPacket { idleHost with conf := { plainConf with netIp := 0 } } f).trace =
        [.udpHandler (some .dummyHandler) f.inPacket pkt 69 0x1664a8c0 1024 5] := by
  obtain ⟨frame, hsent, hlen, hrx⟩ := udp_delivered
    { idleHost with ethaddrs := fun _ => Vector.replicate 6 4 }
    { idleHost with conf := { plainConf with netIp := 0 } } 0 0x0364a8c0 69 1024 5
    (by decide) (by decide) (by decide) (by decide) rfl (Or.inr (Or.inr rfl))
  have hlt : netEthHdrSize { idleHost with ethaddrs := fun _ => Vector.replicate 6 4 } < 64 := by
    decide
  have hd : Delivers frame (received frame) := delivers_received (by omega)
  obtain ⟨pkt, htrace, -⟩ := hrx (received frame) hd
  exact ⟨frame, received frame, pkt, hd, hsent, htrace⟩

end EmacDriver
