import EmacDriver.Proofs.ArpWait
import EmacDriver.Proofs.ReceiveBounds

namespace EmacDriver
open Bytes

/-- The bytes sent stand at the start of the receiver's buffer. What follows
them, counted in `len` or not, is arbitrary. -/
structure Delivers (frame : List UInt8) (f : Frame) : Prop where
  len : frame.length ≤ f.len
  range : f.len < 2147483648
  bytes : ∀ (i : Nat) (h : i < frame.length), f.inPacket i = frame[i]

def ArpFrame (v : UInt16) (op : Nat) (sha : Mac) (spa tpa : UInt32) (frame : List UInt8) : Prop :=
  ∃ b h, LinkHdr v b 0x0806 h ∧ ArpHdr b h op sha spa tpa ∧ frame = slice b 0 (h + 28)

def EchoFrame (v : UInt16) (type : UInt8) (src dst : UInt32) (frame : List UInt8) : Prop :=
  ∃ b h, LinkHdr v b 0x0800 h ∧ EchoHdr b h type src dst ∧ frame = slice b 0 (h + 28)

theorem Delivers.same {b : Buf} {n : Nat} {f : Frame} (h : Delivers (slice b 0 n) f) :
    Same 0 n b f.inPacket := by
  intro i _ hi
  rw [h.bytes i (by simpa using hi), getElem_slice, Nat.zero_add]

theorem rxCall_of_arp {conf : NetConf} {f : Frame} {op : Nat} {sha : Mac} {spa tpa : UInt32}
    {frame : List UInt8} (ha : ArpFrame conf.netOurVlan op sha spa tpa frame)
    (hd : Delivers frame f) :
    ∃ arp len, LinkHdr conf.netOurVlan f.inPacket 0x0806 arp ∧
      ArpHdr f.inPacket arp op sha spa tpa ∧ 28 ≤ len ∧
      rxCall conf f.inPacket f.len = .arpReceive arp len := by
  obtain ⟨b, arp, hl, hh, rfl⟩ := ha
  have hs := hd.same
  have hlen : ((arp + 28 : Nat) : Int) ≤ f.len := by simpa using hd.len
  have hl' := hl.same (fun i _ hi => hs i (by omega) hi) (by omega)
  refine ⟨arp, f.len - arp, hl', hh.same hs (by omega) (by omega), by omega, ?_⟩
  simp [rxCall, rxLink_of_link hl' (by omega) (by omega) (by omega) hd.range]

theorem rxCall_of_echo {conf : NetConf} {f : Frame} {type : UInt8} {src dst : UInt32}
    {frame : List UInt8} (he : EchoFrame conf.netOurVlan type src dst frame)
    (hd : Delivers frame f) (hip : dst = conf.netIp) :
    ∃ ip, LinkHdr conf.netOurVlan f.inPacket 0x0800 ip ∧ EchoHdr f.inPacket ip type src dst ∧
      rxCall conf f.inPacket f.len = .receiveIcmp ip 28 src := by
  obtain ⟨b, ip, hl, hh, rfl⟩ := he
  have hs := hd.same
  have hlen : ((ip + 28 : Nat) : Int) ≤ f.len := by simpa using hd.len
  have hl' := hl.same (fun i _ hi => hs i (by omega) hi) (by omega)
  have hh' := hh.same hs (by omega) (by omega)
  have hrange := hd.range
  have hacc : IpAccepted conf f.inPacket ip (f.len - ip) :=
    hh'.accepted (by omega) (by omega) hip
  refine ⟨ip, hl', hh', ?_⟩
  simp [rxCall, rxLink_of_link hl' (by omega) (by omega) (by omega) hrange,
    rxIp_of_accepted hacc, hh'.call]

/-- A request for our address is answered with it, back to the asker. -/
theorem arp_request_answered (s : Host) {sha : Mac} {spa : UInt32} {frame : List UInt8} {f : Frame}
    (hip : s.conf.netIp ≠ 0) (ha : ArpFrame s.conf.netOurVlan 1 sha spa s.conf.netIp frame)
    (hd : Delivers frame f) :
    ∃ answer, netProcessReceivedPacket s f = s.log (.ethSend .inPacket answer) ∧
      ArpFrame s.conf.netOurVlan 2 s.netEthaddr s.conf.netIp spa answer := by
  obtain ⟨arp, len, hl, hh, hlen, hc⟩ := rxCall_of_arp ha hd
  obtain ⟨hl', hsize, hh'⟩ := arpReply_hdr s hl hh
  refine ⟨_, ?_, _, arp, hl', hh', rfl⟩
  simp [netProcessReceivedPacket, hc, arpReceive, hh.accepted hlen hip rfl, hh.op, netSendPacket,
    hsize]

/-- The reply of the host we asked is the awaited one. -/
theorem arp_reply_awaited (s : Host) {sha : Mac} {frame : List UInt8} {f : Frame}
    (hip : s.conf.netIp ≠ 0) (hw : s.arp.netArpWaitPacketIp ≠ 0)
    (ha : ArpFrame s.conf.netOurVlan 2 sha s.arp.netArpWaitReplyIp s.conf.netIp frame)
    (hd : Delivers frame f) :
    ∃ arp len, Awaited s f arp len ∧ loadVec 6 f.inPacket (arp + 8) = sha := by
  obtain ⟨arp, len, hl, hh, hlen, hc⟩ := rxCall_of_arp ha hd
  exact ⟨arp, len, ⟨hw, hc, hh.accepted hlen hip rfl, hh.op, hh.spa⟩, hh.sha⟩

/-- The destination address is all that changes in a parked echo request. -/
theorem EchoFrame.readdressed {v : UInt16} {b : Buf} {ip : Nat} {type : UInt8} {src dst : UInt32}
    (hl : LinkHdr v b 0x0800 ip) (he : EchoHdr b ip type src dst) (mac : Mac) :
    EchoFrame v type src dst (slice (storeVec b 0 mac) 0 (ip + 28)) := by
  have hge := hl.size
  have hs : Same 6 (ip + 28) b (storeVec b 0 mac) := by
    intro i _ _
    exact patch_off (by omega)
  exact ⟨_, ip, hl.same (fun i _ hi => hs i (by omega) hi) (by omega),
    he.same hs (by omega) (by omega), rfl⟩

/-- A request for our address is answered with its own data. -/
theorem echo_request_answered (s : Host) {src : UInt32} {frame : List UInt8} {f : Frame}
    (he : EchoFrame s.conf.netOurVlan 8 src s.conf.netIp frame) (hd : Delivers frame f) :
    ∃ reply, netProcessReceivedPacket s f = s.log (.ethSend .inPacket reply) ∧
      EchoFrame s.conf.netOurVlan 0 s.conf.netIp src reply := by
  obtain ⟨ip, hl, hh, hc⟩ := rxCall_of_echo he hd rfl
  obtain ⟨hl', hsize, hh'⟩ := echoReply_hdr s 28 hl hh
  refine ⟨_, ?_, _, ip, hl', hh', rfl⟩
  simp [netProcessReceivedPacket, hc, receiveIcmp, pingReceive, hh.type, netSendPacket, hsize]

/-- The reply to our ping ends the loop. -/
theorem echo_reply_succeeds (s : Host) {frame : List UInt8} {f : Frame}
    (he : EchoFrame s.conf.netOurVlan 0 s.conf.netPingIp s.conf.netIp frame)
    (hd : Delivers frame f) :
    (netProcessReceivedPacket s f).loop.netState = .netloopSuccess := by
  obtain ⟨ip, hl, hh, hc⟩ := rxCall_of_echo he hd rfl
  simp [netProcessReceivedPacket, hc, receiveIcmp, pingReceive, hh.type, hh.src, netSetState]

/-- Only an address on our subnet, or on none we have a gateway to, is asked for
itself. -/
theorem arpReplyIp_direct {conf : NetConf} {ip : UInt32}
    (h : ip &&& conf.netNetmask = conf.netIp &&& conf.netNetmask ∨ conf.netGateway = 0) :
    arpReplyIp conf ip = ip := by
  unfold arpReplyIp
  rcases h with h | h <;> simp [h]

/-- The ping exchange of two hosts. Each host acts on what the other sent and
on nothing else; `A` parks the echo request until it knows where to send it. -/
theorem ping_exchange (A B : Host) (hA : A.conf.netIp ≠ 0) (hB : B.conf.netIp ≠ 0)
    (hping : A.conf.netPingIp = B.conf.netIp) (hvlan : A.conf.netOurVlan = B.conf.netOurVlan)
    (hnet : B.conf.netIp &&& A.conf.netNetmask = A.conf.netIp &&& A.conf.netNetmask ∨
      A.conf.netGateway = 0) :
    ∃ request, (pingSend A).trace = A.trace ++ [.ethSend .arpTxPacket request] ∧
      ArpFrame A.conf.netOurVlan 1 A.netEthaddr A.conf.netIp B.conf.netIp request ∧
    ∀ f1, Delivers request f1 →
    ∃ answer, (netProcessReceivedPacket B f1).trace = B.trace ++ [.ethSend .inPacket answer] ∧
      ArpFrame A.conf.netOurVlan 2 B.netEthaddr B.conf.netIp A.conf.netIp answer ∧
    ∀ f2, Delivers answer f2 →
    ∃ arp len echo, (netProcessReceivedPacket (pingSend A) f2).trace = (pingSend A).trace ++
        [.arpHandler A.hand.arpPacketHandler f2.inPacket arp B.conf.netIp len,
          .ethSend .netTxPacket echo] ∧
      echo = B.netEthaddr.toList ++
        (slice (pingSend A).netTxPacket 0 (pingSend A).arp.arpWaitTxPacketSize).drop 6 ∧
      EchoFrame A.conf.netOurVlan 8 A.conf.netIp B.conf.netIp echo ∧
    ∀ f3, Delivers echo f3 →
    ∃ reply, (netProcessReceivedPacket (netProcessReceivedPacket B f1) f3).trace =
        (netProcessReceivedPacket B f1).trace ++ [.ethSend .inPacket reply] ∧
      EchoFrame A.conf.netOurVlan 0 B.conf.netIp A.conf.netIp reply ∧
    ∀ f4, Delivers reply f4 →
      (netProcessReceivedPacket (netProcessReceivedPacket (pingSend A) f2) f4).loop.netState =
        .netloopSuccess := by
  obtain ⟨b, ip, r, arp, hsend, hlink, hecho, hrlink, hrhdr⟩ := pingSend_eq A
  rw [hping, arpReplyIp_direct hnet] at hsend hrhdr
  rw [hping] at hecho
  have hconf : (pingSend A).conf = A.conf := by rw [hsend]; rfl
  refine ⟨_, by rw [hsend]; rfl, ⟨r, arp, hrlink, hrhdr, rfl⟩, ?_⟩
  intro f1 h1
  obtain ⟨answer, hB1, hanswer⟩ := arp_request_answered B hB
    (by rw [← hvlan]; exact ⟨r, arp, hrlink, hrhdr, rfl⟩) h1
  rw [← hvlan] at hanswer
  refine ⟨answer, by rw [hB1]; rfl, hanswer, ?_⟩
  intro f2 h2
  have hwait : (pingSend A).arp.netArpWaitPacketIp = B.conf.netIp := by rw [hsend]; rfl
  have hreply : (pingSend A).arp.netArpWaitReplyIp = B.conf.netIp := by rw [hsend]; rfl
  obtain ⟨arp2, len2, hawait, hsha⟩ := arp_reply_awaited (pingSend A) (by rw [hconf]; exact hA)
    (by rw [hwait]; exact hB) (by rw [hreply, hconf]; exact hanswer) h2
  have hA2 := rx_awaited hawait
  have hparked : (pingSend A).netTxPacket = b := by rw [hsend]; rfl
  have hsize : (pingSend A).arp.arpWaitTxPacketSize = ip + 28 := by rw [hsend]; rfl
  have hhand : (pingSend A).hand = A.hand := by rw [hsend]; rfl
  refine ⟨arp2, len2, _, by rw [hA2, arpMatched_trace, hawait.2.spa, hreply, hhand], ?_, ?_, ?_⟩
  · rw [hsha, slice_storeVec _ _ (by omega)]
  · rw [hparked, hsize]
    exact .readdressed hlink hecho _
  intro f3 h3
  rw [hparked, hsize] at h3
  have hB1conf : (netProcessReceivedPacket B f1).conf = B.conf := by rw [hB1]; rfl
  obtain ⟨reply, hB2, hrep⟩ := echo_request_answered (netProcessReceivedPacket B f1)
    (by rw [hB1conf, ← hvlan]; exact .readdressed hlink hecho _) h3
  rw [hB1conf, ← hvlan] at hrep
  refine ⟨reply, by rw [hB2]; rfl, hrep, ?_⟩
  intro f4 h4
  apply echo_reply_succeeds _ _ h4
  rw [hA2, arpMatched_conf, hconf, hping]
  exact hrep

/-- A frame as a receiver without older frames in its buffer sees it. -/
def received (frame : List UInt8) : Frame := ⟨ofList frame, frame.length⟩

theorem delivers_received {frame : List UInt8} (h : frame.length < 2147483648) :
    Delivers frame (received frame) where
  len := Int.le_refl _
  range := Int.ofNat_lt.mpr h
  bytes := fun i hi => by simp [received, ofList, hi]

theorem ArpFrame.length_lt {v : UInt16} {op : Nat} {sha : Mac} {spa tpa : UInt32}
    {frame : List UInt8} (h : ArpFrame v op sha spa tpa frame) : frame.length < 2147483648 := by
  obtain ⟨b, arp, hl, -, rfl⟩ := h
  have := hl.size
  simp
  omega

theorem EchoFrame.length_lt {v : UInt16} {type : UInt8} {src dst : UInt32} {frame : List UInt8}
    (h : EchoFrame v type src dst frame) : frame.length < 2147483648 := by
  obtain ⟨b, ip, hl, -, rfl⟩ := h
  have := hl.size
  simp
  omega

def pingedHost : Host :=
  { idleHost with
    conf := { plainConf with netIp := 0x0364a8c0, netPingIp := 0 }
    netEthaddr := Vector.replicate 6 4 }

theorem ping_exchange_pinged :
    ∃ request answer echo reply,
      (pingSend idleHost).trace = [.ethSend .arpTxPacket request] ∧
      (netProcessReceivedPacket pingedHost (received request)).trace =
        [.ethSend .inPacket answer] ∧
      (netProcessReceivedPacket (netProcessReceivedPacket pingedHost (received request))
        (received echo)).trace = [.ethSend .inPacket answer, .ethSend .inPacket reply] ∧
      (netProcessReceivedPacket (netProcessReceivedPacket (pingSend idleHost) (received answer))
        (received reply)).loop.netState = .netloopSuccess := by
  obtain ⟨request, h0, hq, h⟩ := ping_exchange idleHost pingedHost (by decide) (by decide)
    (by decide) (by decide) (by decide)
  obtain ⟨answer, h1, ha, h⟩ := h (received request) (delivers_received hq.length_lt)
  obtain ⟨arp, len, echo, -, -, he, h⟩ := h (received answer) (delivers_received ha.length_lt)
  obtain ⟨reply, h3, hr, h⟩ := h (received echo) (delivers_received he.length_lt)
  refine ⟨request, answer, echo, reply, h0, h1, ?_, h (received reply)
    (delivers_received hr.length_lt)⟩
  rw [h3, h1]
  rfl

end EmacDriver
