import EmacDriver.Proofs.RxSpec

namespace EmacDriver
open Bytes

/-- A frame reaches a handler only through the branch of its protocol. -/
theorem rxCall_cases (conf : NetConf) (b : Buf) (len : Int) :
    rxCall conf b len = .drop ∨ ∃ part, rxLink conf b len = some part ∧
      (part.ethProto = 0x0806 ∧ rxCall conf b len = .arpReceive part.ip part.len ∨
       IpAccepted conf b part.ip part.len ∧ rxCall conf b len = ipCall b part.ip) := by
  cases hp : rxLink conf b len with
  | none => simp [rxCall, hp]
  | some part =>
    by_cases harp : part.ethProto = 0x0806
    · exact Or.inr ⟨part, rfl, Or.inl ⟨harp, by simp [rxCall, hp, harp]⟩⟩
    · by_cases hip : part.ethProto = 0x0800
      · have he : rxCall conf b len = rxIp conf b part.ip part.len := by simp [rxCall, hp, hip]
        by_cases hd : rxIp conf b part.ip part.len = .drop
        · exact Or.inl (he.trans hd)
        · have ha := accepted_of_rxIp hd
          exact Or.inr ⟨part, rfl, Or.inr ⟨ha, he.trans (rxIp_of_accepted ha)⟩⟩
      · simp [rxCall, hp, harp, hip]

theorem rxCall_arp {conf : NetConf} {b : Buf} {len : Int} {arp : Nat} {l : Int}
    (h : rxCall conf b len = .arpReceive arp l) :
    ∃ part, rxLink conf b len = some part ∧ part.ip = arp ∧ part.len = l := by
  rcases rxCall_cases conf b len with hd | ⟨part, hp, ⟨_, he⟩ | ⟨_, he⟩⟩
  · rw [hd] at h
    cases h
  · rw [he] at h
    cases h
    exact ⟨part, hp, rfl, rfl⟩
  · rw [he, ipCall] at h
    repeat' split at h
    all_goals cases h

theorem rxCall_icmp {conf : NetConf} {b : Buf} {len : Int} {ip : Nat} {l : Int} {src : UInt32}
    (h : rxCall conf b len = .receiveIcmp ip l src) :
    ∃ part, rxLink conf b len = some part ∧ part.ip = ip ∧ IpAccepted conf b ip part.len ∧
      l = ipLen b ip ∧ b (ip + 9) = 1 ∧ src = load32 b (ip + 12) := by
  rcases rxCall_cases conf b len with hd | ⟨part, hp, ⟨_, he⟩ | ⟨ha, he⟩⟩
  · rw [hd] at h
    cases h
  · rw [he] at h
    cases h
  · rw [he, ipCall] at h
    repeat' split at h
    all_goals cases h
    exact ⟨part, hp, rfl, ha, rfl, ‹_›, rfl⟩

theorem rxCall_udp {conf : NetConf} {b : Buf} {len : Int} {pkt dport : Nat} {src : UInt32}
    {sport l : Nat} (h : rxCall conf b len = .udpPacketHandler pkt dport src sport l) :
    ∃ part, rxLink conf b len = some part ∧ pkt = part.ip + 28 ∧
      IpAccepted conf b part.ip part.len ∧
      l = toUnsigned (toSize ((ntohs (load16 b (part.ip + 24)) : Int) - 8)) := by
  rcases rxCall_cases conf b len with hd | ⟨part, hp, ⟨_, he⟩ | ⟨ha, he⟩⟩
  · rw [hd] at h
    cases h
  · rw [he] at h
    cases h
  · rw [he, ipCall] at h
    repeat' split at h
    all_goals cases h
    exact ⟨part, hp, rfl, ha, rfl⟩

/-- The signed test against `ip_len` is what keeps a negative length out; the
unsigned test against 28 alone would let it pass. -/
theorem IpAccepted.inside {conf : NetConf} {b : Buf} {ip : Nat} {len : Int}
    (h : IpAccepted conf b ip len) (hu : len < 2147483648) :
    max 28 (ipLen b ip : Int) ≤ len := by
  have hfits := h.fits
  have h0 : 0 ≤ len := by omega
  have hroom := h.room
  rw [toSize_of_range h0 hu] at hroom
  omega

/-- No handler is entered with a header that reaches behind the frame: ICMP and
UDP not at all, ARP not past its length check. -/
theorem rx_lengths_bounded (conf : NetConf) (inPacket : Buf) (frmLen : BitVec 14) :
    (∀ ip l src, rxCall conf inPacket (gethRecvLen frmLen) = .receiveIcmp ip l src →
      0 ≤ gethRecvLen frmLen ∧ (ip = 14 ∨ ip = 18 ∨ ip = 22) ∧
        ip + max 28 (ipLen inPacket ip : Int) ≤ gethRecvLen frmLen) ∧
    (∀ ip dport src sport l,
      rxCall conf inPacket (gethRecvLen frmLen) = .udpPacketHandler (ip + 28) dport src sport l →
      0 ≤ gethRecvLen frmLen ∧ (ip = 14 ∨ ip = 18 ∨ ip = 22) ∧
        ip + max 28 (ipLen inPacket ip : Int) ≤ gethRecvLen frmLen) ∧
    (∀ arp l, rxCall conf inPacket (gethRecvLen frmLen) = .arpReceive arp l → ¬ l < 28 →
      0 ≤ gethRecvLen frmLen ∧ (arp = 14 ∨ arp = 18 ∨ arp = 22) ∧
        arp + 28 ≤ gethRecvLen frmLen) := by
  have hr := gethRecvLen_range frmLen
  have hlink : ∀ part, rxLink conf inPacket (gethRecvLen frmLen) = some part → _ :=
    fun part hp => rxLink_len (by omega) (by omega) hp
  refine ⟨?icmp, ?udp, ?arp⟩
  case icmp =>
    intro ip l src h
    obtain ⟨part, hp, rfl, ha, -⟩ := rxCall_icmp h
    obtain ⟨hlen, hsize, -⟩ := hlink part hp
    have hin := ha.inside (by omega)
    omega
  case udp =>
    intro ip dport src sport l h
    obtain ⟨part, hp, he, ha, -⟩ := rxCall_udp h
    obtain ⟨hlen, hsize, -⟩ := hlink part hp
    have hin := ha.inside (by omega)
    have hip : ip = part.ip := by omega
    subst hip
    omega
  case arp =>
    intro arp l h hcheck
    obtain ⟨part, hp, rfl, rfl⟩ := rxCall_arp h
    obtain ⟨hlen, hsize, -⟩ := hlink part hp
    omega

def ipFrame (ipLen proto : UInt8) (sum : List UInt8) (payload : List UInt8) : Buf :=
  ofList ([0x6a, 0xe3, 0xd1, 0x16, 0xb0, 0x50, 0x02, 0, 0, 0, 0, 3, 0x08, 0x00,
    0x45, 0, 0, ipLen, 0, 0, 0, 0, 64, proto] ++ sum ++
    [192, 168, 100, 3, 192, 168, 100, 22] ++ payload)

def plainConf : NetConf where
  netIp := 0x1664a8c0
  netNetmask := 0x00ffffff
  netGateway := 0
  netPingIp := 0x0364a8c0
  netOurVlan := 0xffff
  netNativeVlan := 0xffff

/-- A well-formed echo request of 46 bytes behind its link header. -/
theorem rx_lengths_bounded_echo :
    14 + max 28 (ipLen (ipFrame 28 1 [0x31, 0x77] [8]) 14 : Int) ≤ gethRecvLen 64 :=
  ((rx_lengths_bounded plainConf (ipFrame 28 1 [0x31, 0x77] [8]) 64).1 14 28 0x0364a8c0
    (by decide +kernel)).2.2

/-- The count `ping_receive` checksums and answers with stays inside the frame
exactly when `ip_len` covers the IP header; below, `ip_len - 20` wraps. -/
theorem echo_count_inside_iff (conf : NetConf) (inPacket : Buf) (frmLen : BitVec 14) (ip : Nat)
    (l : Int) (src : UInt32)
    (h : rxCall conf inPacket (gethRecvLen frmLen) = .receiveIcmp ip l src) :
    (inPacket (ip + 20) = 8 → (icmpNbytes l : Int) ≤ gethRecvLen frmLen - (ip + 20)) ↔
      (inPacket (ip + 20) = 8 → 20 ≤ ipLen inPacket ip) := by
  have hr := gethRecvLen_range frmLen
  obtain ⟨part, hp, rfl, ha, rfl, -⟩ := rxCall_icmp h
  obtain ⟨hlen, hsize, -⟩ := rxLink_len (by omega) (by omega) hp
  have hin := ha.inside (by omega)
  have hlt := ipLen_lt inPacket part.ip
  apply imp_congr_right
  intro _
  unfold icmpNbytes
  by_cases hc : 20 ≤ ipLen inPacket part.ip
  · rw [toUnsigned_of_range (by omega) (by omega)]
    omega
  · rw [toUnsigned_of_neg (by omega) (by omega)]
    omega

theorem echo_count_inside_iff_echo :
    (icmpNbytes 28 : Int) ≤ gethRecvLen 64 - (14 + 20) :=
  (echo_count_inside_iff plainConf (ipFrame 28 1 [0x31, 0x77] [8]) 64 14 28 0x0364a8c0
    (by decide +kernel)).mpr (by decide +kernel) (by decide +kernel)

/-- An echo request whose header, checksum right, gives `ip_len` as 0. -/
theorem echo_count_overruns :
    ¬ ∀ (conf : NetConf) (inPacket : Buf) (frmLen : BitVec 14) (ip : Nat) (l : Int) (src : UInt32),
      rxCall conf inPacket (gethRecvLen frmLen) = .receiveIcmp ip l src →
      inPacket (ip + 20) = 8 → (icmpNbytes l : Int) ≤ gethRecvLen frmLen - (ip + 20) := by
  intro h
  have hin := h plainConf (ipFrame 0 1 [0x31, 0x93] [8]) 64 14 0 0x0364a8c0 (by decide +kernel)
    (by decide +kernel)
  revert hin
  decide +kernel

/-- The datagram length handed on is that of the UDP header, whatever `ip_len`
says: the handler's range lies in the datagram exactly when the two agree. -/
theorem udp_payload_inside_iff (s : Host) (f : Frame) (ip dport : Nat) (src : UInt32)
    (sport l : Nat)
    (h : rxCall s.conf f.inPacket f.len = .udpPacketHandler (ip + 28) dport src sport l) :
    (netProcessReceivedPacket s f).trace = s.trace ++
        [.udpHandler s.hand.udpPacketHandler f.inPacket (ip + 28) dport src sport l] ∧
      (28 ≤ ipLen f.inPacket ip ∧ l ≤ ipLen f.inPacket ip - 28 ↔
        8 ≤ ntohs (load16 f.inPacket (ip + 24)) ∧
          ntohs (load16 f.inPacket (ip + 24)) + 20 ≤ ipLen f.inPacket ip) := by
  refine ⟨by simp [netProcessReceivedPacket, h, Host.log], ?_⟩
  obtain ⟨part, -, he, -, rfl⟩ := rxCall_udp h
  have hip : ip = part.ip := by omega
  subst hip
  have hlt := ipLen_lt f.inPacket part.ip
  have hudp := ntohs_lt (load16 f.inPacket (part.ip + 24))
  generalize ntohs (load16 f.inPacket (part.ip + 24)) = udpLen at *
  unfold toUnsigned toSize
  omega

def idleHost : Host where
  hw := { readTimer := fun _ => 0, init := fun _ _ => 0, recv := fun _ _ => [] }
  conf := plainConf
  env := { keys := fun _ => [], vals := fun _ => [] }
  eth := {
    mem := fun _ => {
      name := cstr "eth0", enetaddr := Vector.replicate 6 2, state := .ethStateInit, next := some 0,
      index := 0 }
    count := 1, ethDevices := some 0, ethCurrent := some 0, firstFailed := none, act := none,
    envChangedId := 0, inits := 0, recvs := 0 }
  arp := {
    netArpWaitPacketIp := 0, netArpWaitReplyIp := 0, arpWaitPacketEthaddr := none,
    arpWaitTxPacketSize := 0, arpWaitTimerStart := 0, arpWaitTry := 0, arpTxPacket := fun _ => 0 }
  hand := {
    udpPacketHandler := some .dummyHandler, arpPacketHandler := some .dummyHandler,
    timeHandler := none, timeStart := 0, timeDelta := 0 }
  loop := {
    netState := .netloopContinue, netRestartWrap := false, netRestarted := false,
    netDevExists := false, netTryCount := 0, netBootFileSize := 0, firstCall := false }
  netEthaddr := Vector.replicate 6 2
  netTxPacket := fun _ => 0
  netIpId := 0
  pingSeqNumber := 0
  ethaddrs := fun _ => netNullEthaddr
  timerReads := 0
  trace := []

/-- A datagram of 32 bytes, with 4 bytes of payload. -/
theorem udp_payload_inside_iff_four :
    28 ≤ ipLen (ipFrame 32 17 [0x31, 0x63] [0, 7, 0, 7, 0, 12, 0, 0, 1, 2, 3, 4]) 14 ∧
      4 ≤ ipLen (ipFrame 32 17 [0x31, 0x63] [0, 7, 0, 7, 0, 12, 0, 0, 1, 2, 3, 4]) 14 - 28 :=
  (udp_payload_inside_iff idleHost
    ⟨ipFrame 32 17 [0x31, 0x63] [0, 7, 0, 7, 0, 12, 0, 0, 1, 2, 3, 4], 60⟩ 14 7
    0x0364a8c0 7 4 (by decide +kernel)).2.mpr (by decide +kernel)

/-- A datagram of 28 bytes whose UDP header claims 1000: 992 bytes of payload
are handed on. -/
theorem udp_payload_overruns :
    ¬ ∀ (s : Host) (f : Frame) (ip dport : Nat) (src : UInt32) (sport l : Nat),
      rxCall s.conf f.inPacket f.len = .udpPacketHandler (ip + 28) dport src sport l →
      28 ≤ ipLen f.inPacket ip ∧ l ≤ ipLen f.inPacket ip - 28 := by
  intro h
  have hin := h idleHost ⟨ipFrame 28 17 [0x31, 0x67] [0, 7, 0, 7, 3, 232], 60⟩ 14 7 0x0364a8c0 7 992
    (by decide +kernel)
  revert hin
  decide +kernel

end EmacDriver
