import EmacDriver.Proofs.ChecksumSpec
import EmacDriver.Proofs.ReplyBounds

namespace EmacDriver
open Bytes OnesSum

/-- A frame answered under its own protocol only has its addresses rewritten. -/
theorem netUpdateEther_turned (s : Host) {b : Buf} {proto ip : Nat} {vid : UInt16} (mac : Mac)
    (h : LinkRead s.conf b proto ip vid) (hp : 1514 < proto) :
    netUpdateEther s b mac proto = (storeVec (storeVec b 0 mac) 6 s.netEthaddr, ip) := by
  have hsize := netUpdateEther_size s mac proto h hp
  have hoff : ∀ o, 12 ≤ o →
      load16 (storeVec (storeVec b 0 mac) 6 s.netEthaddr) o = load16 b o := by
    intro o ho
    simp (disch := omega) only [load16_patch_off]
  have hstore : ∀ o, 12 ≤ o → proto = ntohs (load16 b o) →
      store16 (storeVec (storeVec b 0 mac) 6 s.netEthaddr) o (htons proto) =
        storeVec (storeVec b 0 mac) 6 s.netEthaddr := by
    intro o ho he
    rw [he, htons_ntohs, ← hoff o ho, store16_load16]
  refine Prod.ext ?_ hsize
  unfold netUpdateEther
  dsimp only
  rw [hoff 12 (by omega)]
  cases h with
  | e802 type =>
    rw [if_neg (by omega), if_neg (by omega)]
    exact hstore 20 (by omega) rfl
  | ether type untagged =>
    rw [if_neg untagged, if_pos hp]
    exact hstore 12 (by omega) rfl
  | vlan tagged ours =>
    rw [if_pos tagged]
    exact hstore 16 (by omega) rfl

theorem LinkRead.size {conf : NetConf} {b : Buf} {proto ip : Nat} {vid : UInt16}
    (h : LinkRead conf b proto ip vid) : 14 ≤ ip := by
  cases h <;> omega

structure TurnedLink (mac : Mac) (b c : Buf) (ip : Nat) : Prop where
  dest : loadVec 6 c 0 = loadVec 6 b 6
  src : loadVec 6 c 6 = mac
  rest : Same 12 ip b c

structure AskedForUs (conf : NetConf) (b : Buf) (arp : Nat) (len : Int) : Prop where
  long : 28 ≤ len
  hrd : ntohs (load16 b arp) = 1
  pro : ntohs (load16 b (arp + 2)) = 0x0800
  hln : b (arp + 4) = 6
  pln : b (arp + 5) = 4
  op : ntohs (load16 b (arp + 6)) = 1
  ip : conf.netIp ≠ 0
  tpa : load32 b (arp + 24) = conf.netIp

structure ArpAnswer (s : Host) (b : Buf) (arp : Nat) (c : Buf) : Prop where
  link : TurnedLink s.netEthaddr b c arp
  op : ntohs (load16 c (arp + 6)) = 2
  sha : loadVec 6 c (arp + 8) = s.netEthaddr
  spa : load32 c (arp + 14) = s.conf.netIp
  tha : loadVec 6 c (arp + 18) = loadVec 6 b (arp + 8)
  tpa : load32 c (arp + 24) = load32 b (arp + 14)
  head : Same arp (arp + 6) b c
  behind : ∀ i, arp + 28 ≤ i → c i = b i

/-- The reply of `arp_receive` is the answer. -/
theorem arpReply_answer (s : Host) {b : Buf} {arp : Nat} {vid : UInt16}
    (h : LinkRead s.conf b 0x0806 arp vid) :
    (arpReply s b arp).2 = arp ∧ ArpAnswer s b arp (arpReply s b arp).1 := by
  have hge := h.size
  unfold arpReply
  rw [netUpdateEther_turned s (loadVec 6 b 6) h (by omega)]
  refine ⟨rfl, ⟨?_, ?_, ?_⟩, ?_, ?_, ?_, ?_, ?_, ?_, ?_⟩
  · simp (disch := omega) only [loadVec_patch_off, loadVec_storeVec]
  · simp (disch := omega) only [loadVec_patch_off, loadVec_storeVec]
  · intro i hl hu
    simp (disch := omega) only [patch_off]
  · simp (disch := omega) only [load16_patch_off, load16_store16]
    decide
  · simp (disch := omega) only [loadVec_patch_off, loadVec_storeVec]
  · simp (disch := omega) only [load32_store32]
  · simp (disch := omega) only [loadVec_patch_off, loadVec_copy]
  · simp (disch := omega) only [load32_patch_off, load32_copy]
  · intro i hl hu
    simp (disch := omega) only [patch_off]
  · intro i hi
    simp (disch := omega) only [patch_off]

/-- A request is accepted just when it asks for us. -/
theorem arpAccepted_iff (conf : NetConf) (b : Buf) (arp : Nat) (len : Int) :
    arpAccepted conf b arp len = true ∧ ntohs (load16 b (arp + 6)) = 1 ↔
      AskedForUs conf b arp len := by
  constructor
  · rintro ⟨ha, op⟩
    simp only [arpAccepted, Bool.and_eq_true, beq_iff_eq, bne_iff_ne, Bool.not_eq_true',
      decide_eq_false_iff_not, Int.not_lt] at ha
    obtain ⟨⟨⟨⟨⟨⟨long, hrd⟩, pro⟩, hln⟩, pln⟩, ip⟩, tpa⟩ := ha
    exact ⟨long, hrd, pro, hln, pln, op, ip, tpa⟩
  · intro h
    have hlong : ¬ len < 28 := by
      have := h.long
      omega
    simp [arpAccepted, hlong, h.hrd, h.pro, h.hln, h.pln, h.op, h.ip, h.tpa]

theorem rxCall_arp_link {conf : NetConf} {b : Buf} {len : Int} {arp : Nat} {l : Int}
    (h : rxCall conf b len = .arpReceive arp l) : ∃ vid, LinkRead conf b 0x0806 arp vid := by
  obtain ⟨part, hp, rfl, -⟩ := rxCall_arp h
  obtain ⟨vid, hread, -⟩ := rxLink_read hp
  have hproto : part.ethProto = 0x0806 := by
    rcases rxCall_cases conf b len with hd | ⟨part', hp', ⟨harp, -⟩ | ⟨-, he⟩⟩
    · rw [hd] at h
      cases h
    · rw [hp] at hp'
      cases hp'
      exact harp
    · rw [he, ipCall] at h
      repeat' split at h
      all_goals cases h
  exact ⟨vid, hproto ▸ hread⟩

/-- Whatever else an ARP packet leads to, only a request for us is answered. -/
theorem arpReceive_unanswered {s : Host} {b : Buf} {arp : Nat} {l : Int}
    (h : ¬ AskedForUs s.conf b arp l) :
    ∃ evs, (arpReceive s b arp l).trace = s.trace ++ evs ∧
      ∀ frame, .ethSend .inPacket frame ∉ evs := by
  unfold arpReceive
  split
  · rename_i hacc
    split
    · rename_i hop
      exact absurd ((arpAccepted_iff s.conf b arp l).mp ⟨hacc, hop⟩) h
    · split
      · split
        · exact ⟨[], by simp, by simp⟩
        · split
          · exact ⟨_, arpMatched_trace s b arp l, by simp⟩
          · exact ⟨[], by simp, by simp⟩
      · exact ⟨[], by simp, by simp⟩
  · exact ⟨[], by simp, by simp⟩

/-- An ARP packet is answered exactly when it asks for our address, with one
frame, which is the request's with the roles exchanged. -/
theorem arp_answered (s : Host) (f : Frame) (arp : Nat) (l : Int)
    (call : rxCall s.conf f.inPacket f.len = .arpReceive arp l) :
    ∃ evs, (netProcessReceivedPacket s f).trace = s.trace ++ evs ∧
      ((∃ frame, .ethSend .inPacket frame ∈ evs) ↔ AskedForUs s.conf f.inPacket arp l) ∧
      (AskedForUs s.conf f.inPacket arp l → ∃ c, ArpAnswer s f.inPacket arp c ∧
        evs = [.ethSend .inPacket (slice c 0 (arp + 28))]) := by
  have hrecv : netProcessReceivedPacket s f = arpReceive s f.inPacket arp l := by
    simp only [netProcessReceivedPacket, call]
  obtain ⟨vid, hread⟩ := rxCall_arp_link call
  obtain ⟨hsize, hanswer⟩ := arpReply_answer s hread
  rw [hrecv]
  by_cases hask : AskedForUs s.conf f.inPacket arp l
  · obtain ⟨hacc, hop⟩ := (arpAccepted_iff s.conf f.inPacket arp l).mpr hask
    refine ⟨[.ethSend .inPacket (slice (arpReply s f.inPacket arp).1 0 (arp + 28))], ?_, ?_,
      fun _ => ⟨_, hanswer, rfl⟩⟩
    · rw [arpReceive, if_pos hacc, if_pos hop, ← hsize]
      rfl
    · exact ⟨fun _ => hask, fun _ => ⟨_, List.mem_singleton.mpr rfl⟩⟩
  · obtain ⟨evs, htrace, hnone⟩ := arpReceive_unanswered hask
    refine ⟨evs, htrace, ?_, fun h => absurd h hask⟩
    constructor
    · intro h
      obtain ⟨frame, hf⟩ := h
      exact absurd hf (hnone frame)
    · exact fun h => absurd h hask

def arpRequestFrame : Buf :=
  ofList [0xff, 0xff, 0xff, 0xff, 0xff, 0xff, 0x02, 0, 0, 0, 0, 3, 0x08, 0x06,
    0, 1, 0x08, 0x00, 6, 4, 0, 1, 0x02, 0, 0, 0, 0, 3, 192, 168, 100, 3,
    0, 0, 0, 0, 0, 0, 192, 168, 100, 22]

theorem arp_answered_request :
    ∃ c, ArpAnswer idleHost arpRequestFrame 14 c ∧
      (netProcessReceivedPacket idleHost ⟨arpRequestFrame, 60⟩).trace =
        [.ethSend .inPacket (slice c 0 42)] := by
  obtain ⟨evs, htrace, -, hanswer⟩ :=
    arp_answered idleHost ⟨arpRequestFrame, 60⟩ 14 46 (by decide +kernel)
  have hask : AskedForUs idleHost.conf arpRequestFrame 14 46 := by
    constructor <;> decide +kernel
  obtain ⟨c, hc, rfl⟩ := hanswer hask
  exact ⟨c, hc, htrace⟩

theorem rxCall_icmp_link {conf : NetConf} {b : Buf} {len : Int} {ip : Nat} {l : Int} {src : UInt32}
    (h : rxCall conf b len = .receiveIcmp ip l src) : ∃ vid, LinkRead conf b 0x0800 ip vid := by
  obtain ⟨part, hp, rfl, -⟩ := rxCall_icmp h
  obtain ⟨vid, hread, -⟩ := rxLink_read hp
  have hproto : part.ethProto = 0x0800 := by
    apply Decidable.byContradiction
    intro hne
    simp only [rxCall, hp, hne, if_false] at h
    split at h <;> cases h
  exact ⟨vid, hproto ▸ hread⟩

structure EchoAnswer (s : Host) (b : Buf) (ip : Nat) (c : Buf) : Prop where
  link : TurnedLink s.netEthaddr b c ip
  len : ipLen c ip = ipLen b ip
  src : load32 c (ip + 12) = s.conf.netIp
  dst : load32 c (ip + 16) = load32 b (ip + 12)
  hdrSum : ipChecksumOk c ip 20 = true
  type : c (ip + 20) = 0
  msgSum : rfc1071Sum c (ip + 20) (ipLen b ip - 20) = 0xffff
  code : c (ip + 21) = b (ip + 21)
  ident : load16 c (ip + 24) = load16 b (ip + 24)
  sequence : load16 c (ip + 26) = load16 b (ip + 26)
  data : Same (ip + 28) (ip + ipLen b ip) b c

/-- The reply of `receive_icmp` is the answer, its data untouched. -/
theorem echoReply_answer (s : Host) {b : Buf} {ip : Nat} {vid : UInt16}
    (h : LinkRead s.conf b 0x0800 ip vid) (hlen : 28 ≤ ipLen b ip) :
    (echoReply s b ip (ipLen b ip)).2 = ip ∧
      EchoAnswer s b ip (echoReply s b ip (ipLen b ip)).1 := by
  have hge := h.size
  have hlt := ipLen_lt b ip
  have hcount : icmpNbytes (ipLen b ip) = ipLen b ip - 20 := by
    unfold icmpNbytes
    rw [toUnsigned_of_range (by omega) (by omega)]
    omega
  unfold echoReply
  rw [netUpdateEther_turned s (loadVec 6 b 6) h (by omega), hcount]
  dsimp only
  refine ⟨rfl, ⟨?_, ?_, ?_⟩, ?len, ?src, ?dst, ?hdrSum, ?type, ?msgSum, ?code, ?ident, ?sequence,
    ?data⟩
  · simp (disch := omega) only [loadVec_patch_off, loadVec_storeVec]
  · simp (disch := omega) only [loadVec_patch_off, loadVec_storeVec]
  · intro i hl hu
    simp (disch := omega) only [patch_off]
  case len =>
    unfold ipLen
    simp (disch := omega) only [load16_patch_off]
  case src => simp (disch := omega) only [load32_patch_off, load32_store32]
  case dst => simp (disch := omega) only [load32_patch_off, load32_copy]
  case hdrSum =>
    generalize hd : store32 (copy _ (ip + 16) _ (ip + 12) 4) (ip + 12) s.conf.netIp = d
    have hz : load16 d (ip + 10) = 0 := by
      subst hd
      simp (disch := omega) only [load16_patch_off, load16_store16]
    apply headerSum_stored hz
    intro i hl hu
    simp (disch := omega) only [patch_off]
  case type => simp (disch := omega) only [patch_off, store8_same]
  case msgSum =>
    generalize hd : store16 (store8 _ (ip + 20) 0) (ip + 22) 0 = d
    have hz : load16 d (ip + 20 + 2 * 1) = 0 := by
      subst hd
      rw [load16_store16]
    rw [rfc1071Sum, sum_BE_ones]
    exact sum_store_checksum d (ip + 20) (ipLen b ip - 20) 1 (by omega) (by omega) hz
  case code => simp (disch := omega) only [patch_off]
  case ident => simp (disch := omega) only [load16_patch_off]
  case sequence => simp (disch := omega) only [load16_patch_off]
  case data =>
    intro i hl hu
    simp (disch := omega) only [patch_off]

/-- Every accepted echo request whose length covers the two headers is answered
with an echo reply that a receiver will find correct. -/
theorem echo_answered (s : Host) (f : Frame) (ip : Nat) (l : Int) (src : UInt32)
    (call : rxCall s.conf f.inPacket f.len = .receiveIcmp ip l src)
    (request : f.inPacket (ip + 20) = 8) (hlen : 28 ≤ ipLen f.inPacket ip) :
    ∃ c, EchoAnswer s f.inPacket ip c ∧
      (netProcessReceivedPacket s f).trace =
        s.trace ++ [.ethSend .inPacket (slice c 0 (ip + ipLen f.inPacket ip))] := by
  obtain ⟨vid, hread⟩ := rxCall_icmp_link call
  obtain ⟨-, -, -, -, rfl, -, -⟩ := rxCall_icmp call
  obtain ⟨hsize, hanswer⟩ := echoReply_answer s hread hlen
  have h5 : (8 : UInt8) ≠ 5 := by decide
  have h0 : (8 : UInt8) ≠ 0 := by decide
  have hsend : netProcessReceivedPacket s f =
      netSendPacket s .inPacket (echoReply s f.inPacket ip (ipLen f.inPacket ip)).1
        ((echoReply s f.inPacket ip (ipLen f.inPacket ip)).2 + ipLen f.inPacket ip) := by
    simp only [netProcessReceivedPacket, call, receiveIcmp, pingReceive, request, h5, h0, if_true,
      if_false, Int.toNat_natCast]
  refine ⟨_, hanswer, ?_⟩
  rw [hsend, hsize]
  rfl

theorem echo_answered_request :
    ∃ c, EchoAnswer idleHost (ipFrame 28 1 [0x31, 0x77] [8]) 14 c ∧
      (netProcessReceivedPacket idleHost ⟨ipFrame 28 1 [0x31, 0x77] [8], 60⟩).trace =
        [.ethSend .inPacket (slice c 0 42)] :=
  echo_answered idleHost ⟨ipFrame 28 1 [0x31, 0x77] [8], 60⟩ 14 28 0x0364a8c0 (by decide +kernel)
    (by decide +kernel) (by decide +kernel)

end EmacDriver
