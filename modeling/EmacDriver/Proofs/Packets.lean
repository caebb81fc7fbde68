import EmacDriver.Proofs.RxSpec

namespace EmacDriver
open Bytes

def Same (m n : Nat) (b c : Buf) : Prop := ∀ i, m ≤ i → i < n → c i = b i

theorem Same.load16 {m n o : Nat} {b c : Buf} (h : Same m n b c) (hm : m ≤ o) (ho : o + 2 ≤ n) :
    load16 c o = load16 b o :=
  load16_congr (fun i hi => h (o + i) (by omega) (by omega))

theorem Same.load32 {m n o : Nat} {b c : Buf} (h : Same m n b c) (hm : m ≤ o) (ho : o + 4 ≤ n) :
    load32 c o = load32 b o :=
  load32_congr (fun i hi => h (o + i) (by omega) (by omega))

theorem Same.loadVec {k m n o : Nat} {b c : Buf} (h : Same m n b c) (hm : m ≤ o) (ho : o + k ≤ n) :
    loadVec k c o = loadVec k b o :=
  loadVec_congr (fun i hi => h (o + i) (by omega) (by omega))

/-- "No VLAN" masks to itself, however it is spelled. -/
theorem vlanid_mask (v : UInt16) : vlanid v &&& 0x0fff = swap16 v &&& 0x0fff := by
  unfold vlanid
  split
  · rename_i h
    rw [h]
    decide
  · rfl

/-- A link header of `net_set_ether`: plain, or tagged with the VLAN `v`. -/
inductive LinkHdr (v : UInt16) (b : Buf) (proto : Nat) : Nat → Prop where
  | plain (none : vlanid v &&& 0x0fff = 4095) (type : ntohs (load16 b 12) = proto) :
      LinkHdr v b proto 14
  | tagged (some : vlanid v &&& 0x0fff ≠ 4095) (vlanType : ntohs (load16 b 12) = 0x8100)
      (tag : swap16 (load16 b 14) = vlanid v &&& 0x0fff) (type : ntohs (load16 b 16) = proto) :
      LinkHdr v b proto 18

theorem LinkHdr.hdrSize {s : Host} {b : Buf} {proto h : Nat}
    (hl : LinkHdr s.conf.netOurVlan b proto h) : h = netEthHdrSize s := by
  unfold netEthHdrSize
  cases hl with
  | plain none => simp [none]
  | tagged some => simp [some]

theorem LinkHdr.size {v : UInt16} {b : Buf} {proto h : Nat} (hl : LinkHdr v b proto h) :
    h = 14 ∨ h = 18 := by
  cases hl <;> simp

/-- The two addresses in front do not matter. -/
theorem LinkHdr.same {v : UInt16} {b c : Buf} {proto h n : Nat} (hl : LinkHdr v b proto h)
    (hs : Same 12 n b c) (hn : h ≤ n) : LinkHdr v c proto h := by
  cases hl with
  | plain none type => exact .plain none (by rw [hs.load16 (by omega) (by omega)]; exact type)
  | tagged some vlanType tag type =>
    exact .tagged some (by rw [hs.load16 (by omega) (by omega)]; exact vlanType)
      (by rw [hs.load16 (by omega) (by omega)]; exact tag)
      (by rw [hs.load16 (by omega) (by omega)]; exact type)

theorem netSetEther_link (s : Host) (b : Buf) (mac : Mac) (proto : Nat) (hp : proto < 65536) :
    LinkHdr s.conf.netOurVlan (netSetEther s b mac proto).1 proto
      (netSetEther s b mac proto).2 := by
  by_cases hv : vlanid s.conf.netOurVlan &&& 0x0fff = 4095
  · simp only [netSetEther, hv, if_true]
    refine .plain hv ?_
    rw [load16_store16, ntohs_htons hp]
  · simp only [netSetEther, hv, if_false]
    refine .tagged hv ?_ ?_ ?_
    · simp (disch := omega) only [load16_patch_off, load16_store16]
      decide
    · simp (disch := omega) only [load16_patch_off, load16_store16, swap16_swap16]
    · rw [load16_store16, ntohs_htons hp]

theorem netSetEther_behind (s : Host) (b : Buf) (mac : Mac) (proto i : Nat)
    (hi : (netSetEther s b mac proto).2 ≤ i) : (netSetEther s b mac proto).1 i = b i := by
  by_cases hv : vlanid s.conf.netOurVlan &&& 0x0fff = 4095
  · simp only [netSetEther, hv, if_true] at hi ⊢
    simp (disch := omega) only [patch_off]
  · simp only [netSetEther, hv, if_false] at hi ⊢
    simp (disch := omega) only [patch_off]

/-- In-place rewriting keeps the header's kind and its size. -/
theorem netUpdateEther_link (s : Host) {b : Buf} {proto h : Nat} (mac : Mac) (proto' : Nat)
    (hl : LinkHdr s.conf.netOurVlan b proto h) (hp : 1514 < proto) (hn : proto ≠ 0x8100)
    (hp' : proto' < 65536) :
    LinkHdr s.conf.netOurVlan (netUpdateEther s b mac proto').1 proto' h ∧
      (netUpdateEther s b mac proto').2 = h ∧
      ∀ i, h ≤ i → (netUpdateEther s b mac proto').1 i = b i := by
  have h12 : load16 (storeVec (storeVec b 0 mac) 6 s.netEthaddr) 12 = load16 b 12 := by
    simp (disch := omega) only [load16_patch_off]
  unfold netUpdateEther
  cases hl with
  | plain none type =>
    simp only [h12, type, hn, hp, if_true, if_false]
    refine ⟨.plain none ?_, trivial, ?_⟩
    · rw [load16_store16, ntohs_htons hp']
    · intro i hi
      simp (disch := omega) only [patch_off]
  | tagged some vlanType tag type =>
    simp only [h12, vlanType, if_true]
    refine ⟨.tagged some ?_ ?_ ?_, trivial, ?_⟩
    · simp (disch := omega) only [load16_patch_off]
      exact vlanType
    · simp (disch := omega) only [load16_patch_off]
      exact tag
    · rw [load16_store16, ntohs_htons hp']
    · intro i hi
      simp (disch := omega) only [patch_off]

/-- A receiver of the same VLAN, whatever its native one, takes the header off. -/
theorem rxLink_of_link {conf : NetConf} {b : Buf} {proto h : Nat} {len : Int}
    (hl : LinkHdr conf.netOurVlan b proto h) (hp : 1514 ≤ proto) (hn : proto ≠ 0x8100)
    (hlen : (h : Int) ≤ len) (hu : len < 2147483648) :
    rxLink conf b len = some ⟨proto, h, len - h⟩ := by
  have hsize : toSize len = len.toNat := toSize_of_range (by omega) hu
  have hlt : ¬ proto < 1514 := by omega
  cases hl with
  | plain none type =>
    have h14 : ¬ toSize len < 14 := by omega
    have hm := @lenMinus_eq len 14 (by omega) hu (by omega)
    simp only [rxLink, linkHeader, h14, type, hlt, hn, if_false, ne_eq, not_false_eq_true, if_true,
      vlanMatches, none, not_true_eq_false, hm]
  | tagged some vlanType tag type =>
    have h14 : ¬ toSize len < 14 := by omega
    have h18 : ¬ toSize len < 18 := by omega
    have hm := @lenMinus_eq len 18 (by omega) hu (by omega)
    have hv := some
    rw [vlanid_mask] at hv
    have hvid : swap16 (load16 b 14) &&& 0x0fff = vlanid conf.netOurVlan &&& 0x0fff := by
      rw [tag, UInt16.and_assoc, UInt16.and_self]
    have hmatch : vlanMatches conf (swap16 (load16 b 14) &&& 0x0fff) = true := by
      simp only [vlanMatches, hvid, some, ne_eq, not_false_eq_true, if_true, if_false,
        beq_self_eq_true]
    have h81 : ¬ (0x8100 < 1514) := by omega
    simp only [rxLink, linkHeader, h14, h18, vlanType, h81, if_false, ne_eq, not_true_eq_false, hv,
      type,
      hm, hmatch, if_true]

/-- A header passes once its checksum has gone over a zero field, whatever is
then written behind it. -/
theorem headerSum_stored {c d : Buf} {ip : Nat} (hz : load16 d (ip + 10) = 0)
    (h : Same ip (ip + 20) (store16 d (ip + 10) (UInt16.ofNat (computeIpChecksum d ip 20))) c) :
    ipChecksumOk c ip 20 = true := by
  rw [ipChecksumOk_congr (by omega) h]
  exact ipChecksumOk_store d ip 20 5 (by omega) (by omega) hz

structure ArpHdr (b : Buf) (arp op : Nat) (sha : Mac) (spa tpa : UInt32) : Prop where
  hrd : ntohs (load16 b arp) = 1
  pro : ntohs (load16 b (arp + 2)) = 0x0800
  hln : b (arp + 4) = 6
  pln : b (arp + 5) = 4
  op : ntohs (load16 b (arp + 6)) = op
  sha : loadVec 6 b (arp + 8) = sha
  spa : load32 b (arp + 14) = spa
  tpa : load32 b (arp + 24) = tpa

theorem ArpHdr.same {b c : Buf} {arp op m n : Nat} {sha : Mac} {spa tpa : UInt32}
    (ha : ArpHdr b arp op sha spa tpa) (hs : Same m n b c) (hm : m ≤ arp) (hn : arp + 28 ≤ n) :
    ArpHdr c arp op sha spa tpa where
  hrd := by rw [hs.load16 (by omega) (by omega)]; exact ha.hrd
  pro := by rw [hs.load16 (by omega) (by omega)]; exact ha.pro
  hln := by rw [hs (arp + 4) (by omega) (by omega)]; exact ha.hln
  pln := by rw [hs (arp + 5) (by omega) (by omega)]; exact ha.pln
  op := by rw [hs.load16 (by omega) (by omega)]; exact ha.op
  sha := by rw [hs.loadVec (by omega) (by omega)]; exact ha.sha
  spa := by rw [hs.load32 (by omega) (by omega)]; exact ha.spa
  tpa := by rw [hs.load32 (by omega) (by omega)]; exact ha.tpa

/-- The parser takes the packet for what it is. -/
theorem ArpHdr.accepted {conf : NetConf} {b : Buf} {arp op : Nat} {sha : Mac} {spa tpa : UInt32}
    {len : Int} (ha : ArpHdr b arp op sha spa tpa) (hlen : 28 ≤ len) (hip : conf.netIp ≠ 0)
    (ht : tpa = conf.netIp) : arpAccepted conf b arp len = true := by
  have hnot : ¬ len < 28 := by omega
  simp [arpAccepted, hnot, ha.hrd, ha.pro, ha.hln, ha.pln, hip, ha.tpa, ht]

/-- The answer to a request: our address, addressed back to the asker. -/
theorem arpReply_hdr (s : Host) {b : Buf} {arp : Nat} {sha : Mac} {spa tpa : UInt32}
    (hl : LinkHdr s.conf.netOurVlan b 0x0806 arp) (ha : ArpHdr b arp 1 sha spa tpa) :
    LinkHdr s.conf.netOurVlan (arpReply s b arp).1 0x0806 arp ∧ (arpReply s b arp).2 = arp ∧
      ArpHdr (arpReply s b arp).1 arp 2 s.netEthaddr s.conf.netIp spa := by
  obtain ⟨hlink, hsize, hrest⟩ :=
    netUpdateEther_link s (loadVec 6 b 6) 0x0806 hl (by omega) (by omega) (by omega)
  unfold arpReply
  generalize netUpdateEther s b (loadVec 6 b 6) 0x0806 = r at *
  obtain ⟨c, h⟩ := r
  dsimp only at *
  have hge := hl.size
  refine ⟨hlink.same (n := arp) (fun i _ hi => ?_) (Nat.le_refl _), hsize, ?_⟩
  · simp (disch := omega) only [patch_off]
  · constructor
    · simp (disch := omega) only [load16_patch_off]
      rw [load16_congr (fun i hi => hrest _ (by omega))]
      exact ha.hrd
    · simp (disch := omega) only [load16_patch_off]
      rw [load16_congr (fun i hi => hrest _ (by omega))]
      exact ha.pro
    · simp (disch := omega) only [patch_off]
      rw [hrest _ (by omega)]
      exact ha.hln
    · simp (disch := omega) only [patch_off]
      rw [hrest _ (by omega)]
      exact ha.pln
    · simp (disch := omega) only [load16_patch_off, load16_store16]
      decide
    · simp (disch := omega) only [loadVec_patch_off, loadVec_storeVec]
    · simp
    · simp (disch := omega) only [load32_patch_off, load32_copy]
      rw [load32_congr (fun i hi => hrest _ (by omega))]
      exact ha.spa

/-- The frame a request goes out in, and the host it leaves behind. -/
theorem arpRawRequest_hdr (s : Host) (sourceIp : UInt32) (mac : Mac) (targetIp : UInt32) :
    ∃ b arp, arpRawRequest s sourceIp mac targetIp =
        ({ s with arp := { s.arp with arpTxPacket := b } }).log
          (.ethSend .arpTxPacket (slice b 0 (arp + 28))) ∧
      LinkHdr s.conf.netOurVlan b 0x0806 arp ∧ ArpHdr b arp 1 s.netEthaddr sourceIp targetIp := by
  have hlink := netSetEther_link s s.arp.arpTxPacket netBcastEthaddr 0x0806 (by omega)
  unfold arpRawRequest
  generalize netSetEther s s.arp.arpTxPacket netBcastEthaddr 0x0806 = r at *
  obtain ⟨b, arp⟩ := r
  refine ⟨_, arp, rfl, hlink.same (n := arp) (fun i _ hi => ?_) (Nat.le_refl _), ?_⟩
  · simp (disch := omega) only [patch_off]
  · constructor
    · simp (disch := omega) only [load16_patch_off, load16_store16]
      decide
    · simp (disch := omega) only [load16_patch_off, load16_store16]
      decide
    · simp (disch := omega) only [patch_off, store8_same]
    · simp (disch := omega) only [patch_off, store8_same]
    · simp (disch := omega) only [load16_patch_off, load16_store16]
      decide
    · simp (disch := omega) only [loadVec_patch_off, loadVec_storeVec]
    · simp (disch := omega) only [load32_patch_off, load32_store32]
    · exact load32_store32 _ _ _

structure EchoHdr (b : Buf) (ip : Nat) (type : UInt8) (src dst : UInt32) : Prop where
  hl_v : b ip = 0x45
  len : ipLen b ip = 28
  whole : swap16 (load16 b (ip + 6)) &&& 0x3fff = 0
  proto : b (ip + 9) = 1
  sum : ipChecksumOk b ip 20 = true
  src : load32 b (ip + 12) = src
  dst : load32 b (ip + 16) = dst
  type : b (ip + 20) = type

theorem EchoHdr.same {b c : Buf} {ip m n : Nat} {type : UInt8} {src dst : UInt32}
    (he : EchoHdr b ip type src dst) (hs : Same m n b c) (hm : m ≤ ip) (hn : ip + 28 ≤ n) :
    EchoHdr c ip type src dst where
  hl_v := by rw [hs ip (by omega) (by omega)]; exact he.hl_v
  len := by unfold ipLen; rw [hs.load16 (by omega) (by omega)]; exact he.len
  whole := by rw [hs.load16 (by omega) (by omega)]; exact he.whole
  proto := by rw [hs (ip + 9) (by omega) (by omega)]; exact he.proto
  sum := by
    rw [ipChecksumOk_congr (by omega) (fun i _ _ => hs i (by omega) (by omega))]
    exact he.sum
  src := by rw [hs.load32 (by omega) (by omega)]; exact he.src
  dst := by rw [hs.load32 (by omega) (by omega)]; exact he.dst
  type := by rw [hs (ip + 20) (by omega) (by omega)]; exact he.type

/-- The addressee takes it, padded or not. -/
theorem EchoHdr.accepted {conf : NetConf} {b : Buf} {ip : Nat} {type : UInt8} {src dst : UInt32}
    {len : Int} (he : EchoHdr b ip type src dst) (hlen : 28 ≤ len) (hu : len < 2147483648)
    (hd : dst = conf.netIp) : IpAccepted conf b ip len where
  room := by rw [toSize_of_range (by omega) hu]; omega
  fits := by rw [he.len]; omega
  version := by rw [he.hl_v]; decide
  ihl := by rw [he.hl_v]; decide
  sum := he.sum
  dst := by rw [he.dst, hd]; simp
  whole := he.whole

/-- An echo packet goes to `receive_icmp`, all of it. -/
theorem EchoHdr.call {b : Buf} {ip : Nat} {type : UInt8} {src dst : UInt32}
    (he : EchoHdr b ip type src dst) : ipCall b ip = .receiveIcmp ip 28 src := by
  simp only [ipCall, he.proto, he.len, he.src, if_true]
  rfl

theorem setIcmpHeader_hdr (s : Host) (b : Buf) (pkt : Nat) (dest : UInt32) :
    EchoHdr (setIcmpHeader s b pkt dest).1 pkt 8 s.conf.netIp dest ∧
      Same 0 pkt b (setIcmpHeader s b pkt dest).1 ∧
      (setIcmpHeader s b pkt dest).2 =
        { s with netIpId := s.netIpId + 1, pingSeqNumber := s.pingSeqNumber + 1 } := by
  refine ⟨?hdr, fun i _ hi => ?same, rfl⟩
  case same =>
    simp only [setIcmpHeader, netSetIpHeader]
    simp (disch := omega) only [patch_off]
  case hdr =>
    simp only [setIcmpHeader, netSetIpHeader]
    constructor
    · simp (disch := omega) only [patch_off, store8_same]
    · unfold ipLen
      simp (disch := omega) only [load16_patch_off, load16_store16]
      decide
    · simp (disch := omega) only [load16_patch_off, load16_store16]
      decide
    · simp (disch := omega) only [patch_off, store8_same]
    · generalize hc : store8 (store16 _ (pkt + 2) (htons 28)) (pkt + 9) 1 = c
      have hz : load16 c (pkt + 10) = 0 := by
        subst hc
        simp (disch := omega) only [load16_patch_off, load16_store16]
      apply headerSum_stored hz
      intro i hl hu
      simp (disch := omega) only [patch_off]
    · simp (disch := omega) only [load32_patch_off, load32_store32]
    · simp (disch := omega) only [load32_patch_off, load32_store32]
    · simp (disch := omega) only [patch_off, store8_same]

/-- The answer to an echo request: type 0, from us to the asker. -/
theorem echoReply_hdr (s : Host) {b : Buf} {ip : Nat} {src dst : UInt32} (len : Int)
    (hl : LinkHdr s.conf.netOurVlan b 0x0800 ip) (he : EchoHdr b ip 8 src dst) :
    LinkHdr s.conf.netOurVlan (echoReply s b ip len).1 0x0800 ip ∧ (echoReply s b ip len).2 = ip ∧
      EchoHdr (echoReply s b ip len).1 ip 0 s.conf.netIp src := by
  obtain ⟨hlink, hsize, hrest⟩ :=
    netUpdateEther_link s (loadVec 6 b 6) 0x0800 hl (by omega) (by omega) (by omega)
  unfold echoReply
  generalize netUpdateEther s b (loadVec 6 b 6) 0x0800 = r at *
  obtain ⟨c, h⟩ := r
  dsimp only at *
  refine ⟨hlink.same (n := ip) (fun i _ hi => ?_) (Nat.le_refl _), hsize, ?_⟩
  · simp (disch := omega) only [patch_off]
  · constructor
    · simp (disch := omega) only [patch_off]
      rw [hrest _ (by omega)]
      exact he.hl_v
    · unfold ipLen
      simp (disch := omega) only [load16_patch_off]
      rw [load16_congr (fun i hi => hrest _ (by omega))]
      exact he.len
    · simp (disch := omega) only [load16_patch_off, load16_store16]
      decide
    · simp (disch := omega) only [patch_off]
      rw [hrest _ (by omega)]
      exact he.proto
    · generalize hd : store32 (copy _ (ip + 16) _ (ip + 12) 4) (ip + 12) s.conf.netIp = d
      have hz : load16 d (ip + 10) = 0 := by
        subst hd
        simp (disch := omega) only [load16_patch_off, load16_store16]
      apply headerSum_stored hz
      intro i hl hu
      simp (disch := omega) only [patch_off]
    · simp (disch := omega) only [load32_patch_off, load32_store32]
    · simp (disch := omega) only [load32_patch_off, load32_copy]
      rw [load32_congr (fun i hi => hrest _ (by omega))]
      exact he.src
    · simp (disch := omega) only [patch_off, store8_same]

theorem netSetUdpHeader_hdr (s : Host) (b : Buf) (pkt : Nat) (dest : UInt32)
    (dport sport len : Nat) :
    load32 (netSetUdpHeader s b pkt dest dport sport len).1 (pkt + 16) = dest ∧
      Same 0 pkt b (netSetUdpHeader s b pkt dest dport sport len).1 ∧
      (netSetUdpHeader s b pkt dest dport sport len).2 = { s with netIpId := s.netIpId + 1 } := by
  refine ⟨?dst, fun i _ hi => ?same, rfl⟩
  case dst =>
    simp only [netSetUdpHeader, netSetIpHeader]
    simp (disch := omega) only [load32_patch_off, load32_store32]
  case same =>
    simp only [netSetUdpHeader, netSetIpHeader]
    simp (disch := omega) only [patch_off]
    split
    · exact patch_off (by omega)
    · rfl

end EmacDriver
