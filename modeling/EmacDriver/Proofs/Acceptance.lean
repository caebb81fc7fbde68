import EmacDriver.Proofs.Packets
import EmacDriver.Proofs.ReceiveBounds

namespace EmacDriver
open Bytes

/-- A frame's protocol, the offset behind its link header and its VLAN id, 4095
standing for none. -/
inductive LinkRead (conf : NetConf) (b : Buf) : Nat → Nat → UInt16 → Prop where
  | e802 (type : ntohs (load16 b 12) < 1514) :
      LinkRead conf b (ntohs (load16 b 20)) 22 4095
  | ether (type : 1514 ≤ ntohs (load16 b 12)) (untagged : ntohs (load16 b 12) ≠ 0x8100) :
      LinkRead conf b (ntohs (load16 b 12)) 14 4095
  | vlan (tagged : ntohs (load16 b 12) = 0x8100) (ours : vlanid conf.netOurVlan &&& 0x0fff ≠ 4095) :
      LinkRead conf b (ntohs (load16 b 16)) 18 (swap16 (load16 b 14) &&& 0x0fff)

/-- The parser takes one of the three link headers. -/
theorem linkHeader_read {conf : NetConf} {b : Buf} {len : Int} {part : LinkPart} {vid : UInt16}
    (h : linkHeader conf b len = some (part, vid)) :
    LinkRead conf b part.ethProto part.ip vid := by
  rw [linkHeader, if_neg (linkHeader_cut h).1] at h
  dsimp only at h
  split at h
  · rename_i hlt
    cases h
    exact .e802 hlt
  · rename_i hge
    split at h
    · rename_i hne
      cases h
      exact .ether (Nat.le_of_not_lt hge) hne
    · rename_i heq
      split at h
      · cases h
      · split at h
        · cases h
        · rename_i hours
          cases h
          rw [← vlanid_mask] at hours
          exact .vlan (Decidable.not_not.mp heq) hours

/-- A frame past the link layer is in our VLAN, if we have one. -/
theorem rxLink_read {conf : NetConf} {b : Buf} {len : Int} {part : LinkPart}
    (h : rxLink conf b len = some part) :
    ∃ vid, LinkRead conf b part.ethProto part.ip vid ∧ vlanMatches conf vid = true := by
  unfold rxLink at h
  split at h
  · rename_i q vid hq
    split at h
    · rename_i hm
      cases h
      exact ⟨vid, linkHeader_read hq, hm⟩
    · cases h
  · cases h

def frameTag (b : Buf) : Option UInt16 :=
  if ntohs (load16 b 12) = 0x8100 then some (swap16 (load16 b 14) &&& 0x0fff) else none

/-- The VLAN a frame counts in: no tag, and the tag 4095, mean the native one. -/
def frameVlan (conf : NetConf) (b : Buf) : UInt16 :=
  let vid := (frameTag b).getD 4095
  if vid = 4095 then vlanid conf.netNativeVlan &&& 0x0fff else vid

/-- The VLANs of a receiver: with one of its own only that, else none. -/
structure VlanAccepted (conf : NetConf) (b : Buf) : Prop where
  configured : vlanid conf.netOurVlan &&& 0x0fff ≠ 4095 →
    frameVlan conf b = vlanid conf.netOurVlan &&& 0x0fff
  unconfigured : vlanid conf.netOurVlan &&& 0x0fff = 4095 → frameTag b = none

theorem LinkRead.tag {conf : NetConf} {b : Buf} {proto ip : Nat} {vid : UInt16}
    (h : LinkRead conf b proto ip vid) :
    (frameTag b).getD 4095 = vid ∧
      (vlanid conf.netOurVlan &&& 0x0fff = 4095 → frameTag b = none) := by
  cases h with
  | e802 type =>
    have hne : ntohs (load16 b 12) ≠ 0x8100 := by omega
    simp [frameTag, hne]
  | ether type untagged => simp [frameTag, untagged]
  | vlan tagged ours => simp [frameTag, tagged, ours]

/-- Past the link layer the frame is in a VLAN of ours. -/
theorem rxLink_vlan {conf : NetConf} {b : Buf} {len : Int} {part : LinkPart}
    (h : rxLink conf b len = some part) : VlanAccepted conf b := by
  obtain ⟨vid, hread, hmatch⟩ := rxLink_read h
  obtain ⟨htag, hnone⟩ := hread.tag
  refine ⟨?_, hnone⟩
  intro hset
  simp only [vlanMatches, hset, ne_eq, not_false_eq_true, if_true, beq_iff_eq] at hmatch
  simpa only [frameVlan, htag] using hmatch

/-- What the receiver is to demand of an IPv4 packet at `ip`: a header of five
words, nothing that needs reassembly, and one of its own addresses. -/
structure Ipv4Accepted (conf : NetConf) (b : Buf) (ip : Nat) : Prop where
  version : (b ip).toNat / 16 = 4
  ihl : (b ip).toNat % 16 = 5
  sum : ipChecksumOk b ip 20 = true
  offset : swap16 (load16 b (ip + 6)) &&& 0x1fff = 0
  last : swap16 (load16 b (ip + 6)) &&& 0x2000 = 0
  dst : load32 b (ip + 16) = conf.netIp ∨ load32 b (ip + 16) = 0xffffffff ∨ conf.netIp = 0
  vlan : VlanAccepted conf b

theorem high_nibble {x : UInt8} (h : x &&& 0xf0 = 0x40) : x.toNat / 16 = 4 := by
  have hn : x.toNat &&& 240 = 64 := congrArg UInt8.toNat h
  have hd : (x.toNat &&& 240) / 2 ^ 4 = x.toNat / 2 ^ 4 &&& 2 ^ 4 - 1 := Nat.and_div_two_pow
  have := x.toNat_lt
  rw [hn, Nat.and_two_pow_sub_one_eq_mod] at hd
  omega

theorem low_nibble (x : UInt8) : (x &&& 0x0f).toNat = x.toNat % 16 := by
  rw [UInt8.toNat_and]
  exact Nat.and_two_pow_sub_one_eq_mod x.toNat 4

/-- Clearing the don't-fragment bit and nothing else leaves both parts clear. -/
theorem fragment_bits {x : UInt16} (h : x &&& 0x3fff = 0) :
    x &&& 0x1fff = 0 ∧ x &&& 0x2000 = 0 := by
  constructor
  · have hm : x &&& 0x1fff = x &&& 0x3fff &&& 0x1fff := by rw [UInt16.and_assoc]; rfl
    rw [hm, h]
    rfl
  · have hm : x &&& 0x2000 = x &&& 0x3fff &&& 0x2000 := by rw [UInt16.and_assoc]; rfl
    rw [hm, h]
    rfl

inductive IpHandled (conf : NetConf) (b : Buf) (len : Int) (ip : Nat) : Prop where
  | icmp (l : Int) (src : UInt32) (call : rxCall conf b len = .receiveIcmp ip l src)
  | udp (dport : Nat) (src : UInt32) (sport l : Nat)
      (call : rxCall conf b len = .udpPacketHandler (ip + 28) dport src sport l)

theorem IpHandled.accepted {conf : NetConf} {b : Buf} {len : Int} {ip : Nat}
    (h : IpHandled conf b len ip) :
    ∃ part, rxLink conf b len = some part ∧ part.ip = ip ∧ IpAccepted conf b ip part.len := by
  cases h with
  | icmp l src call =>
    obtain ⟨part, hp, hip, ha, -⟩ := rxCall_icmp call
    exact ⟨part, hp, hip, ha⟩
  | udp dport src sport l call =>
    obtain ⟨part, hp, hpkt, ha, -⟩ := rxCall_udp call
    have hip : part.ip = ip := by omega
    exact ⟨part, hp, hip, hip ▸ ha⟩

/-- A handled packet passes every test but one: the header length is only
bounded from above. -/
theorem ipv4_accepted_iff (conf : NetConf) (b : Buf) (len : Int) (ip : Nat)
    (h : IpHandled conf b len ip) : Ipv4Accepted conf b ip ↔ 5 ≤ (b ip).toNat % 16 := by
  constructor
  · intro ha
    exact Nat.le_of_eq ha.ihl.symm
  · intro hihl
    obtain ⟨part, hp, rfl, ha⟩ := h.accepted
    obtain ⟨hoff, hlast⟩ := fragment_bits ha.whole
    have hmax : (b part.ip).toNat % 16 ≤ 5 := by
      have := ha.ihl
      rw [gt_iff_lt, UInt8.lt_iff_toNat_lt, low_nibble] at this
      exact Nat.le_of_not_lt this
    refine ⟨high_nibble ha.version, Nat.le_antisymm hmax hihl, ha.sum, hoff, hlast, ?_,
      rxLink_vlan hp⟩
    apply Decidable.byContradiction
    intro hno
    simp only [not_or] at hno
    exact ha.dst ⟨hno.2.2, hno.1, hno.2.1⟩

theorem ipv4_accepted_iff_echo : Ipv4Accepted plainConf (ipFrame 28 1 [0x31, 0x77] [8]) 14 :=
  (ipv4_accepted_iff plainConf (ipFrame 28 1 [0x31, 0x77] [8]) 60 14
    (.icmp 28 0x0364a8c0 (by decide +kernel))).mpr (by decide +kernel)

/-- An echo request that gives its header as four words, checksum right. -/
theorem short_header_accepted :
    ¬ ∀ (conf : NetConf) (b : Buf) (len : Int) (ip : Nat), IpHandled conf b len ip →
      Ipv4Accepted conf b ip := by
  intro h
  have ha := h plainConf (store8 (ipFrame 28 1 [0x32, 0x77] [8]) 14 0x44) 60 14
    (.icmp 28 0x0364a8c0 (by decide +kernel))
  have hihl := ha.ihl
  revert hihl
  decide +kernel

end EmacDriver
