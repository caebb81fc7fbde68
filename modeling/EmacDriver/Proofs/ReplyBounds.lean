import EmacDriver.Proofs.Acceptance
import EmacDriver.Proofs.ArpWait

namespace EmacDriver
open Bytes

/-- The rewriter reads the type field where the receiver read it, and finds the
same header. They part only at 1514, which is no protocol. -/
theorem netUpdateEther_size (s : Host) {b : Buf} {proto ip : Nat} {vid : UInt16} (mac : Mac)
    (prot : Nat) (h : LinkRead s.conf b proto ip vid) (hp : 1514 < proto) :
    (netUpdateEther s b mac prot).2 = ip := by
  have h12 : load16 (storeVec (storeVec b 0 mac) 6 s.netEthaddr) 12 = load16 b 12 := by
    simp (disch := omega) only [load16_patch_off]
  unfold netUpdateEther
  dsimp only
  rw [h12]
  cases h with
  | e802 type =>
    rw [if_neg (by omega), if_neg (by omega)]
  | ether type untagged =>
    rw [if_neg untagged, if_pos hp]
  | vlan tagged ours =>
    rw [if_pos tagged]

inductive Replied (s : Host) (f : Frame) (frame : List UInt8) : Prop where
  | arp (ip : Nat) (l : Int) (call : rxCall s.conf f.inPacket f.len = .arpReceive ip l)
      (long : 28 ≤ l)
      (reply : frame = slice (arpReply s f.inPacket ip).1 0 ((arpReply s f.inPacket ip).2 + 28))
  | echo (ip : Nat) (l : Int) (src : UInt32)
      (call : rxCall s.conf f.inPacket f.len = .receiveIcmp ip l src)
      (reply : frame =
        slice (echoReply s f.inPacket ip l).1 0 ((echoReply s f.inPacket ip l).2 + l.toNat))

theorem unsent {t evs : List Event} {e : Event} (h : t = t ++ evs) : e ∉ evs := by
  simp [List.self_eq_append_right.mp h]

theorem sent {s : Host} {packet packet' : Packet} {pkt : Buf} {len : Nat} {frame : List UInt8}
    {evs : List Event} (h : (netSendPacket s packet pkt len).trace = s.trace ++ evs)
    (he : .ethSend packet' frame ∈ evs) : frame = slice pkt 0 len := by
  have hevs : [.ethSend packet (slice pkt 0 len)] = evs := List.append_cancel_left h
  simp only [← hevs, List.mem_singleton, Event.ethSend.injEq] at he
  exact he.2

/-- An ARP reply is sent only behind the test of the length. -/
theorem arpReceive_reply {s : Host} {b : Buf} {arp : Nat} {l : Int} {evs : List Event}
    {frame : List UInt8} (ht : (arpReceive s b arp l).trace = s.trace ++ evs)
    (he : .ethSend .inPacket frame ∈ evs) :
    28 ≤ l ∧ frame = slice (arpReply s b arp).1 0 ((arpReply s b arp).2 + 28) := by
  unfold arpReceive at ht
  split at ht
  · rename_i hacc
    have hlong : 28 ≤ l := by
      apply Decidable.byContradiction
      intro hlt
      have hlt : l < 28 := by omega
      simp [arpAccepted, hlt] at hacc
    split at ht
    · refine ⟨hlong, ?_⟩
      generalize arpReply s b arp = r at ht ⊢
      exact sent ht he
    · split at ht
      · split at ht
        · exact absurd he (unsent ht)
        · split at ht
          · rw [arpMatched_trace] at ht
            have hevs := List.append_cancel_left ht
            simp [← hevs] at he
          · exact absurd he (unsent ht)
      · exact absurd he (unsent ht)
  · exact absurd he (unsent ht)

/-- An echo reply has the length of its request. -/
theorem receiveIcmp_reply {s : Host} {b : Buf} {ip : Nat} {l : Int} {evs : List Event}
    {frame : List UInt8} (ht : (receiveIcmp s b ip l).trace = s.trace ++ evs)
    (he : .ethSend .inPacket frame ∈ evs) :
    frame = slice (echoReply s b ip l).1 0 ((echoReply s b ip l).2 + l.toNat) := by
  unfold receiveIcmp pingReceive at ht
  split at ht
  · exact absurd he (unsent ht)
  · split at ht
    · split at ht
      · have hevs := List.append_cancel_left ht
        simp [← hevs] at he
      · exact absurd he (unsent ht)
    · split at ht
      · generalize echoReply s b ip l = r at ht ⊢
        exact sent ht he
      · exact absurd he (unsent ht)

/-- Only these two send from the buffer of the received frame. -/
theorem replied_of_sent {s : Host} {f : Frame} {evs : List Event} {frame : List UInt8}
    (ht : (netProcessReceivedPacket s f).trace = s.trace ++ evs)
    (he : .ethSend .inPacket frame ∈ evs) : Replied s f frame := by
  unfold netProcessReceivedPacket at ht
  cases hc : rxCall s.conf f.inPacket f.len with
  | drop =>
    simp only [hc] at ht
    exact absurd he (unsent ht)
  | arpReceive arp l =>
    simp only [hc] at ht
    obtain ⟨hlong, hreply⟩ := arpReceive_reply ht he
    exact .arp arp l hc hlong hreply
  | receiveIcmp ip l src =>
    simp only [hc] at ht
    exact .echo ip l src hc (receiveIcmp_reply ht he)
  | udpPacketHandler pkt dport src sport l =>
    simp only [hc] at ht
    have hevs := List.append_cancel_left ht
    simp [← hevs] at he

theorem rxCall_proto {conf : NetConf} {b : Buf} {len : Int} {part : LinkPart}
    (hp : rxLink conf b len = some part) (h : rxCall conf b len ≠ .drop) :
    1514 < part.ethProto := by
  simp only [rxCall, hp] at h
  by_cases harp : part.ethProto = 0x0806
  · omega
  · by_cases hip : part.ethProto = 0x0800
    · omega
    · simp [harp, hip] at h

theorem arpReply_size (s : Host) (b : Buf) (arp : Nat) :
    (arpReply s b arp).2 = (netUpdateEther s b (loadVec 6 b 6) 0x0806).2 := by
  unfold arpReply
  generalize netUpdateEther s b (loadVec 6 b 6) 0x0806 = r
  rfl

theorem echoReply_size (s : Host) (b : Buf) (ip : Nat) (l : Int) :
    (echoReply s b ip l).2 = (netUpdateEther s b (loadVec 6 b 6) 0x0800).2 := by
  unfold echoReply
  generalize netUpdateEther s b (loadVec 6 b 6) 0x0800 = r
  rfl

/-- A reply has the link header of its request and is no longer than it. -/
theorem reply_inside_request (s : Host) (f : Frame) (hl : 0 ≤ f.len) (hu : f.len < 2147483648)
    (evs : List Event) (frame : List UInt8)
    (ht : (netProcessReceivedPacket s f).trace = s.trace ++ evs)
    (he : .ethSend .inPacket frame ∈ evs) :
    ∃ part, rxLink s.conf f.inPacket f.len = some part ∧
      (part.ip = 14 ∨ part.ip = 18 ∨ part.ip = 22) ∧
      (∀ mac prot, (netUpdateEther s f.inPacket mac prot).2 = part.ip) ∧
      frame.length ≤ f.len := by
  have hsize : ∀ part, rxLink s.conf f.inPacket f.len = some part →
      rxCall s.conf f.inPacket f.len ≠ .drop →
      ∀ mac prot, (netUpdateEther s f.inPacket mac prot).2 = part.ip := by
    intro part hp hcall mac prot
    obtain ⟨vid, hread, -⟩ := rxLink_read hp
    exact netUpdateEther_size s mac prot hread (rxCall_proto hp hcall)
  cases replied_of_sent ht he with
  | arp ip l call long reply =>
    obtain ⟨part, hp, rfl, rfl⟩ := rxCall_arp call
    obtain ⟨hlen, hip, -⟩ := rxLink_len (by omega) hu hp
    have hupd := hsize part hp (by simp [call])
    refine ⟨part, hp, hip, hupd, ?_⟩
    rw [reply, length_slice, arpReply_size, hupd]
    omega
  | echo ip l src call reply =>
    obtain ⟨part, hp, rfl, ha, rfl, -⟩ := rxCall_icmp call
    obtain ⟨hlen, hip, -⟩ := rxLink_len (by omega) hu hp
    have hupd := hsize part hp (by simp [call])
    have hin := ha.inside (by omega)
    refine ⟨part, hp, hip, hupd, ?_⟩
    rw [reply, length_slice, echoReply_size, hupd]
    omega

/-- The reply to an echo request of 60 bytes. -/
theorem reply_inside_request_echo :
    ∃ frame, .ethSend .inPacket frame ∈ (netProcessReceivedPacket idleHost
        ⟨ipFrame 28 1 [0x31, 0x77] [8], 60⟩).trace ∧ (frame.length : Int) ≤ 60 := by
  have hcall : rxCall idleHost.conf (ipFrame 28 1 [0x31, 0x77] [8]) 60 =
      .receiveIcmp 14 28 0x0364a8c0 := by decide +kernel
  have htype : ipFrame 28 1 [0x31, 0x77] [8] 34 = 8 := by decide +kernel
  obtain ⟨frame, ht⟩ : ∃ frame, (netProcessReceivedPacket idleHost
      ⟨ipFrame 28 1 [0x31, 0x77] [8], 60⟩).trace =
        idleHost.trace ++ [.ethSend .inPacket frame] := by
    simp only [netProcessReceivedPacket, hcall, receiveIcmp, pingReceive, htype]
    exact ⟨_, rfl⟩
  obtain ⟨-, -, -, -, hlen⟩ := reply_inside_request idleHost
    ⟨ipFrame 28 1 [0x31, 0x77] [8], 60⟩ (by decide) (by decide) _ frame ht List.mem_cons_self
  refine ⟨frame, ?_, hlen⟩
  rw [ht]
  exact List.mem_append_right _ List.mem_cons_self

end EmacDriver
