import EmacDriver.UdpChecksum
import EmacDriver.Proofs.Acceptance

namespace EmacDriver
open Bytes OnesSum

def udpWords (b : Buf) (ip : Nat) : List Nat :=
  wordsBE b (ip + 12) 8 ++ (b (ip + 9)).toNat :: ntohs (load16 b (ip + 24)) ::
    wordsBE b (ip + 20) (ntohs (load16 b (ip + 24)))

theorem sumDatagram_eq (b : Buf) (o n x : Nat) : sumDatagram b o n x = x + (wordsBE b o n).sum := by
  fun_induction wordsBE b o n generalizing x with
  | case1 o n ih =>
    rw [sumDatagram, ih, List.sum_cons, ntohs]
    omega
  | case2 o =>
    have hb := (b o).toNat_lt
    have hmask : (b o).toNat <<< 8 &&& 0xff00 = 256 * (b o).toNat := by
      have hlow : 0xff00 = 0xff <<< 8 := rfl
      rw [hlow, ← Nat.shiftLeft_and_distrib, Nat.and_two_pow_sub_one_eq_mod (b o).toNat 8,
        Nat.mod_eq_of_lt hb, Nat.shiftLeft_eq, Nat.mul_comm]
    rw [sumDatagram, hmask, List.sum_singleton]
  | case3 => rfl

/-- Two bytes add one word at most. -/
theorem wordsBE_sum_le (b : Buf) (o n : Nat) : (wordsBE b o n).sum ≤ 65535 * ((n + 1) / 2) := by
  fun_induction wordsBE b o n with
  | case1 o n ih =>
    have hw := (swap16 (load16 b o)).toNat_lt
    rw [List.sum_cons]
    omega
  | case2 o =>
    have hb := (b o).toNat_lt
    rw [List.sum_singleton]
    omega
  | case3 => simp

/-- The two halves of an address. -/
theorem halves_sum (b : Buf) (o : Nat) :
    ((ntohl (load32 b o)).toNat >>> 16 &&& 0xffff) + ((ntohl (load32 b o)).toNat >>> 0 &&& 0xffff) =
      (wordsBE b o 4).sum := by
  have h0 := (b o).toNat_lt
  have h1 := (b (o + 1)).toNat_lt
  have h2 := (b (o + 2)).toNat_lt
  have h3 := (b (o + 3)).toNat_lt
  have hload : (load32 b o).toNat = (b (o + 3)).toNat * 16777216 + (b (o + 2)).toNat * 65536 +
      (b (o + 1)).toNat * 256 + (b o).toNat := by
    simp only [load32, UInt32.toNat_ofNat']
    omega
  obtain ⟨hd, hc, hb, ha⟩ := bytes_of_sum hload h2 h1 h0
  have hnet := swap32_toNat (load32 b o)
  rw [hd, hc, hb, ha] at hnet
  clear hd hc hb ha hload
  rw [ntohl, hnet, Nat.shiftRight_eq_div_pow, Nat.shiftRight_zero,
    Nat.and_two_pow_sub_one_eq_mod _ 16, Nat.and_two_pow_sub_one_eq_mod _ 16]
  simp only [wordsBE, List.sum_cons, List.sum_nil, swap16_load16_toNat, Nat.add_assoc,
    Nat.reduceAdd, Nat.reducePow]
  omega

theorem pseudoSum_eq (b : Buf) (ip : Nat) :
    sumDatagram b (ip + 20) (ntohs (load16 b (ip + 24))) (pseudoSum b ip) = (udpWords b ip).sum := by
  have hsrc := halves_sum b (ip + 12)
  have hdst := halves_sum b (ip + 16)
  have hboth : (wordsBE b (ip + 12) 8).sum =
      (wordsBE b (ip + 12) 4).sum + (wordsBE b (ip + 16) 4).sum := by
    simp only [wordsBE, List.sum_cons, List.sum_nil, Nat.add_assoc, Nat.reduceAdd, Nat.zero_add]
  rw [sumDatagram_eq, udpWords, List.sum_append, List.sum_cons, List.sum_cons, hboth]
  simp only [pseudoSum]
  omega

/-- The loop ends at the end-around-carry sum. -/
theorem foldXsum_eq {x : Nat} (hx : x < 4294967296) : foldXsum x = canon x := by
  have hlow : x &&& 0xffff = x % 65536 := Nat.and_two_pow_sub_one_eq_mod x 16
  have hhigh : x >>> 16 &&& 0xffff = x / 65536 := by
    rw [Nat.shiftRight_eq_div_pow]
    refine (Nat.and_two_pow_sub_one_eq_mod (x / 65536) 16).trans (Nat.mod_eq_of_lt ?_)
    omega
  have hdiv : x >>> 16 = x / 65536 := Nat.shiftRight_eq_div_pow x 16
  rw [foldXsum, hlow, hhigh, hdiv]
  by_cases hbig : x / 65536 ≠ 0
  · rw [if_pos hbig, foldXsum_eq (by omega)]
    exact canon_congr (by omega) (by omega)
  · rw [if_neg hbig]
    unfold canon
    split <;> omega
termination_by x

theorem udpWords_le (b : Buf) (ip : Nat) : ∀ w ∈ udpWords b ip, w ≤ 65535 := by
  intro w hw
  rw [udpWords, List.mem_append, List.mem_cons, List.mem_cons] at hw
  obtain hw | rfl | rfl | hw := hw
  · exact wordsBE_le b _ _ w hw
  · have hb := (b (ip + 9)).toNat_lt
    omega
  · exact Nat.le_of_lt_succ (ntohs_lt _)
  · exact wordsBE_le b _ _ w hw

/-- The total fits 32 bits, so that nothing is lost before it is folded. -/
theorem udpWords_sum_lt (b : Buf) (ip : Nat) : (udpWords b ip).sum < 4294967296 := by
  have hlen := ntohs_lt (load16 b (ip + 24))
  have hproto := (b (ip + 9)).toNat_lt
  have haddr := wordsBE_sum_le b (ip + 12) 8
  have hdata := wordsBE_sum_le b (ip + 20) (ntohs (load16 b (ip + 24)))
  rw [udpWords, List.sum_append, List.sum_cons, List.sum_cons]
  omega

/-- The protocol number keeps the sum from being zero. -/
theorem udpXsumOk_iff {b : Buf} {ip : Nat} (hproto : b (ip + 9) ≠ 0) :
    udpXsumOk b ip = true ↔ load16 b (ip + 26) = 0 ∨ (udpWords b ip).sum % 65535 = 0 := by
  have hpos : 0 < (udpWords b ip).sum := by
    have hb : (b (ip + 9)).toNat ≠ 0 := fun h => hproto (UInt8.toNat_inj.mp h)
    rw [udpWords, List.sum_append, List.sum_cons]
    omega
  rw [udpXsumOk, pseudoSum_eq, foldXsum_eq (udpWords_sum_lt b ip)]
  by_cases hx : load16 b (ip + 26) = 0
  · simp [hx]
  · have hones := canon_eq_ones (t := (udpWords b ip).sum)
    have hzero : canon (udpWords b ip).sum ≠ 0 := by
      unfold canon
      split <;> omega
    rw [if_pos hx, Bool.not_eq_true', Bool.and_eq_false_iff, decide_eq_false_iff_not,
      decide_eq_false_iff_not, Decidable.not_not, Decidable.not_not, hones]
    constructor
    · rintro (hz | hz)
      · exact absurd hz hzero
      · exact Or.inr hz.2
    · rintro (hz | hz)
      · exact absurd hz hx
      · exact Or.inr ⟨hpos, hz⟩

/-- A datagram on its way to the handler, at `ip`. -/
theorem rxCall_udp_proto {conf : NetConf} {b : Buf} {len : Int} {pkt dport : Nat} {src : UInt32}
    {sport l : Nat} (h : rxCall conf b len = .udpPacketHandler pkt dport src sport l) :
    ∃ part, rxLink conf b len = some part ∧ pkt = part.ip + 28 ∧ b (part.ip + 9) = 17 := by
  rcases rxCall_cases conf b len with hd | ⟨part, hp, ⟨_, he⟩ | ⟨ha, he⟩⟩
  · rw [hd] at h
    cases h
  · rw [he] at h
    cases h
  · rw [he, ipCall] at h
    split at h
    · cases h
    · split at h
      · cases h
      · rename_i hproto
        cases h
        exact ⟨part, hp, rfl, Decidable.not_not.mp hproto⟩

/-- The option adds one test, and nothing else. -/
theorem rxCallXsum_iff {conf : NetConf} {b : Buf} {len : Int} {pkt dport : Nat} {src : UInt32}
    {sport l : Nat} :
    rxCallXsum conf b len = .udpPacketHandler pkt dport src sport l ↔
      rxCall conf b len = .udpPacketHandler pkt dport src sport l ∧
        udpXsumOk b (pkt - 28) = true := by
  rw [rxCallXsum]
  cases rxCall conf b len with
  | drop => simp
  | arpReceive arp n => simp
  | receiveIcmp ip n s => simp
  | udpPacketHandler p d s sp n =>
    by_cases hok : udpXsumOk b (p - 28) = true
    · simp only [if_pos hok]
      constructor
      · intro h
        cases h
        exact ⟨rfl, hok⟩
      · exact fun h => h.1
    · simp only [if_neg hok]
      constructor
      · intro h
        cases h
      · rintro ⟨h, hx⟩
        cases h
        exact absurd hx hok

/-- With the option, a datagram is passed on exactly when it would be without and its checksum
is absent or right: the end-around-carry sum over the pseudo header and the datagram is all
ones. -/
theorem udp_xsum_checked (conf : NetConf) (b : Buf) (len : Int) (pkt dport : Nat) (src : UInt32)
    (sport l : Nat) :
    rxCallXsum conf b len = .udpPacketHandler pkt dport src sport l ↔
      rxCall conf b len = .udpPacketHandler pkt dport src sport l ∧
        (load16 b (pkt - 2) = 0 ∨ OnesSum.sum (udpWords b (pkt - 28)) = 65535) := by
  rw [rxCallXsum_iff]
  apply and_congr_right
  intro h
  obtain ⟨part, -, rfl, hproto⟩ := rxCall_udp_proto h
  have hpos : 0 < (udpWords b part.ip).sum := by
    rw [udpWords, List.sum_append, List.sum_cons, hproto]
    exact Nat.lt_of_lt_of_le (by decide : 0 < 17) (by
      have h17 : (17 : UInt8).toNat = 17 := rfl
      omega)
  have hne : b (part.ip + 9) ≠ 0 := by
    rw [hproto]
    decide
  have hsub : part.ip + 28 - 2 = part.ip + 26 := rfl
  rw [Nat.add_sub_cancel, udpXsumOk_iff hne, hsub, sum_eq_canon _ (udpWords_le b part.ip),
    canon_eq_ones]
  exact or_congr_right (and_iff_right hpos).symm

theorem LinkRead.ip_ge {conf : NetConf} {b : Buf} {proto ip : Nat} {vid : UInt16}
    (h : LinkRead conf b proto ip vid) : 14 ≤ ip := by
  cases h with
  | e802 type => decide
  | ether type untagged => decide
  | vlan tagged ours => decide

/-- The link layer does not see a change behind it. -/
theorem rxLink_store16 (conf : NetConf) (b : Buf) (len : Int) {o : Nat} (v : UInt16)
    (ho : 22 ≤ o) : rxLink conf (store16 b o v) len = rxLink conf b len := by
  have hload (p : Nat) (hp : p ≤ 20) : load16 (store16 b o v) p = load16 b p :=
    load16_patch_off (by omega)
  simp only [rxLink, linkHeader, hload 12 (by decide), hload 20 (by decide), hload 14 (by decide),
    hload 16 (by decide)]

/-- A changed word changes the total, by more than a multiple of 65535. -/
theorem udpWords_store16 {b : Buf} {ip j : Nat} {v : UInt16}
    (hj : 2 * j + 2 ≤ ntohs (load16 b (ip + 24))) (hlen : j ≠ 2)
    (hv : v.toNat % 65535 ≠ (load16 b (ip + 20 + 2 * j)).toNat % 65535)
    (h : (udpWords b ip).sum % 65535 = 0) :
    (udpWords (store16 b (ip + 20 + 2 * j) v) ip).sum % 65535 ≠ 0 := by
  have hword : load16 (store16 b (ip + 20 + 2 * j) v) (ip + 24) = load16 b (ip + 24) :=
    load16_patch_off (by omega)
  have hproto : store16 b (ip + 20 + 2 * j) v (ip + 9) = b (ip + 9) := patch_off (by omega)
  have haddr : wordsBE (store16 b (ip + 20 + 2 * j) v) (ip + 12) 8 = wordsBE b (ip + 12) 8 := by
    have hload (p : Nat) (hp : p + 2 ≤ ip + 20) :
        load16 (store16 b (ip + 20 + 2 * j) v) p = load16 b p := load16_patch_off (by omega)
    simp only [wordsBE, hload (ip + 12) (by omega), hload (ip + 12 + 2) (by omega),
      hload (ip + 12 + 2 + 2) (by omega), hload (ip + 12 + 2 + 2 + 2) (by omega)]
  have hsum := wordsLE_sum_store16 b (ip + 20) _ j v hj
  have hmod := wordsBE_sum_mod b (ip + 20) (ntohs (load16 b (ip + 24)))
  have hmod' := wordsBE_sum_mod (store16 b (ip + 20 + 2 * j) v) (ip + 20)
    (ntohs (load16 b (ip + 24)))
  rw [udpWords, List.sum_append, List.sum_cons, List.sum_cons] at h ⊢
  rw [hword, hproto, haddr]
  omega

/-- A datagram with a checksum is not passed on with any one of its words changed, but for the
word of its length and a zero word turned into all ones or back. -/
theorem udp_change_rejected {conf : NetConf} {b : Buf} {len : Int} {pkt dport : Nat} {src : UInt32}
    {sport l : Nat} (h : rxCallXsum conf b len = .udpPacketHandler pkt dport src sport l)
    (hx : load16 b (pkt - 2) ≠ 0) {j : Nat} (hj : 2 * j + 2 ≤ ntohs (load16 b (pkt - 4)))
    (hlen : j ≠ 2) {v : UInt16}
    (hv : v.toNat % 65535 ≠ (load16 b (pkt - 8 + 2 * j)).toNat % 65535) (hxsum : j = 3 → v ≠ 0) :
    ¬∃ pkt' dport' src' sport' l', rxCallXsum conf (store16 b (pkt - 8 + 2 * j) v) len =
      .udpPacketHandler pkt' dport' src' sport' l' := by
  rintro ⟨pkt', dport', src', sport', l', h'⟩
  obtain ⟨hcall, hok⟩ := rxCallXsum_iff.mp h
  obtain ⟨hcall', hok'⟩ := rxCallXsum_iff.mp h'
  obtain ⟨part, hlink, rfl, hproto⟩ := rxCall_udp_proto hcall
  obtain ⟨part', hlink', rfl, hproto'⟩ := rxCall_udp_proto hcall'
  have hsub : part.ip + 28 - 8 = part.ip + 20 := rfl
  have hsub' : part.ip + 28 - 2 = part.ip + 26 := rfl
  have hsub'' : part.ip + 28 - 4 = part.ip + 24 := rfl
  rw [hsub] at hlink' hproto' hok' hv
  rw [hsub'] at hx
  rw [hsub''] at hj
  have hip : 14 ≤ part.ip := by
    obtain ⟨vid, hread, -⟩ := rxLink_read hlink
    exact hread.ip_ge
  rw [rxLink_store16 conf b len v (by omega), hlink] at hlink'
  cases hlink'
  rw [Nat.add_sub_cancel] at hok hok'
  have hsum := ((udpXsumOk_iff (by rw [hproto]; decide)).mp hok).resolve_left hx
  have hbad := udpWords_store16 hj hlen hv hsum
  have hzero := ((udpXsumOk_iff (by rw [hproto']; decide)).mp hok').resolve_right hbad
  by_cases h3 : j = 3
  · subst h3
    rw [load16_store16] at hzero
    exact hxsum rfl hzero
  · rw [load16_patch_off (by omega)] at hzero
    exact hx hzero

/-- Two bytes of data, of which the second is changed. -/
theorem udp_change_rejected_data :
    ¬∃ pkt dport src sport l, rxCallXsum plainConf
      (store16 (ipFrame 30 17 [0x31, 0x65] [0, 7, 0, 9, 0, 10, 0xb5, 0x5d, 1, 2]) 42 0x0301) 60 =
        .udpPacketHandler pkt dport src sport l := by
  have hok : udpXsumOk (ipFrame 30 17 [0x31, 0x65] [0, 7, 0, 9, 0, 10, 0xb5, 0x5d, 1, 2]) 14 =
      true := (udpXsumOk_iff (by decide)).mpr (Or.inr (by decide +kernel))
  have h : rxCallXsum plainConf
      (ipFrame 30 17 [0x31, 0x65] [0, 7, 0, 9, 0, 10, 0xb5, 0x5d, 1, 2]) 60 =
        .udpPacketHandler 42 9 0x0364a8c0 7 2 :=
    rxCallXsum_iff.mpr ⟨by decide +kernel, hok⟩
  exact udp_change_rejected h (by decide) (j := 4) (by decide) (by decide) (by decide) (by decide)

end EmacDriver
