import EmacDriver.Receive

namespace EmacDriver
open Bytes

def ipLen (b : Buf) (ip : Nat) : Nat := ntohs (load16 b (ip + 2))

theorem ntohs_lt (x : UInt16) : ntohs x < 65536 := (swap16 x).toNat_lt

theorem ipLen_lt (b : Buf) (ip : Nat) : ipLen b ip < 65536 := ntohs_lt _

/-- `len -= size` cannot wrap for the lengths a driver passes. -/
theorem lenMinus_eq {len : Int} {size : Nat} (hl : -2147483626 ≤ len) (hu : len < 2147483648)
    (hs : size ≤ 22) : lenMinus len size = len - size := by
  unfold lenMinus toSize toInt
  rw [Int.bmod_def]
  split <;> omega

-- unfolded, its modulus sends unification into unary arithmetic
attribute [local irreducible] lenMinus

theorem gethRecvLen_eq (frmLen : BitVec 14) : gethRecvLen frmLen = (frmLen.toNat : Int) - 4 := by
  have := frmLen.isLt
  unfold gethRecvLen toUnsigned toInt
  rw [Int.bmod_def]
  split <;> omega

/-- A length of 14 bits, less the four bytes of the checksum. -/
theorem gethRecvLen_range (frmLen : BitVec 14) :
    -4 ≤ gethRecvLen frmLen ∧ gethRecvLen frmLen ≤ 16379 := by
  have := frmLen.isLt
  rw [gethRecvLen_eq]
  omega

inductive LinkCut (len : Int) : LinkPart → Prop where
  | e802 (proto : Nat) : LinkCut len ⟨proto, 22, lenMinus len 22⟩
  | ether (proto : Nat) : LinkCut len ⟨proto, 14, lenMinus len 14⟩
  | vlan (proto : Nat) : LinkCut len ⟨proto, 18, lenMinus len 18⟩

theorem linkHeader_cut {conf : NetConf} {b : Buf} {len : Int} {part : LinkPart} {vid : UInt16}
    (h : linkHeader conf b len = some (part, vid)) : ¬ toSize len < 14 ∧ LinkCut len part := by
  have h14 : ¬ toSize len < 14 := by
    intro hlt
    simp [linkHeader, hlt] at h
  refine ⟨h14, ?_⟩
  rw [linkHeader, if_neg h14] at h
  dsimp only at h
  split at h
  · cases h
    exact .e802 _
  · split at h
    · cases h
      exact .ether _
    · split at h
      · cases h
      · split at h
        · cases h
        · cases h
          exact .vlan _

theorem rxLink_cut {conf : NetConf} {b : Buf} {len : Int} {part : LinkPart}
    (h : rxLink conf b len = some part) : ¬ toSize len < 14 ∧ LinkCut len part := by
  unfold rxLink at h
  split at h
  · rename_i q vid hq
    split at h
    · cases h
      exact linkHeader_cut hq
    · cases h
  · cases h

/-- The link layer takes its header off the length, and a frame of
non-negative length holds an Ethernet header. -/
theorem rxLink_len {conf : NetConf} {b : Buf} {len : Int} {part : LinkPart}
    (hl : -2147483626 ≤ len) (hu : len < 2147483648) (h : rxLink conf b len = some part) :
    part.len = len - part.ip ∧ (part.ip = 14 ∨ part.ip = 18 ∨ part.ip = 22) ∧
      (0 ≤ len → 14 ≤ len) := by
  obtain ⟨h14, hcut⟩ := rxLink_cut h
  have hmin : 0 ≤ len → 14 ≤ len := by
    intro h0
    rw [toSize_of_range h0 hu] at h14
    omega
  cases hcut with
  | e802 => exact ⟨@lenMinus_eq len 22 hl hu (by omega), by simp, hmin⟩
  | ether => exact ⟨@lenMinus_eq len 14 hl hu (by omega), by simp, hmin⟩
  | vlan => exact ⟨@lenMinus_eq len 18 hl hu (by omega), by simp, hmin⟩

structure IpAccepted (conf : NetConf) (b : Buf) (ip : Nat) (len : Int) : Prop where
  room : ¬ toSize len < 28
  fits : ¬ len < ipLen b ip
  version : b ip &&& 0xf0 = 0x40
  ihl : ¬ b ip &&& 0x0f > 5
  sum : ipChecksumOk b ip 20 = true
  dst : ¬ (conf.netIp ≠ 0 ∧ load32 b (ip + 16) ≠ conf.netIp ∧ load32 b (ip + 16) ≠ 0xffffffff)
  whole : swap16 (load16 b (ip + 6)) &&& 0x3fff = 0

def ipCall (b : Buf) (ip : Nat) : RxCall :=
  if b (ip + 9) = 1 then .receiveIcmp ip (ipLen b ip) (load32 b (ip + 12))
  else if b (ip + 9) ≠ 17 then .drop
  else
    .udpPacketHandler (ip + 28) (ntohs (load16 b (ip + 22))) (load32 b (ip + 12))
      (ntohs (load16 b (ip + 20))) (toUnsigned (toSize ((ntohs (load16 b (ip + 24)) : Int) - 8)))

/-- A packet that passes the tests reaches its handler. -/
theorem rxIp_of_accepted {conf : NetConf} {b : Buf} {ip : Nat} {len : Int}
    (h : IpAccepted conf b ip len) : rxIp conf b ip len = ipCall b ip := by
  have hfits := h.fits
  have hsum := h.sum
  have hihl := h.ihl
  unfold ipLen at hfits
  unfold rxIp ipCall netDefragment ipLen
  rw [if_neg h.room, if_neg hfits]
  simp only [h.version, hihl, hsum, h.whole, if_neg h.dst, if_true, if_false, ne_eq,
    not_true_eq_false, Bool.not_true, Bool.false_eq_true]

/-- Each test, failed, drops the packet. -/
theorem accepted_of_rxIp {conf : NetConf} {b : Buf} {ip : Nat} {len : Int}
    (h : rxIp conf b ip len ≠ .drop) : IpAccepted conf b ip len := by
  have room : ¬ toSize len < 28 := by
    intro hc
    apply h
    simp only [rxIp, hc, if_true]
  have fits : ¬ len < ipLen b ip := by
    intro hc
    unfold ipLen at hc
    apply h
    simp only [rxIp, hc, if_true, ite_self]
  unfold ipLen at fits
  simp only [rxIp, room, fits, if_false] at h
  have version : b ip &&& 0xf0 = 0x40 := by
    apply Decidable.byContradiction
    intro hc
    exact h (if_pos hc)
  rw [if_neg (not_not_intro version)] at h
  have ihl : ¬ b ip &&& 0x0f > 5 := by
    intro hc
    exact h (if_pos hc)
  rw [if_neg ihl] at h
  have sum : ipChecksumOk b ip 20 = true := by
    cases hs : ipChecksumOk b ip 20 with
    | true => rfl
    | false => simp [hs] at h
  simp only [sum, Bool.not_true, Bool.false_eq_true, if_false] at h
  have dst : ¬ (conf.netIp ≠ 0 ∧ load32 b (ip + 16) ≠ conf.netIp ∧
      load32 b (ip + 16) ≠ 0xffffffff) := by
    intro hc
    exact h (if_pos hc)
  rw [if_neg dst] at h
  have whole : swap16 (load16 b (ip + 6)) &&& 0x3fff = 0 := by
    apply Decidable.byContradiction
    intro hc
    apply h
    simp only [netDefragment, hc, if_false]
  exact ⟨room, fits, version, ihl, sum, dst, whole⟩

end EmacDriver
