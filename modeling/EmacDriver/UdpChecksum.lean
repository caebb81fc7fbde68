import EmacDriver.IpText
import EmacDriver.Receive

namespace EmacDriver
open Bytes

/-- The summing loop, from `sumptr` on; the total fits an `unsigned long`. -/
def sumDatagram (b : Buf) : Nat → Nat → Nat → Nat
  | sumptr, sumlen + 2, xsum => sumDatagram b (sumptr + 2) sumlen (xsum + ntohs (load16 b sumptr))
  | sumptr, 1, xsum => xsum + ((b sumptr).toNat <<< 8 &&& 0xff00)
  | _, 0, xsum => xsum

def foldXsum (xsum : Nat) : Nat :=
  if xsum >>> 16 ≠ 0 then foldXsum ((xsum &&& 0xffff) + (xsum >>> 16 &&& 0xffff)) else xsum
termination_by xsum
decreasing_by
  rename_i h
  have hlow : xsum &&& 0xffff = xsum % 65536 := Nat.and_two_pow_sub_one_eq_mod xsum 16
  have hhigh : xsum >>> 16 &&& 0xffff = xsum / 65536 % 65536 := by
    rw [Nat.shiftRight_eq_div_pow]
    exact Nat.and_two_pow_sub_one_eq_mod (xsum / 65536) 16
  rw [Nat.shiftRight_eq_div_pow] at h
  omega

def pseudoSum (b : Buf) (ip : Nat) : Nat :=
  let src := (ntohl (load32 b (ip + 12))).toNat
  let dst := (ntohl (load32 b (ip + 16))).toNat
  (b (ip + 9)).toNat + ntohs (load16 b (ip + 24)) + (src >>> 16 &&& 0xffff) +
    (src >>> 0 &&& 0xffff) + (dst >>> 16 &&& 0xffff) + (dst >>> 0 &&& 0xffff)

def udpXsumOk (b : Buf) (ip : Nat) : Bool :=
  if load16 b (ip + 26) ≠ 0 then
    let xsum := foldXsum (sumDatagram b (ip + 20) (ntohs (load16 b (ip + 24))) (pseudoSum b ip))
    !(xsum ≠ 0x00000000 && xsum ≠ 0x0000ffff)
  else true

def rxCallXsum (conf : NetConf) (inPacket : Buf) (len : Int) : RxCall :=
  match rxCall conf inPacket len with
  | .udpPacketHandler pkt dport srcIp sport l =>
    if udpXsumOk inPacket (pkt - 28) then .udpPacketHandler pkt dport srcIp sport l else .drop
  | call => call

end EmacDriver
