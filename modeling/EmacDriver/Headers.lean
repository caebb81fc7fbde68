import EmacDriver.Checksum
import EmacDriver.Host

namespace EmacDriver
open Bytes

def netSetEther (s : Host) (xet : Buf) (destEthaddr : Mac) (prot : Nat) : Buf × Nat :=
  let myvlanid := vlanid s.conf.netOurVlan
  let et := storeVec xet 0 destEthaddr                     -- et_dest
  let et := storeVec et 6 s.netEthaddr                     -- et_src
  if myvlanid &&& 0x0fff = 4095 then
    (store16 et 12 (htons prot), 14)                       -- et_protlen
  else
    let vet := store16 et 12 (htons 0x8100)                -- vet_vlan_type
    let vet := store16 vet 14 (swap16 (myvlanid &&& 0x0fff))  -- vet_tag
    (store16 vet 16 (htons prot), 18)                      -- vet_type

def netUpdateEther (s : Host) (et : Buf) (addr : Mac) (prot : Nat) : Buf × Nat :=
  let et := storeVec et 0 addr
  let et := storeVec et 6 s.netEthaddr
  let protlen := ntohs (load16 et 12)
  if protlen = 0x8100 then (store16 et 16 (htons prot), 18)
  else if protlen > 1514 then (store16 et 12 (htons prot), 14)
  else (store16 et 20 (htons prot), 22)                    -- et_prot of 802.2 + SNAP

/-- `ip_p` is left to the caller. `b` is the packet being written, and offsets are those of the
packed structs. -/
def netSetIpHeader (s : Host) (b : Buf) (pkt : Nat) (dest source : UInt32) : Buf × Host :=
  let b := store8 b pkt 0x45                               -- ip_hl_v
  let b := store8 b (pkt + 1) 0                            -- ip_tos
  let b := store16 b (pkt + 2) (htons 20)                  -- ip_len
  let b := store16 b (pkt + 4) (htons s.netIpId.toNat)     -- ip_id
  let b := store16 b (pkt + 6) (htons 0x4000)              -- ip_off, don't fragment
  let b := store8 b (pkt + 8) 255                          -- ip_ttl
  let b := store16 b (pkt + 10) 0                          -- ip_sum
  let b := store32 b (pkt + 12) source                     -- ip_src
  let b := store32 b (pkt + 16) dest                       -- ip_dst
  (b, { s with netIpId := s.netIpId + 1 })

def netSetUdpHeader (s : Host) (b : Buf) (pkt : Nat) (dest : UInt32) (dport sport len : Nat) :
    Buf × Host :=
  -- an odd payload is padded with a zero byte
  let b := if len % 2 = 1 then store8 b (pkt + 28 + len) 0 else b
  let (b, s) := netSetIpHeader s b pkt dest s.conf.netIp
  let b := store16 b (pkt + 2) (htons (28 + len))
  let b := store8 b (pkt + 9) 17                           -- ip_p = IPPROTO_UDP
  let b := store16 b (pkt + 10) (UInt16.ofNat (computeIpChecksum b pkt 20))
  let b := store16 b (pkt + 20) (htons sport)              -- udp_src
  let b := store16 b (pkt + 22) (htons dport)              -- udp_dst
  let b := store16 b (pkt + 24) (htons (8 + len))          -- udp_len
  (store16 b (pkt + 26) 0, s)                              -- udp_xsum

def setIcmpHeader (s : Host) (b : Buf) (pkt : Nat) (dest : UInt32) : Buf × Host :=
  let (b, s) := netSetIpHeader s b pkt dest s.conf.netIp
  let b := store16 b (pkt + 2) (htons 28)                  -- ip_len
  let b := store8 b (pkt + 9) 1                            -- ip_p = IPPROTO_ICMP
  let b := store16 b (pkt + 10) (UInt16.ofNat (computeIpChecksum b pkt 20))
  let b := store8 b (pkt + 20) 8                           -- type = ICMP_ECHO_REQUEST
  let b := store8 b (pkt + 21) 0                           -- code
  let b := store16 b (pkt + 22) 0                          -- checksum
  let b := store16 b (pkt + 24) 0                          -- id
  let b := store16 b (pkt + 26) (htons s.pingSeqNumber.toNat)
  let s := { s with pingSeqNumber := s.pingSeqNumber + 1 }
  (store16 b (pkt + 22) (UInt16.ofNat (computeIpChecksum b (pkt + 20) 8)), s)

def netEthHdrSize (s : Host) : Nat :=
  if vlanid s.conf.netOurVlan &&& 0x0fff = 4095 then 14 else 18

end EmacDriver
