import EmacDriver.Ping

namespace EmacDriver
open Bytes

structure LinkPart where
  ethProto : Nat
  ip : Nat
  len : Int
  deriving DecidableEq, Repr

/-- The handler call a frame leads to, where its parsing ends. -/
inductive RxCall where
  | drop
  | arpReceive (arp : Nat) (len : Int)
  | receiveIcmp (ip : Nat) (len : Int) (srcIp : UInt32)
  | udpPacketHandler (pkt dport : Nat) (srcIp : UInt32) (sport len : Nat)
  deriving DecidableEq, Repr

/-- `len -= size`: the subtraction is one of `unsigned long`. -/
def lenMinus (len : Int) (size : Nat) : Int := toInt (toSize (len - size))

/-- The three link headers, with the frame's VLAN id. A comparison of `len`
with a `sizeof` is unsigned. -/
def linkHeader (conf : NetConf) (inPacket : Buf) (len : Int) : Option (LinkPart × UInt16) :=
  if toSize len < 14 then none
  else
    let ethProto := ntohs (load16 inPacket 12)
    if ethProto < 1514 then
      -- 802.2 + SNAP
      some (⟨ntohs (load16 inPacket 20), 22, lenMinus len 22⟩, 4095)
    else if ethProto ≠ 0x8100 then
      some (⟨ethProto, 14, lenMinus len 14⟩, 4095)
    else if toSize len < 18 then none
    else if swap16 conf.netOurVlan &&& 0x0fff = 4095 then none
    else
      let cti := swap16 (load16 inPacket 14)
      some (⟨ntohs (load16 inPacket 16), 18, lenMinus len 18⟩, cti &&& 0x0fff)

/-- With a VLAN of ours, a frame without one counts as in the native VLAN. -/
def vlanMatches (conf : NetConf) (vid : UInt16) : Bool :=
  let myvlanid := vlanid conf.netOurVlan
  let mynvlanid := vlanid conf.netNativeVlan
  if myvlanid &&& 0x0fff ≠ 4095 then
    (if vid = 4095 then mynvlanid &&& 0x0fff else vid) == myvlanid &&& 0x0fff
  else true

def rxLink (conf : NetConf) (inPacket : Buf) (len : Int) : Option LinkPart :=
  match linkHeader conf inPacket len with
  | some (part, vid) => if vlanMatches conf vid then some part else none
  | none => none

/-- Built without `CONFIG_IP_DEFRAG`: a fragment is dropped. -/
def netDefragment (inPacket : Buf) (ip : Nat) : Option Nat :=
  if swap16 (load16 inPacket (ip + 6)) &&& 0x3fff = 0 then some ip else none

/-- The IP branch. `ip_hl_v & 0x0f > 5` lets header lengths below 5 pass. -/
def rxIp (conf : NetConf) (inPacket : Buf) (ip : Nat) (len : Int) : RxCall :=
  if toSize len < 28 then .drop
  else if len < ntohs (load16 inPacket (ip + 2)) then .drop
  else
    let len : Int := ntohs (load16 inPacket (ip + 2))
    if inPacket ip &&& 0xf0 ≠ 0x40 then .drop
    else if inPacket ip &&& 0x0f > 5 then .drop
    else if !ipChecksumOk inPacket ip 20 then .drop
    else
      let dstIp := load32 inPacket (ip + 16)
      if conf.netIp ≠ 0 ∧ dstIp ≠ conf.netIp ∧ dstIp ≠ 0xffffffff then .drop
      else
        let srcIp := load32 inPacket (ip + 12)
        match netDefragment inPacket ip with
        | none => .drop
        | some ip =>
          if inPacket (ip + 9) = 1 then .receiveIcmp ip len srcIp
          else if inPacket (ip + 9) ≠ 17 then .drop
          else
            .udpPacketHandler (ip + 28) (ntohs (load16 inPacket (ip + 22))) srcIp
              (ntohs (load16 inPacket (ip + 20)))
              (toUnsigned (toSize ((ntohs (load16 inPacket (ip + 24)) : Int) - 8)))

def rxCall (conf : NetConf) (inPacket : Buf) (len : Int) : RxCall :=
  match rxLink conf inPacket len with
  | none => .drop
  | some ⟨ethProto, ip, len⟩ =>
    if ethProto = 0x0806 then .arpReceive ip len
    else if ethProto = 0x0800 then rxIp conf inPacket ip len
    else .drop

/-- A host redirect is only printed. -/
def receiveIcmp (s : Host) (et : Buf) (ip : Nat) (len : Int) : Host :=
  if et (ip + 20) = 5 then s else pingReceive s et ip len

def netProcessReceivedPacket (s : Host) (f : Frame) : Host :=
  match rxCall s.conf f.inPacket f.len with
  | .drop => s
  | .arpReceive arp len => arpReceive s f.inPacket arp len
  | .receiveIcmp ip len _ => receiveIcmp s f.inPacket ip len
  | .udpPacketHandler pkt dport srcIp sport len =>
    s.log (.udpHandler s.hand.udpPacketHandler f.inPacket pkt dport srcIp sport len)

/-- The length `geth_recv` passes for a descriptor's 14-bit `frm_len`. -/
def gethRecvLen (frmLen : BitVec 14) : Int := toInt (toUnsigned ((frmLen.toNat : Int) - 4))

/-- `ether` points to a stored address. A zero address is resolved first. -/
def netSendUdpPacket (s : Host) (ether : Nat) (dest : UInt32) (dport sport payloadLen : Nat) :
    Host :=
  let dest := if dest = 0 then 0xffffffff else dest
  let mac := if dest = 0xffffffff then netBcastEthaddr else s.ethaddrs ether
  let (b, ethHdrSize) := netSetEther s s.netTxPacket mac 0x0800
  let (b, s) := netSetUdpHeader s b ethHdrSize dest dport sport payloadLen
  let s := { s with netTxPacket := b }
  let pktHdrSize := ethHdrSize + 28
  if mac = netNullEthaddr then
    let s := { s with arp := { s.arp with
      netArpWaitPacketIp := dest, arpWaitPacketEthaddr := some ether,
      arpWaitTxPacketSize := pktHdrSize + payloadLen, arpWaitTry := 1 } }
    let (t, s) := getTimer s 0
    arpRequest { s with arp := { s.arp with arpWaitTimerStart := t } }
  else netSendPacket s .netTxPacket s.netTxPacket (pktHdrSize + payloadLen)

end EmacDriver
