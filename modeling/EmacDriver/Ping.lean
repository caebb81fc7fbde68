import EmacDriver.Arp

namespace EmacDriver
open Bytes

/-- Always asks by ARP first; the echo request is parked in `net_tx_packet`. -/
def pingSend (s : Host) : Host :=
  let s := { s with arp := { s.arp with netArpWaitPacketIp := s.conf.netPingIp } }
  let (b, ethHdrSize) := netSetEther s s.netTxPacket netNullEthaddr 0x0800
  let (b, s) := setIcmpHeader s b ethHdrSize s.conf.netPingIp
  let s := { s with netTxPacket := b }
  let (t, s) := getTimer s 0
  arpRequest { s with arp := { s.arp with
    arpWaitTxPacketSize := ethHdrSize + 28, arpWaitTry := 1, arpWaitTimerStart := t } }

/-- The byte count given to `compute_ip_checksum` for the ICMP message:
`len - IP_HDR_SIZE` as an `unsigned`. -/
def icmpNbytes (len : Int) : Nat := toUnsigned (len - 20)

def echoReply (s : Host) (et : Buf) (ip : Nat) (len : Int) : Buf × Nat :=
  let (b, ethHdrSize) := netUpdateEther s et (loadVec 6 et 6) 0x0800
  let b := store16 b (ip + 10) 0                           -- ip_sum
  let b := store16 b (ip + 6) 0                            -- ip_off
  let b := copy b (ip + 16) b (ip + 12) 4                  -- ip_dst from ip_src
  let b := store32 b (ip + 12) s.conf.netIp                -- ip_src
  let b := store16 b (ip + 10) (UInt16.ofNat (computeIpChecksum b ip 20))
  let b := store8 b (ip + 20) 0                            -- type = ICMP_ECHO_REPLY
  let b := store16 b (ip + 22) 0                           -- checksum
  (store16 b (ip + 22) (UInt16.ofNat (computeIpChecksum b (ip + 20) (icmpNbytes len))), ethHdrSize)

def pingReceive (s : Host) (et : Buf) (ip : Nat) (len : Int) : Host :=
  if et (ip + 20) = 0 then
    if load32 et (ip + 12) = s.conf.netPingIp then
      netSetState (s.log (.echoReply et ip)) .netloopSuccess
    else s
  else if et (ip + 20) = 8 then
    let (b, ethHdrSize) := echoReply s et ip len
    netSendPacket s .inPacket b (ethHdrSize + len.toNat)
  else s

end EmacDriver
