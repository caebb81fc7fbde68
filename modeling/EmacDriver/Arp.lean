import EmacDriver.Headers

namespace EmacDriver
open Bytes

def arpInit (s : Host) : Host :=
  { s with arp := { s.arp with
      arpWaitPacketEthaddr := none, netArpWaitPacketIp := 0, netArpWaitReplyIp := 0,
      arpWaitTxPacketSize := 0 } }

def arpRawRequest (s : Host) (sourceIp : UInt32) (targetEthaddr : Mac) (targetIp : UInt32) : Host :=
  let (b, pkt) := netSetEther s s.arp.arpTxPacket netBcastEthaddr 0x0806
  let b := store16 b pkt (htons 1)                         -- ar_hrd = ARP_ETHER
  let b := store16 b (pkt + 2) (htons 0x0800)              -- ar_pro = PROT_IP
  let b := store8 b (pkt + 4) 6                            -- ar_hln
  let b := store8 b (pkt + 5) 4                            -- ar_pln
  let b := store16 b (pkt + 6) (htons 1)                   -- ar_op = ARPOP_REQUEST
  let b := storeVec b (pkt + 8) s.netEthaddr               -- ar_sha
  let b := store32 b (pkt + 14) sourceIp                   -- ar_spa
  let b := storeVec b (pkt + 18) targetEthaddr             -- ar_tha
  let b := store32 b (pkt + 24) targetIp                   -- ar_tpa
  let s := { s with arp := { s.arp with arpTxPacket := b } }
  netSendPacket s .arpTxPacket b (pkt + 28)

/-- Whom to ask: the gateway for an address off our subnet, if there is one. -/
def arpReplyIp (conf : NetConf) (waitPacketIp : UInt32) : UInt32 :=
  if waitPacketIp &&& conf.netNetmask ≠ conf.netIp &&& conf.netNetmask then
    if conf.netGateway = 0 then waitPacketIp else conf.netGateway
  else waitPacketIp

def arpRequest (s : Host) : Host :=
  let replyIp := arpReplyIp s.conf s.arp.netArpWaitPacketIp
  let s := { s with arp := { s.arp with netArpWaitReplyIp := replyIp } }
  arpRawRequest s s.conf.netIp netNullEthaddr replyIp

/-- `ARP_TIMEOUT` is 5000 ms and `ARP_TIMEOUT_COUNT` 5. -/
def arpTimeoutCheck (s : Host) : Int × Host :=
  if s.arp.netArpWaitPacketIp = 0 then (0, s)
  else
    let (t, s) := getTimer s 0
    if t - s.arp.arpWaitTimerStart > 5000 then
      let tries := s.arp.arpWaitTry + 1
      if tries ≥ 5 then
        (1, netSetState { s with arp := { s.arp with arpWaitTry := 0 } } .netloopFail)
      else
        (1, arpRequest { s with arp := { s.arp with arpWaitTry := tries, arpWaitTimerStart := t } })
    else (1, s)

def arpAccepted (conf : NetConf) (et : Buf) (arp : Nat) (len : Int) : Bool :=
  !(len < 28) && ntohs (load16 et arp) == 1 && ntohs (load16 et (arp + 2)) == 0x0800 &&
    et (arp + 4) == 6 && et (arp + 5) == 4 && conf.netIp != 0 &&
    load32 et (arp + 24) == conf.netIp

def arpReply (s : Host) (et : Buf) (arp : Nat) : Buf × Nat :=
  let (b, ethHdrSize) := netUpdateEther s et (loadVec 6 et 6) 0x0806
  let b := store16 b (arp + 6) (htons 2)                   -- ar_op = ARPOP_REPLY
  let b := copy b (arp + 18) b (arp + 8) 6                 -- ar_tha from ar_sha
  let b := copy b (arp + 24) b (arp + 14) 4                -- ar_tpa from ar_spa
  let b := storeVec b (arp + 8) s.netEthaddr
  (store32 b (arp + 14) s.conf.netIp, ethHdrSize)

/-- The reply that was waited for: store the address, send the waiting packet
to it, and wait no longer. -/
def arpMatched (s : Host) (et : Buf) (arp : Nat) (len : Int) : Host :=
  let sha := loadVec 6 et (arp + 8)
  let s := match s.arp.arpWaitPacketEthaddr with
    | some p => { s with ethaddrs := fun q => if q = p then sha else s.ethaddrs q }
    | none => s
  let s := s.log (.arpHandler s.hand.arpPacketHandler et arp (load32 et (arp + 14)) len)
  let tx := storeVec s.netTxPacket 0 sha
  let s := netSendPacket { s with netTxPacket := tx } .netTxPacket tx s.arp.arpWaitTxPacketSize
  { s with arp := { s.arp with
      netArpWaitPacketIp := 0, arpWaitTxPacketSize := 0, arpWaitPacketEthaddr := none } }

def arpReceive (s : Host) (et : Buf) (arp : Nat) (len : Int) : Host :=
  if arpAccepted s.conf et arp len then
    if ntohs (load16 et (arp + 6)) = 1 then
      let (b, ethHdrSize) := arpReply s et arp
      netSendPacket s .inPacket b (ethHdrSize + 28)
    else if ntohs (load16 et (arp + 6)) = 2 then
      if s.arp.netArpWaitPacketIp = 0 then s
      else if load32 et (arp + 14) = s.arp.netArpWaitReplyIp then arpMatched s et arp len
      else s
    else s
  else s

end EmacDriver
