import EmacDriver.CInt
import EmacDriver.Environment
import EmacDriver.Lib.Bytes

namespace EmacDriver
open Bytes

abbrev Mac := Vector UInt8 6

def netBcastEthaddr : Mac := Vector.replicate 6 0xff
def netNullEthaddr : Mac := Vector.replicate 6 0

inductive EthState where
  | ethStateInit | ethStatePassive | ethStateActive
  deriving DecidableEq, Repr

/-- A device object. Its callbacks belong to the hardware below. -/
structure EthDevice where
  name : CStr
  enetaddr : Mac
  state : EthState
  next : Option Nat
  index : Nat

/-- A frame as a driver hands it over: the buffer it lies in and a length. -/
structure Frame where
  inPacket : Buf
  len : Int

/-- What the modelled code only calls: the counter register, and for each
device what its `n`th `init` returns and which frames its `n`th `recv` passes on. -/
structure Hardware where
  readTimer : Nat → UInt64
  init : Nat → Nat → Int
  recv : Nat → Nat → List Frame

inductive NetLoopState where
  | netloopContinue | netloopRestart | netloopSuccess | netloopFail
  deriving DecidableEq, Repr

/-- A receive handler. The repository installs only the dummy one; any other
is known by a name and the arguments it is called with. -/
inductive RxHand where
  | dummyHandler
  | installed (id : Nat)
  deriving DecidableEq, Repr

inductive THand where
  | pingTimeoutHandler
  | startAgainTimeoutHandler
  deriving DecidableEq, Repr

/-- The buffer a packet pointer points to. -/
inductive Packet where
  | netTxPacket | arpTxPacket | inPacket
  deriving DecidableEq, Repr

/-- What the outside sees of a run, and the places proofs refer to. -/
inductive Event where
  | ethSend (packet : Packet) (frame : List UInt8)
  | udpHandler (f : Option RxHand) (inPacket : Buf) (pkt dport : Nat) (sip : UInt32)
      (sport len : Nat)
  | arpHandler (f : Option RxHand) (inPacket : Buf) (pkt : Nat) (sip : UInt32) (len : Int)
  | pingStart (dev : Option Nat)
  | echoReply (inPacket : Buf) (ip : Nat)
  | startAgain

/-- Addresses and VLANs, set by commands and never by the code below. Addresses
and `ntohs` arguments are in network byte order. -/
structure NetConf where
  netIp : UInt32
  netNetmask : UInt32
  netGateway : UInt32
  netPingIp : UInt32
  netOurVlan : UInt16
  netNativeVlan : UInt16

structure Arp where
  netArpWaitPacketIp : UInt32
  netArpWaitReplyIp : UInt32
  arpWaitPacketEthaddr : Option Nat
  arpWaitTxPacketSize : Nat
  arpWaitTimerStart : UInt64
  arpWaitTry : Int
  arpTxPacket : Buf

/-- The handlers and the timeout of net.c, null until the first `net_init`. -/
structure Handlers where
  udpPacketHandler : Option RxHand
  arpPacketHandler : Option RxHand
  timeHandler : Option THand
  timeStart : UInt64
  timeDelta : UInt64

structure LoopVars where
  netState : NetLoopState
  netRestartWrap : Bool
  netRestarted : Bool
  netDevExists : Bool
  netTryCount : Nat
  netBootFileSize : UInt32
  firstCall : Bool

/-- eth_legacy.c and eth_common.c, with `count` device objects in memory and the
numbers of `init` and `recv` calls made so far. -/
structure Eth where
  mem : Nat → EthDevice
  count : Nat
  ethDevices : Option Nat
  ethCurrent : Option Nat
  firstFailed : Option Nat
  act : Option Nat
  envChangedId : Nat
  inits : Nat
  recvs : Nat

structure Host where
  hw : Hardware
  conf : NetConf
  env : Env
  eth : Eth
  arp : Arp
  hand : Handlers
  loop : LoopVars
  netEthaddr : Mac
  netTxPacket : Buf
  netIpId : UInt32
  pingSeqNumber : UInt16
  ethaddrs : Nat → Mac
  timerReads : Nat
  trace : List Event

def ntohs (x : UInt16) : Nat := (swap16 x).toNat
def htons (x : Nat) : UInt16 := swap16 (UInt16.ofNat x)

theorem ntohs_htons {x : Nat} (h : x < 65536) : ntohs (htons x) = x := by
  simp [ntohs, htons, Nat.mod_eq_of_lt h]

theorem htons_ntohs (x : UInt16) : htons (ntohs x) = x := by
  simp [ntohs, htons]

def Host.log (s : Host) (e : Event) : Host := { s with trace := s.trace ++ [e] }

/-- Milliseconds, truncated to `int`. -/
def runtimeTick (cnt : UInt64) : Int := toInt (cnt / 24000).toNat

def getTimer (s : Host) (base : UInt64) : UInt64 × Host :=
  (UInt64.ofInt (runtimeTick (s.hw.readTimer s.timerReads)) - base,
    { s with timerReads := s.timerReads + 1 })

def netSetState (s : Host) (state : NetLoopState) : Host :=
  { s with loop := { s.loop with netState := state } }

/-- The device's `send` changes nothing here; the call itself is recorded. -/
def netSendPacket (s : Host) (packet : Packet) (pkt : Buf) (len : Nat) : Host :=
  s.log (.ethSend packet (slice pkt 0 len))

def netSetUdpHandler (s : Host) (f : Option RxHand) : Host :=
  { s with hand := { s.hand with udpPacketHandler := some (f.getD .dummyHandler) } }

def netSetArpHandler (s : Host) (f : Option RxHand) : Host :=
  { s with hand := { s.hand with arpPacketHandler := some (f.getD .dummyHandler) } }

def netSetTimeoutHandler (s : Host) (iv : UInt64) (f : Option THand) : Host :=
  if iv = 0 then { s with hand := { s.hand with timeHandler := none } }
  else
    let (t, s) := getTimer s 0
    { s with hand := { s.hand with timeHandler := f, timeStart := t, timeDelta := iv * 1 } }

def netClearHandlers (s : Host) : Host :=
  netSetTimeoutHandler (netSetArpHandler (netSetUdpHandler s none) none) 0 none

/-- `net_our_vlan` in host order, the unset value read as "no VLAN". -/
def vlanid (v : UInt16) : UInt16 := if swap16 v = 0xffff then 4095 else swap16 v

end EmacDriver
