import EmacDriver.Ethernet

namespace EmacDriver

def pingTimeoutHandler (s : Host) : Host := netSetState (ethHalt s) .netloopFail

def startAgainTimeoutHandler (s : Host) : Host := netSetState (s.log .startAgain) .netloopRestart

def callTimeHandler : THand → Host → Host
  | .pingTimeoutHandler => pingTimeoutHandler
  | .startAgainTimeoutHandler => startAgainTimeoutHandler

def pingStart (s : Host) : Host :=
  pingSend (netSetTimeoutHandler (s.log (.pingStart s.eth.ethCurrent)) 10000
    (some .pingTimeoutHandler))

def netInitLoop (s : Host) : Host :=
  match s.eth.ethCurrent with
  | some p => { s with netEthaddr := (s.eth.mem p).enetaddr }
  | none => s

def netInit (s : Host) : Host :=
  netInitLoop (if s.loop.firstCall then
    let s := netClearHandlers (arpInit s)
    { s with loop := { s.loop with firstCall := false } }
  else s)

def netCleanupLoop (s : Host) : Host := netClearHandlers s

def retrySetting (e : Env) : Bool × UInt64 :=
  match envGet e (cstr "netretry") with
  | none => (false, 0)
  | some p =>
    let nretry := e.vals p
    if strcmp nretry (cstr "yes") = 0 then (true, 0)
    else if strcmp nretry (cstr "no") = 0 then (false, 0)
    else if strcmp nretry (cstr "once") = 0 then (false, 1)
    else (false, (simpleStrtoul nretry 0).1)

def retriesSpent (s : Host) : Bool :=
  !(retrySetting s.env).1 && decide ((retrySetting s.env).2.toNat < s.loop.netTryCount)

/-- The end of `net_start_again`: after a whole round, wait before the next. -/
def netRetryState (s : Host) : Host :=
  if s.loop.netRestartWrap then
    let s := { s with loop := { s.loop with netRestartWrap := false } }
    if s.loop.netDevExists then
      netSetUdpHandler (netSetTimeoutHandler s 10000 (some .startAgainTimeoutHandler)) none
    else netSetState s .netloopFail
  else netSetState s .netloopRestart

def netTryNext (s : Host) : Option (Int × Host) := do
  let s := { s with loop := { s.loop with netTryCount := s.loop.netTryCount + 1 } }
  let s ← ethTryAnother (ethHalt s) (!s.loop.netRestarted)
  let (ret, s) ← ethInit s
  some (ret, netRetryState s)

def netStartAgain (s : Host) : Option (Int × Host) :=
  if retriesSpent s then some (-110, netSetState (ethHalt s) .netloopFail) else netTryNext s

/-- 0 is "OK", 1 "network not configured", 2 "network device not configured". -/
def netCheckPrereq (s : Host) : Option (Nat × Host) :=
  if s.conf.netPingIp = 0 then some (1, s)
  else if s.conf.netIp = 0 then some (1, s)
  else if s.netEthaddr = netNullEthaddr then
    if ethGetDevIndex s = -1 then some (1, s)
    else (netStartAgain s).map (fun r => (2, r.2))
  else some (0, s)

/-- Control points: the label `restart`, the head of the `for (;;)`, the test
of `net_state` at its end, and the return. -/
inductive Pc where
  | restart | poll | select | done
  deriving DecidableEq, Repr

structure Run where
  pc : Pc
  ret : Int
  host : Host

/-- `ctrlc()` is defined as 0 in this build. -/
def ctrlc : Bool := false

def netLoopEntry (s : Host) : Option Run := do
  let s := { s with loop := { s.loop with
    netRestarted := false, netDevExists := false, netTryCount := 1 } }
  let s ← ethSetCurrent (ethHalt (netInit s))
  let (ret, s) ← ethInit s
  if ret < 0 then some ⟨.done, ret, ethHalt s⟩ else some ⟨.restart, ret, s⟩

def netLoopRestart (c : Run) : Option Run := do
  let s := netInitLoop (netSetState c.host .netloopContinue)
  let (prereq, s) ← netCheckPrereq s
  match prereq with
  | 1 => some ⟨.done, -19, ethHalt s⟩
  | 2 => some ⟨.poll, c.ret, s⟩
  | _ => some ⟨.poll, c.ret,
      pingStart { s with loop := { s.loop with netDevExists := true, netBootFileSize := 0 } }⟩

def checkTimeout (s : Host) : Host :=
  match s.hand.timeHandler with
  | none => s
  | some x =>
    let (t, s) := getTimer s 0
    if t - s.hand.timeStart > s.hand.timeDelta then
      callTimeHandler x { s with hand := { s.hand with timeHandler := none } }
    else s

/-- The ARP timer, which holds the timeout back while a reply is awaited, and
the device. -/
def pollRx (s : Host) : Host :=
  let (r, s) := arpTimeoutCheck s
  let s :=
    if r > 0 then
      let (t, s) := getTimer s 0
      { s with hand := { s.hand with timeStart := t } }
    else s
  ethRx s

def netLoopPoll (c : Run) : Run :=
  let s := pollRx c.host
  if ctrlc then
    let s := { s with arp := { s.arp with netArpWaitPacketIp := 0 } }
    ⟨.done, -4, ethHalt (netCleanupLoop s)⟩
  else ⟨.select, c.ret, checkTimeout s⟩

def netLoopFail (c : Run) : Option (Int × Host) :=
  if c.host.loop.netState = .netloopFail then netStartAgain c.host else some (c.ret, c.host)

def netLoopSelect (c : Run) : Option Run := do
  let (ret, s) ← netLoopFail c
  match s.loop.netState with
  | .netloopRestart => some ⟨.restart, ret, { s with loop := { s.loop with netRestarted := true } }⟩
  | .netloopSuccess =>
    let s := ethHalt (netCleanupLoop s)
    some ⟨.done, toInt s.loop.netBootFileSize.toNat, s⟩
  | .netloopFail => some ⟨.done, ret, netCleanupLoop s⟩
  | .netloopContinue => some ⟨.poll, ret, s⟩

def netLoopStep (c : Run) : Option Run :=
  match c.pc with
  | .restart => netLoopRestart c
  | .poll => some (netLoopPoll c)
  | .select => netLoopSelect c
  | .done => none

end EmacDriver
