import EmacDriver.Receive

namespace EmacDriver

def rotateOff (e : Env) : Bool :=
  match envGet e (cstr "ethrotate") with
  | some p => strcmp (e.vals p) (cstr "no") == 0
  | none => false

def Host.setDevState (s : Host) (p : Nat) (state : EthState) : Host :=
  { s with eth := { s.eth with
      mem := fun q => if q = p then { s.eth.mem p with state := state } else s.eth.mem q } }

def ethSetDev (s : Host) (dev : Option Nat) : Host :=
  { s with eth := { s.eth with ethCurrent := dev } }

/-- The do-while walk from `dev` round to `eth_devices`. `none`, here and below, is undefined
behaviour, or a walk with no end within the number of device objects there are. -/
def findDev (s : Host) (devname : CStr) : Nat → Option Nat → Option (Option Nat)
  | n + 1, some p =>
    if strcmp devname (s.eth.mem p).name = 0 then some (some p)
    else if (s.eth.mem p).next ≠ s.eth.ethDevices then findDev s devname n (s.eth.mem p).next
    else some none
  | _, _ => none

def ethGetDevByName (s : Host) (devname : CStr) : Option (Option Nat) :=
  match s.eth.ethDevices with
  | none => some none
  | some p => findDev s devname s.eth.count (some p)

def ethCurrentChanged (s : Host) : Option Host :=
  let setAct (val : Option CStr) : Option Host :=
    (envSet s.env (cstr "ethact") val).map (fun e => { s with env := e })
  if rotateOff s.env then some s
  else
    match s.eth.ethCurrent, envGet s.env (cstr "ethact") with
    | some p, some act =>
      if strcmp (s.env.vals act) (s.eth.mem p).name ≠ 0 then setAct (some (s.eth.mem p).name)
      else some s
    | some p, none => setAct (some (s.eth.mem p).name)
    | none, some _ => setAct none
    | none, none => some s

def ethTryAnother (s : Host) (firstRestart : Bool) : Option Host :=
  if rotateOff s.env then some s
  else
    match s.eth.ethCurrent with
    | none => some s
    | some p => do
      let failed := if firstRestart then some p else s.eth.firstFailed
      let s ← ethCurrentChanged { s with eth := { s.eth with
        firstFailed := failed, ethCurrent := (s.eth.mem p).next } }
      if s.eth.firstFailed = s.eth.ethCurrent then
        some { s with loop := { s.loop with netRestartWrap := true } }
      else some s

/-- The static `act` of `eth_set_current`, read again when `get_env_id` moves. -/
def refreshAct (s : Host) : Host :=
  let envId := 1
  if s.eth.act = none ∨ s.eth.envChangedId ≠ envId then
    { s with eth := { s.eth with act := envGet s.env (cstr "ethact"), envChangedId := envId } }
  else s

def chosenDev (s : Host) : Option (Option Nat) :=
  match s.eth.act with
  | none =>
    match envGet s.env (cstr "ethprime") with
    | some ethprime => ethGetDevByName s (s.env.vals ethprime)
    | none => some none
  | some act => ethGetDevByName s (s.env.vals act)

def ethSetCurrent (s : Host) : Option Host := do
  let s := refreshAct s
  let dev ← chosenDev s
  ethCurrentChanged (ethSetDev s dev)

/-- The do-while of `eth_init`, back to where it began at `old`. -/
def ethInitLoop (old : Nat) : Nat → Host → Option (Int × Host)
  | 0, _ => none
  | n + 1, s =>
    match s.eth.ethCurrent with
    | none => none
    | some p =>
      let r := s.hw.init s.eth.inits p
      let s := { s with eth := { s.eth with inits := s.eth.inits + 1 } }
      if r ≥ 0 then some (0, s.setDevState p .ethStateActive)
      else
        match ethTryAnother s false with
        | none => none
        | some s => if s.eth.ethCurrent ≠ some old then ethInitLoop old n s else some (-110, s)

def ethInit (s : Host) : Option (Int × Host) :=
  match s.eth.ethCurrent with
  | none => some (-19, s)
  | some old => ethInitLoop old s.eth.count s

def ethHalt (s : Host) : Host :=
  match s.eth.ethCurrent with
  | none => s
  | some p => s.setDevState p .ethStatePassive

def ethRx (s : Host) : Host :=
  match s.eth.ethCurrent with
  | none => s
  | some p =>
    (s.hw.recv s.eth.recvs p).foldl netProcessReceivedPacket
      { s with eth := { s.eth with recvs := s.eth.recvs + 1 } }

/-- -1 without a current device. -/
def ethGetDevIndex (s : Host) : Int :=
  match s.eth.ethCurrent with
  | none => -1
  | some p => (s.eth.mem p).index

end EmacDriver
