import EmacDriver.Ethernet
import EmacDriver.Lib.LinkedRing

namespace EmacDriver
open LinkedRing

def Host.setDev (s : Host) (p : Nat) (f : EthDevice → EthDevice) : Host :=
  { s with eth := { s.eth with mem := fun q => if q = p then f (s.eth.mem p) else s.eth.mem q } }

def Host.next (s : Host) (p : Nat) : Option Nat := (s.eth.mem p).next

structure Registry where
  host : Host
  index : Nat

section
variable (changed : Host → Option Host)

/-- The first device becomes the current one; a later one goes behind the last. `changed` is
`eth_current_changed`, with what it writes to the environment. -/
def ethEnter (s : Host) (dev : Nat) : Option Host :=
  match s.eth.ethDevices with
  | none => changed { s with eth := { s.eth with ethDevices := some dev, ethCurrent := some dev } }
  | some head =>
    match walk s.next (fun d => s.next d == some head) s.eth.count head with
    | some d => some (s.setDev d (fun x => { x with next := some dev }))
    | none => none

def ethRegister (r : Registry) (dev : Nat) : Option (Int × Registry) :=
  match ethEnter changed r.host dev with
  | some s =>
    some (0, {
      host := s.setDev dev (fun x => { x with
        state := .ethStateInit, next := s.eth.ethDevices, index := r.index })
      index := r.index + 1 })
  | none => none

def ethUnlink (s : Host) (cur dev : Nat) : Host :=
  let s := s.setDev cur (fun x => { x with next := s.next dev })
  if s.eth.ethDevices = some dev then
    { s with eth := { s.eth with
        ethDevices := if s.next dev = s.eth.ethDevices then none else s.next dev } }
  else s

def ethUnregister (s : Host) (dev : Nat) : Option (Int × Host) :=
  match s.eth.ethDevices with
  | none => some (-19, s)
  | some head =>
    match walk s.next (fun cur => s.next cur == some head || s.next cur == some dev)
        s.eth.count head with
    | none => none
    | some cur =>
      if s.next cur ≠ some dev then some (-19, s)
      else
        let s := ethUnlink s cur dev
        if s.eth.ethCurrent = some dev then
          (changed { s with eth := { s.eth with ethCurrent := s.eth.ethDevices } }).map
            (fun s => (0, s))
        else some (0, s)

/-- `eth_try_another` over any `eth_current_changed`. -/
def ethTryAnotherBy (s : Host) (firstRestart : Bool) : Option Host :=
  if rotateOff s.env then some s
  else
    match s.eth.ethCurrent with
    | none => some s
    | some p => do
      let failed := if firstRestart then some p else s.eth.firstFailed
      let s ← changed { s with eth := { s.eth with
        firstFailed := failed, ethCurrent := (s.eth.mem p).next } }
      if s.eth.firstFailed = s.eth.ethCurrent then
        some { s with loop := { s.loop with netRestartWrap := true } }
      else some s

theorem ethTryAnotherBy_changed : ethTryAnotherBy ethCurrentChanged = ethTryAnother := rfl

inductive RingOp where
  | ethRegister (dev : Nat)
  | ethUnregister (dev : Nat)
  | ethTryAnother (firstRestart : Bool)
  deriving DecidableEq, Repr

def RingOp.run (r : Registry) : RingOp → Option Registry
  | ethRegister dev => (EmacDriver.ethRegister changed r dev).map (·.2)
  | ethUnregister dev =>
    (EmacDriver.ethUnregister changed r.host dev).map (fun x => { r with host := x.2 })
  | ethTryAnother first =>
    (ethTryAnotherBy changed r.host first).map (fun s => { r with host := s })

end

/-- An `eth_current_changed` that leaves the environment `e` behind. -/
def leaving (e : Env) (s : Host) : Option Host := some { s with env := e }

def ringRun (r : Registry) (ops : List (RingOp × Env)) : Option Registry :=
  ops.foldlM (fun r op => op.1.run (leaving op.2) r) r

end EmacDriver
