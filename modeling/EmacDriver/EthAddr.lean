import EmacDriver.Host
import EmacDriver.Vsnprintf

namespace EmacDriver
open Bytes

def isZeroEthaddr (addr : Mac) : Bool :=
  (addr[0] ||| addr[1] ||| addr[2] ||| addr[3] ||| addr[4] ||| addr[5]) == 0

def isMulticastEthaddr (addr : Mac) : Bool := ((0x01 : UInt8) &&& addr[0]) != 0

def isValidEthaddr (addr : Mac) : Bool := !isMulticastEthaddr addr && !isZeroEthaddr addr

def parseByte : Option CStr → UInt8 × Option CStr
  | none => (0, none)
  | some addr =>
    let (value, endp) := simpleStrtoul addr 16
    (value.toUInt8, some (if endp.getD 0 0 ≠ 0 then endp.drop 1 else endp))

def parseBytes : Nat → Option CStr → List UInt8
  | 0, _ => []
  | n + 1, addr => (parseByte addr).1 :: parseBytes n (parseByte addr).2

theorem length_parseBytes (n : Nat) (addr : Option CStr) : (parseBytes n addr).length = n := by
  induction n generalizing addr with
  | zero => rfl
  | succ n ih => simp [parseBytes, ih]

def ethParseEnetaddr (addr : Option CStr) : Mac :=
  ⟨(parseBytes 6 addr).toArray, length_parseBytes 6 addr⟩

/-- `sprintf` into a local array of `n` bytes, and the string it is then. Text
that does not fit runs over other variables. -/
def sprintfLocal (n : Nat) (fmt : CStr) (args : Nat → Arg) : Option CStr := do
  let (mem, len) ← sprintf (fun _ => 0) 0 fmt args
  if 0 ≤ len ∧ len < n then some ((slice mem 0 n).takeWhile (· ≠ 0)) else none

def ethEnvGetEnetaddr (e : Env) (name : CStr) : Mac × Bool :=
  let enetaddr := ethParseEnetaddr ((envGet e name).map e.vals)
  (enetaddr, isValidEthaddr enetaddr)

def ethEnvSetEnetaddr (e : Env) (name : CStr) (enetaddr : Mac) : Option (Env × Int) :=
  if (ethEnvGetEnetaddr e name).2 then some (e, -17)
  else do
    let buf ← sprintfLocal 18 (cstr "%pM") (fun _ => ⟨0, none, ofList enetaddr.toList⟩)
    let e ← envSet e name (some buf)
    some (e, 0)

def enetvar (baseName : CStr) (index : Int) : Option CStr :=
  sprintfLocal 32 (if index ≠ 0 then cstr "%s%daddr" else cstr "%saddr")
    (fun k => if k = 0 then ⟨0, some baseName, fun _ => 0⟩
      else ⟨UInt64.ofInt index, none, fun _ => 0⟩)

def ethEnvGetEnetaddrByIndex (e : Env) (baseName : CStr) (index : Int) : Option (Mac × Bool) := do
  let name ← enetvar baseName index
  some (ethEnvGetEnetaddr e name)

def ethEnvSetEnetaddrByIndex (e : Env) (baseName : CStr) (index : Int) (enetaddr : Mac) :
    Option (Env × Int) := do
  let name ← enetvar baseName index
  ethEnvSetEnetaddr e name enetaddr

def macSkipVar (index : Int) : Option CStr :=
  sprintfLocal 15 (if index ≠ 0 then cstr "eth%dmacskip" else cstr "ethmacskip")
    (fun _ => ⟨UInt64.ofInt index, none, fun _ => 0⟩)

def ethMacSkip (e : Env) (index : Int) : Option Bool := do
  let enetvar ← macSkipVar index
  some (envGet e enetvar).isSome

/-- Built with `CONFIG_NET_RANDOM_ETHADDR`. -/
def defaultMac : Mac := #v[0x6a, 0xe3, 0xd1, 0x16, 0xb0, 0x50]

def Host.setEnetaddr (s : Host) (dev : Nat) (enetaddr : Mac) : Host :=
  { s with eth := { s.eth with
      mem := fun q =>
        if q = dev then { s.eth.mem dev with enetaddr := enetaddr } else s.eth.mem q } }

def ethChooseHwaddr (s : Host) (dev : Nat) (baseName : CStr) (ethNumber : Int) : Option Host := do
  let (envEnetaddr, _) ← ethEnvGetEnetaddrByIndex s.env baseName ethNumber
  let enetaddr := (s.eth.mem dev).enetaddr
  if !isZeroEthaddr envEnetaddr then some (s.setEnetaddr dev envEnetaddr)
  else if isValidEthaddr enetaddr then
    let (e, _) ← ethEnvSetEnetaddrByIndex s.env baseName ethNumber enetaddr
    some { s with env := e }
  else if isZeroEthaddr enetaddr then some (s.setEnetaddr dev defaultMac)
  else some s

structure HwaddrWrite where
  ret : Int
  host : Host
  written : Option Mac

def ethWriteHwaddr (writeHwaddr : Option (EthDevice → Int)) (s : Host) (dev : Nat)
    (baseName : CStr) (ethNumber : Int) : Option HwaddrWrite := do
  let s ← ethChooseHwaddr s dev baseName ethNumber
  match writeHwaddr with
  | none => some ⟨0, s, none⟩
  | some write =>
    let skip ← ethMacSkip s.env ethNumber
    if skip then some ⟨0, s, none⟩
    else if !isValidEthaddr (s.eth.mem dev).enetaddr then some ⟨-22, s, none⟩
    else some ⟨write (s.eth.mem dev), s, some (s.eth.mem dev).enetaddr⟩

end EmacDriver
