import EmacDriver.Vsnprintf

namespace EmacDriver
open Bytes

def ntohl (x : UInt32) : UInt32 := swap32 x
def htonl (x : UInt32) : UInt32 := swap32 x

def octetArg (x : UInt32) (n : UInt32) : Arg := ⟨(x >>> n &&& 0xff).toUInt64, none, fun _ => 0⟩

/-- The memory after the call. An address is in network byte order: its bytes lie in memory in the
order of the four numbers. -/
def ipToString (mem : Buf) (s : UInt64) (x : UInt32) : Option Buf := do
  let x := ntohl x
  let (mem, _) ← sprintf mem s (cstr "%d.%d.%d.%d") (fun k =>
    if k = 0 then octetArg x 24
    else if k = 1 then octetArg x 16
    else if k = 2 then octetArg x 8
    else octetArg x 0)
  some mem

def cstrAt (mem : Buf) (s : UInt64) (n : Nat) : CStr := (slice mem s.toNat n).takeWhile (· ≠ 0)

def stringToIpLoop : Nat → CStr → UInt32 → UInt32
  | 0, _, addr => htonl addr
  | n + 1, s, addr =>
    let (val, e) := simpleStrtoul s 10
    if val > 255 then 0
    else if n ≠ 0 ∧ e.getD 0 0 ≠ 46 then 0                 -- i != 3 && *e != '.'
    else
      stringToIpLoop n (if e.getD 0 0 ≠ 0 then e.drop 1 else e)
        (addr <<< 8 ||| (val &&& 0xff).toUInt32)

def stringToIp : Option CStr → UInt32
  | none => 0
  | some s => stringToIpLoop 4 s 0

end EmacDriver
