import EmacDriver.CInt
import EmacDriver.Environment
import EmacDriver.Lib.Bytes

namespace EmacDriver
open Bytes

/-- An argument as whichever type `va_arg` takes it: a word, the string it
points to (none for null), the bytes it points to. -/
structure Arg where
  word : UInt64
  str : Option CStr
  mem : Buf

structure Flags where
  zeropad : Bool
  sign : Bool
  plus : Bool
  space : Bool
  left : Bool
  small : Bool
  special : Bool
  deriving DecidableEq, Repr

def Flags.none : Flags := ⟨false, false, false, false, false, false, false⟩

def hexAsc (n : Nat) : UInt8 := (cstr "0123456789abcdef").getD n 0

/-- The digits of `q` below 100000, the last one first. All that is written goes character by
character through `ADDCH`; what writes is the list of these characters. -/
def putDecTrunc (q : Nat) : List UInt8 :=
  let d1 := q >>> 4 &&& 0xf
  let d2 := q >>> 8 &&& 0xf
  let d3 := q >>> 12
  let d0 := 6 * (d3 + d2 + d1) + (q &&& 0xf)
  let q := (d0 * 0xcd) >>> 11
  let d0 := d0 - 10 * q
  let d1 := q + 9 * d3 + 5 * d2 + d1
  UInt8.ofNat (d0 + 48) ::
    if d1 = 0 then []
    else
      let q := (d1 * 0xcd) >>> 11
      let d1 := d1 - 10 * q
      let d2' := q + 2 * d2
      UInt8.ofNat (d1 + 48) ::
        if d2' = 0 ∧ d3 = 0 then []
        else
          let q := (d2' * 0xd) >>> 7
          let d2' := d2' - 10 * q
          let d3 := q + 4 * d3
          UInt8.ofNat (d2' + 48) ::
            if d3 = 0 then []
            else
              let q := (d3 * 0xcd) >>> 11
              let d3 := d3 - 10 * q
              UInt8.ofNat (d3 + 48) :: if q = 0 then [] else [UInt8.ofNat (q + 48)]

def putDecFull (q : Nat) : List UInt8 :=
  let d1 := q >>> 4 &&& 0xf
  let d2 := q >>> 8 &&& 0xf
  let d3 := q >>> 12
  let d0 := 6 * (d3 + d2 + d1) + (q &&& 0xf)
  let q0 := (d0 * 0xcd) >>> 11
  let d1 := q0 + 9 * d3 + 5 * d2 + d1
  let q1 := (d1 * 0xcd) >>> 11
  let d2 := q1 + 2 * d2
  let q2 := (d2 * 0xd) >>> 7
  let d3 := q2 + 4 * d3
  let q3 := (d3 * 0xcd) >>> 11
  [UInt8.ofNat (d0 - 10 * q0 + 48), UInt8.ofNat (d1 - 10 * q1 + 48),
    UInt8.ofNat (d2 - 10 * q2 + 48), UInt8.ofNat (d3 - 10 * q3 + 48), UInt8.ofNat (q3 + 48)]

/-- Groups of five digits, of which 64 bits have at most four. -/
def putDecLoop : Nat → Nat → List UInt8
  | 0, _ => []
  | n + 1, num =>
    if num < 100000 then putDecTrunc num
    else putDecFull (num % 100000) ++ putDecLoop n (num / 100000)

def putDec (num : Nat) : List UInt8 := putDecLoop 4 num

/-- The `do` loop for bases 8 and 16, at most 22 times for 64 bits. -/
def maskDigits (mask shift : Nat) (locase : UInt8) : Nat → Nat → List UInt8
  | 0, _ => []
  | n + 1, num =>
    ((cstr "0123456789ABCDEF").getD (num % 256 &&& mask) 0 ||| locase) ::
      if num >>> shift = 0 then [] else maskDigits mask shift locase n (num >>> shift)

/-- `while (--size >= 0) ADDCH(buf, c)`, and `size` behind the loop. Widths and precisions are
integers without overflow. -/
def padLoop (c : UInt8) (size : Int) : List UInt8 × Int :=
  (List.replicate size.toNat c, min size 0 - 1)

def signOf (num : UInt64) (size : Int) (type : Flags) : List UInt8 × UInt64 × Int :=
  if type.sign then
    if num ≥ 0x8000000000000000 then ([45], -num, size - 1)
    else if type.plus then ([43], num, size - 1)
    else if type.space then ([32], num, size - 1)
    else ([], num, size)
  else ([], num, size)

def numberDigits (num : UInt64) (base : Nat) (locase : UInt8) : List UInt8 :=
  if num = 0 then [48]
  else if base ≠ 10 then maskDigits (base - 1) (if base = 16 then 4 else 3) locase 22 num.toNat
  else putDec num.toNat

def number (num : UInt64) (base : Nat) (size precision : Int) (type : Flags) : List UInt8 :=
  let needPfx := type.special && base != 10
  let locase : UInt8 := if type.small then 0x20 else 0
  let type := if type.left then { type with zeropad := false } else type
  let (sign, num, size) := signOf num size type
  let size := if needPfx then (if base = 16 then size - 2 else size - 1) else size
  let tmp := numberDigits num base locase
  let precision := max (tmp.length : Int) precision
  let size := size - precision
  let (lead, size) := if type.zeropad || type.left then ([], size) else padLoop 32 size
  let pfx := if needPfx then (if base = 16 then [48, 88 ||| locase] else [48]) else []
  let (fill, size) :=
    if type.left then ([], size) else padLoop (if type.zeropad then 48 else 32) size
  let zeros := List.replicate (precision - tmp.length).toNat 48
  let (trail, _) := padLoop 32 size
  lead ++ sign ++ pfx ++ fill ++ zeros ++ tmp.reverse ++ trail

def strnlen : CStr → Nat → Nat
  | c :: s, count + 1 => if c = 0 then 0 else strnlen s count + 1
  | _, _ => 0

def fieldLoop (len fieldWidth : Int) : List UInt8 × Int :=
  (List.replicate (fieldWidth - len).toNat 32, min fieldWidth len - 1)

def string (s : Option CStr) (fieldWidth precision : Int) (flags : Flags) : List UInt8 :=
  let s := s.getD (cstr "<NULL>")
  let len := toInt (strnlen s (toSize precision))
  let (lead, fieldWidth) := if flags.left then ([], fieldWidth) else fieldLoop len fieldWidth
  let (trail, _) := fieldLoop len fieldWidth
  lead ++ s.take len.toNat ++ trail

def hexBytePack (byte : UInt8) : List UInt8 :=
  [hexAsc ((byte &&& 0xf0).toNat >>> 4), hexAsc (byte &&& 0x0f).toNat]

def macAddressString (addr : Buf) (fieldWidth precision : Int) (flags : Flags) : List UInt8 :=
  let macAddr := (List.range 6).flatMap (fun i =>
    hexBytePack (addr i) ++ if !flags.special && i != 5 then [58] else [])
  string (some macAddr) fieldWidth precision { flags with special := false }

def ip6AddrString (addr : Buf) (fieldWidth precision : Int) (flags : Flags) : List UInt8 :=
  let ip6Addr := (List.range 8).flatMap (fun i =>
    hexBytePack (addr (2 * i)) ++ hexBytePack (addr (2 * i + 1)) ++
      if !flags.special && i != 7 then [58] else [])
  string (some ip6Addr) fieldWidth precision { flags with special := false }

def ip4AddrString (addr : Buf) (fieldWidth precision : Int) (flags : Flags) : List UInt8 :=
  let ip4Addr := (List.range 4).flatMap (fun i =>
    (putDecTrunc (addr i).toNat).reverse ++ if i != 3 then [46] else [])
  string (some ip4Addr) fieldWidth precision { flags with special := false }

def rd (fmt : CStr) (i : Nat) : Option UInt8 :=
  if i ≤ fmt.length then some (fmt.getD i 0) else none

/-- The plain `%p`, and `%pa`, whose `phys_addr_t` has 64 bits. -/
def pointerNumber (num : UInt64) (fieldWidth precision : Int) (flags : Flags) : List UInt8 :=
  let flags := { flags with small := true }
  if fieldWidth = -1 then number num 16 16 precision { flags with zeropad := true }
  else number num 16 fieldWidth precision flags

def pointer (fmt : CStr) (i : Nat) (ptr : Arg) (fieldWidth precision : Int) (flags : Flags) :
    Option (List UInt8) := do
  let c ← rd fmt i
  if c = 97 then                                           -- 'a'
    let _ ← rd fmt (i + 1)
    let num := ((load32 ptr.mem 4).toUInt64 <<< 32) + (load32 ptr.mem 0).toUInt64
    some (pointerNumber num 18 precision { flags with special := true, zeropad := true })
  else if c = 109 then                                     -- 'm'
    some (macAddressString ptr.mem fieldWidth precision { flags with special := true })
  else if c = 77 then                                      -- 'M'
    some (macAddressString ptr.mem fieldWidth precision flags)
  else if c = 105 ∨ c = 73 then                            -- 'i', 'I'
    let flags := if c = 105 then { flags with special := true } else flags
    let d ← rd fmt (i + 1)
    if d = 54 then some (ip6AddrString ptr.mem fieldWidth precision flags)
    else if d = 52 then some (ip4AddrString ptr.mem fieldWidth precision flags)
    else some (pointerNumber ptr.word fieldWidth precision { flags with special := false })
  else some (pointerNumber ptr.word fieldWidth precision flags)

end EmacDriver
