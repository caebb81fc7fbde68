import EmacDriver.Format

namespace EmacDriver
open Bytes

def isDigit (c : UInt8) : Bool := 48 ≤ c && c ≤ 57

def isalnum (c : UInt8) : Bool := isupper c || islower c || isdigit c

/-- What one conversion does: characters for `ADDCH`, those of a `%p`, which
are followed by a check of the pointer, or the store of a `%n`. -/
inductive Piece where
  | chars (l : List UInt8)
  | pointer (l : List UInt8)
  | count (ip : Nat) (width : Nat)
  deriving DecidableEq, Repr

def flagLoop (fmt : CStr) : Nat → Nat → Flags → Option (Nat × Flags)
  | 0, _, _ => none
  | n + 1, i, flags => do
    let i := i + 1
    let c ← rd fmt i
    if c = 45 then flagLoop fmt n i { flags with left := true }          -- '-'
    else if c = 43 then flagLoop fmt n i { flags with plus := true }     -- '+'
    else if c = 32 then flagLoop fmt n i { flags with space := true }    -- ' '
    else if c = 35 then flagLoop fmt n i { flags with special := true }  -- '#'
    else if c = 48 then flagLoop fmt n i { flags with zeropad := true }  -- '0'
    else some (i, flags)

def skipAtoi (fmt : CStr) : Nat → Nat → Int → Option (Nat × Int)
  | 0, _, _ => none
  | n + 1, i, v => do
    let c ← rd fmt i
    if isDigit c then skipAtoi fmt n (i + 1) (v * 10 + c.toNat - 48) else some (i, v)

/-- A conversion as far as it is scanned, `k` arguments taken. `fmt` is an index into the format;
running past the NUL is `none`, as is a loop out of fuel. -/
structure Spec where
  i : Nat
  k : Nat
  flags : Flags
  fieldWidth : Int
  precision : Int
  qualifier : Option UInt8

def Arg.int (a : Arg) : Int := toInt a.word.toNat

def scanWidth (fmt : CStr) (args : Nat → Arg) (s : Spec) : Option Spec := do
  let c ← rd fmt s.i
  if isDigit c then
    let (i, w) ← skipAtoi fmt (fmt.length + 1) s.i 0
    some { s with i := i, fieldWidth := w }
  else if c = 42 then                                                     -- '*'
    let w := (args s.k).int
    if w < 0 then
      some { s with i := s.i + 1, k := s.k + 1, fieldWidth := -w,
                    flags := { s.flags with left := true } }
    else some { s with i := s.i + 1, k := s.k + 1, fieldWidth := w }
  else some s

def scanPrecision (fmt : CStr) (args : Nat → Arg) (s : Spec) : Option Spec := do
  let c ← rd fmt s.i
  if c = 46 then                                                          -- '.'
    let i := s.i + 1
    let d ← rd fmt i
    if isDigit d then
      let (i, p) ← skipAtoi fmt (fmt.length + 1) i 0
      some { s with i := i, precision := max p 0 }
    else if d = 42 then
      some { s with i := i + 1, k := s.k + 1, precision := max (args s.k).int 0 }
    else some { s with i := i, precision := 0 }
  else some s

def scanQualifier (fmt : CStr) (s : Spec) : Option Spec := do
  let c ← rd fmt s.i
  if c = 104 ∨ c = 108 ∨ c = 76 ∨ c = 90 ∨ c = 122 ∨ c = 116 then         -- "hlLZzt"
    let d ← rd fmt (s.i + 1)
    if c = 108 ∧ d = 108 then some { s with i := s.i + 2, qualifier := some 76 }
    else some { s with i := s.i + 1, qualifier := some c }
  else some s

def charLoop (fieldWidth : Int) : List UInt8 × Int :=
  (List.replicate (fieldWidth - 1).toNat 32, min (fieldWidth - 1) 0)

def charField (c : UInt8) (fieldWidth : Int) (flags : Flags) : List UInt8 :=
  let (lead, fieldWidth) := if flags.left then ([], fieldWidth) else charLoop fieldWidth
  lead ++ c :: (charLoop fieldWidth).1

def numArg (a : Arg) (qualifier : Option UInt8) (flags : Flags) : UInt64 :=
  if qualifier = some 76 ∨ qualifier = some 108 ∨ qualifier = some 90 ∨ qualifier = some 122 ∨
      qualifier = some 116 then a.word
  else if qualifier = some 104 then
    let n := a.word.toUInt16
    if flags.sign then n.toInt16.toInt64.toUInt64 else n.toUInt64
  else
    let n := a.word.toUInt32
    if flags.sign then n.toInt32.toInt64.toUInt64 else n.toUInt64

def integer (args : Nat → Arg) (s : Spec) (base : Nat) (flags : Flags) : Piece × Nat × Nat :=
  let num := numArg (args s.k) s.qualifier flags
  (.chars (number num base s.fieldWidth s.precision flags), s.i + 1, s.k + 1)

/-- Past the alphanumeric suffixes, from the character behind the `p`. -/
def skipSuffix (fmt : CStr) : Nat → Nat → Option Nat
  | 0, _ => none
  | n + 1, i => do
    let c ← rd fmt i
    if isalnum c then skipSuffix fmt n (i + 1) else some i

/-- The switch on the conversion. Behind the piece stand `fmt` and the argument
for the next turn of the loop. -/
def convert (fmt : CStr) (args : Nat → Arg) (s : Spec) : Option (Piece × Nat × Nat) := do
  let c ← rd fmt s.i
  let a := args s.k
  if c = 99 then                                                          -- 'c'
    some (.chars (charField a.word.toUInt8 s.fieldWidth s.flags), s.i + 1, s.k + 1)
  else if c = 115 then                                                    -- 's'
    some (.chars (string a.str s.fieldWidth s.precision s.flags), s.i + 1, s.k + 1)
  else if c = 112 then                                                    -- 'p'
    let l ← pointer fmt (s.i + 1) a s.fieldWidth s.precision s.flags
    let i ← skipSuffix fmt (fmt.length + 1) (s.i + 1)
    some (.pointer l, i, s.k + 1)
  else if c = 110 then                                                    -- 'n'
    some (.count a.word.toNat (if s.qualifier = some 108 then 8 else 4), s.i + 1, s.k + 1)
  else if c = 37 then some (.chars [37], s.i + 1, s.k)                    -- '%'
  else if c = 111 then some (integer args s 8 s.flags)                    -- 'o'
  else if c = 120 then some (integer args s 16 { s.flags with small := true })  -- 'x'
  else if c = 88 then some (integer args s 16 s.flags)                    -- 'X'
  else if c = 100 ∨ c = 105 then                                          -- 'd', 'i'
    some (integer args s 10 { s.flags with sign := true })
  else if c = 117 then some (integer args s 10 s.flags)                   -- 'u'
  else if c ≠ 0 then some (.chars [37, c], s.i + 1, s.k)
  else some (.chars [37], s.i - 1 + 1, s.k)                               -- `--fmt`

def conversion (fmt : CStr) (args : Nat → Arg) (i k : Nat) : Option (Piece × Nat × Nat) := do
  let (i, flags) ← flagLoop fmt (fmt.length + 1) i Flags.none
  let s ← scanWidth fmt args ⟨i, k, flags, -1, -1, none⟩
  let s ← scanPrecision fmt args s
  let s ← scanQualifier fmt s
  convert fmt args s

structure Out where
  mem : Buf
  str : Nat

def addch (endp : Nat) (o : Out) (ch : UInt8) : Out where
  mem := if o.str < endp then store8 o.mem o.str ch else o.mem
  str := (o.str + 1) % 2 ^ 64

def addchs (endp : Nat) (o : Out) (l : List UInt8) : Out := l.foldl (addch endp) o

/-- `*ip = (str - buf)`. -/
def storeCount (o : Out) (buf ip width : Nat) : Out :=
  { o with mem := patch o.mem ip width (fun j =>
      UInt8.ofNat (toSize ((o.str : Int) - buf) / 256 ^ j % 256)) }

def isErr (ptr : Nat) : Bool := ptr ≥ 2 ^ 64 - 4085

def formatLoop (fmt : CStr) (args : Nat → Arg) (buf endp : Nat) :
    Nat → Nat → Nat → Out → Option (Out × Bool)
  | 0, _, _, _ => none
  | n + 1, i, k, o => do
    let c ← rd fmt i
    if c = 0 then some (o, false)
    else if c ≠ 37 then formatLoop fmt args buf endp n (i + 1) k (addch endp o c)
    else
      let (piece, i, k) ← conversion fmt args i k
      match piece with
      | .chars l => formatLoop fmt args buf endp n i k (addchs endp o l)
      | .count ip width => formatLoop fmt args buf endp n i k (storeCount o buf ip width)
      | .pointer l =>
        let o := addchs endp o l
        if isErr o.str then some (o, true) else formatLoop fmt args buf endp n i k o

/-- `end`, kept from wrapping around, and the size up to there. -/
def endOf (buf size : UInt64) : Nat × Nat :=
  if (buf + size).toNat < buf.toNat then (2 ^ 64 - 1, 2 ^ 64 - 1 - buf.toNat)
  else ((buf + size).toNat, size.toNat)

def terminate (buf endp size : Nat) (o : Out) : Buf × Int :=
  if size > 0 then
    let o := addch endp o 0
    let mem := if o.str > endp then store8 o.mem (endp - 1) 0 else o.mem
    (mem, toInt ((o.str : Int) - 1 - buf))
  else (o.mem, toInt ((o.str : Int) - buf))

/-- The arguments are read before the output is written: they do not lie in the
buffer. -/
def vsnprintfInternal (mem : Buf) (buf size : UInt64) (fmt : CStr) (args : Nat → Arg) :
    Option (Buf × Int) := do
  let (endp, size) := endOf buf size
  let (o, err) ← formatLoop fmt args buf.toNat endp (fmt.length + 1) 0 0 ⟨mem, buf.toNat⟩
  some (if err then (o.mem, toInt o.str) else terminate buf.toNat endp size o)

def vsnprintf (mem : Buf) (buf size : UInt64) (fmt : CStr) (args : Nat → Arg) :
    Option (Buf × Int) :=
  vsnprintfInternal mem buf size fmt args

def vscnprintf (mem : Buf) (buf size : UInt64) (fmt : CStr) (args : Nat → Arg) :
    Option (Buf × Int) := do
  let (m, i) ← vsnprintf mem buf size fmt args
  if toSize i < size.toNat then some (m, i)
  else if size ≠ 0 then some (m, toInt (size.toNat - 1))
  else some (m, 0)

def sprintf (mem : Buf) (buf : UInt64) (fmt : CStr) (args : Nat → Arg) : Option (Buf × Int) :=
  vsnprintfInternal mem buf 2147483647 fmt args

/-- The `do` loop, with `n` bytes of `local` left in front of `p`. -/
def itoaLoop : Nat → UInt64 → CStr → Option CStr
  | 0, _, _ => none
  | n + 1, i, p =>
    let p := (48 + i % 10).toUInt8 :: p
    if i / 10 > 0 then itoaLoop n (i / 10) p else some p

def simpleItoa (i : UInt64) : Option CStr := itoaLoop 21 i []

def utf8Four (code : UInt32) : List UInt8 :=
  [((code >>> 18) ||| 0xF0).toUInt8, (((code >>> 12) &&& 0x3F) ||| 0x80).toUInt8,
    (((code >>> 6) &&& 0x3F) ||| 0x80).toUInt8, ((code &&& 0x3F) ||| 0x80).toUInt8]

/-- The bytes written for the units from `src` on, with the count `size` of the
units to read. -/
def utf16Loop : Nat → List UInt16 → UInt32 → List UInt8
  | 0, _, _ => []
  | size + 1, src, codeHigh =>
    let code := (src.headD 0).toUInt32
    if codeHigh ≠ 0 then
      if code ≥ 0xDC00 ∧ code ≤ 0xDFFF then
        utf8Four (((codeHigh - 0xD800) <<< 10) + (code - 0xDC00) + 0x10000) ++
          utf16Loop size src.tail 0
      else 63 :: utf16Loop size src 0                       -- `src--`
    else if code ≤ 0x007F then code.toUInt8 :: utf16Loop size src.tail 0
    else if code ≤ 0x07FF then
      ((code >>> 6) ||| 0xC0).toUInt8 :: ((code &&& 0x3F) ||| 0x80).toUInt8 ::
        utf16Loop size src.tail 0
    else if code ≥ 0xD800 ∧ code ≤ 0xDBFF then utf16Loop size src.tail code
    else if code ≥ 0xDC00 ∧ code ≤ 0xDFFF then 63 :: utf16Loop size src.tail 0
    else if code < 0x10000 then
      ((code >>> 12) ||| 0xE0).toUInt8 :: (((code >>> 6) &&& 0x3F) ||| 0x80).toUInt8 ::
        ((code &&& 0x3F) ||| 0x80).toUInt8 :: utf16Loop size src.tail 0
    else utf8Four code ++ utf16Loop size src.tail 0

def utf16ToUtf8 (src : List UInt16) : List UInt8 := utf16Loop src.length src 0

end EmacDriver
