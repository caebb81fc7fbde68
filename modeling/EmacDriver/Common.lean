import EmacDriver.Lib.Bytes

namespace EmacDriver
open Bytes

/-- `while (count >= sizeof(*dl))` of `memcpy`: memory, both pointers and `count` after it. A
pointer is its address. -/
def copyWords (m : Buf) (dl sl count : Nat) : Buf × Nat × Nat × Nat :=
  if 8 ≤ count then copyWords (store64 m dl (load64 m sl)) (dl + 8) (sl + 8) (count - 8)
  else (m, dl, sl, count)
termination_by count

def copyBytes (m : Buf) (d8 s8 : Nat) : Nat → Buf
  | 0 => m
  | count + 1 => copyBytes (store8 m d8 (m s8)) (d8 + 1) (s8 + 1) count

def memcpy (m : Buf) (dest src count : Nat) : Nat × Buf :=
  if src = dest then (dest, m)
  else
    let (m, dl, sl, count) :=
      if (dest ||| src) &&& (8 - 1) = 0 then copyWords m dest src count else (m, dest, src, count)
    (dest, copyBytes m dl sl count)

/-- `cl` after `i` rounds of its loop. -/
def fillWord (c : BitVec 32) : Nat → UInt64
  | 0 => 0
  | i + 1 => fillWord c i <<< 8 ||| UInt64.ofBitVec ((c &&& 0xff).signExtend 64)

def fillWords (cl : UInt64) (m : Buf) (sl count : Nat) : Buf × Nat × Nat :=
  if 8 ≤ count then fillWords cl (store64 m sl cl) (sl + 8) (count - 8) else (m, sl, count)
termination_by count

def fillBytes (c : BitVec 32) (m : Buf) (s8 : Nat) : Nat → Buf
  | 0 => m
  | count + 1 => fillBytes c (store8 m s8 (UInt8.ofBitVec (c.setWidth 8))) (s8 + 1) count

def memset (m : Buf) (s : Nat) (c : BitVec 32) (count : Nat) : Nat × Buf :=
  let (m, sl, count) :=
    if s &&& (8 - 1) = 0 then fillWords (fillWord c 8) m s count else (m, s, count)
  (s, fillBytes c m sl count)

end EmacDriver
