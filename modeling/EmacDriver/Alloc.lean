import Mathlib.Algebra.Ring.Nat

namespace EmacDriver

/-- The address of a static array and the bytes of it in use, handed out from the front and never
taken back. -/
structure Arena where
  buf : UInt64
  sz : UInt32
  deriving DecidableEq, Repr

def memalignRoundup (alignment addr : UInt64) : UInt64 :=
  let tmp := addr % alignment
  if tmp ≠ 0 then alignment + addr - tmp else addr

def malloc (a : Arena) (size : UInt64) : UInt64 × Arena :=
  let sz := (a.sz.toUInt64 + size).toUInt32
  (a.buf + sz.toUInt64 - size, { a with sz := sz })

def calloc (a : Arena) (nelem elsize : UInt64) : UInt64 × Arena :=
  let res := a.buf + a.sz.toUInt64
  (res, { a with sz := (a.sz.toUInt64 + nelem * elsize).toUInt32 })

def memalign (a : Arena) (alignment size : UInt64) : UInt64 × Arena :=
  let bufp := memalignRoundup alignment (a.buf + a.sz.toUInt64)
  let sz := (bufp - a.buf + size).toUInt32
  (a.buf + sz.toUInt64 - size, { a with sz := sz })

inductive Allocator where
  | malloc | calloc | memalign
  deriving DecidableEq, Repr

inductive AllocCall where
  | malloc (size : UInt64)
  | calloc (nelem elsize : UInt64)
  | memalign (alignment size : UInt64)
  deriving DecidableEq, Repr

namespace AllocCall

def allocator : AllocCall → Allocator
  | malloc _ => .malloc
  | calloc _ _ => .calloc
  | memalign _ _ => .memalign

def bytes : AllocCall → Nat
  | malloc size => size.toNat
  | calloc nelem elsize => nelem.toNat * elsize.toNat
  | memalign _ size => size.toNat

def run (a : Arena) : AllocCall → UInt64 × Arena
  | malloc size => EmacDriver.malloc a size
  | calloc nelem elsize => EmacDriver.calloc a nelem elsize
  | memalign alignment size => EmacDriver.memalign a alignment size

end AllocCall

abbrev Heap := Allocator → Arena

def Heap.call (h : Heap) (c : AllocCall) : UInt64 × Heap :=
  let r := c.run (h c.allocator)
  (r.1, fun x => if x = c.allocator then r.2 else h x)

structure Returned where
  call : AllocCall
  addr : UInt64
  deriving DecidableEq, Repr

def Heap.run : Heap → List AllocCall → List Returned
  | _, [] => []
  | h, c :: calls => ⟨c, (h.call c).1⟩ :: Heap.run (h.call c).2 calls

def Heap.fresh (buf : Allocator → UInt64) : Heap := fun x => ⟨buf x, 0⟩

end EmacDriver
