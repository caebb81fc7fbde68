import EmacDriver.Alloc

namespace EmacDriver

/-- The alignment asked for is not looked at. -/
def noncachedAlloc (a : Arena) (size : UInt64) : UInt64 × Arena := memalign a 64 size

structure GethBuffers where
  dmaDescTx : UInt64
  dmaDescRx : UInt64
  rxPacket : UInt64
  rxHandleBuf : UInt64

/-- `none` where it goes to `err`. A descriptor is 24 bytes. -/
def gethBuffers (a : Arena) : Option GethBuffers :=
  let (dmaDescTx, a) := noncachedAlloc a 24
  let (dmaDescRx, a) := noncachedAlloc a 24
  let (rxPacket, a) := noncachedAlloc a 2048
  let (rxHandleBuf, _) := noncachedAlloc a 2048
  if dmaDescTx = 0 ∨ dmaDescRx = 0 ∨ rxPacket = 0 ∨ rxHandleBuf = 0 then none
  else some ⟨dmaDescTx, dmaDescRx, rxPacket, rxHandleBuf⟩

end EmacDriver
