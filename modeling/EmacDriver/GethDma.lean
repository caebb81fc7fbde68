import EmacDriver.GethRx
import EmacDriver.Lib.CacheMem
import EmacDriver.Lib.Triples

namespace EmacDriver.Dma
open Bytes CacheMem Triples

def desc0 (ram : Buf) (p : BitVec 32) : Desc0 := ⟨(load32 ram p.toNat).toBitVec⟩
def descSize (ram : Buf) (p : BitVec 32) : Nat := (load32 ram (p.toNat + 4)).toNat % 2048
def descBuf (ram : Buf) (p : BitVec 32) : Nat := (load32 ram (p.toNat + 8)).toNat

def InWords (p : BitVec 32) (a : Nat) : Prop := p.toNat ≤ a ∧ a < p.toNat + 16

structure Bus where
  ram : Buf
  rxCtl1 : BitVec 32
  txCtl1 : BitVec 32
  intSta : BitVec 32
  rxDescList : BitVec 32
  txDescList : BitVec 32

namespace Bus
variable (b : Bus)

def receiving : Bool := b.rxCtl1.getLsbD 30 && (desc0 b.ram b.rxDescList).own
def sending : Bool := b.txCtl1.getLsbD 30 && (desc0 b.ram b.txDescList).own

def InBuffer (a : Nat) : Prop :=
  descBuf b.ram b.rxDescList ≤ a ∧
    a < descBuf b.ram b.rxDescList + descSize b.ram b.rxDescList

def Writable (a : Nat) : Prop :=
  b.receiving = true ∧ (InWords b.rxDescList a ∨ b.InBuffer a) ∨
  b.sending = true ∧ InWords b.txDescList a

end Bus

/-- A write of the MAC, whatever it is and whatever it depends on. All that is relied on:
an engine writes only while it is on and owns its descriptor, to nothing but the descriptor
and the buffer given there; and it touches the receive descriptor once, to give it back. -/
structure MacWrite where
  ram : Bus → Buf
  elsewhere : ∀ b a, ¬b.Writable a → ram b a = b.ram a
  kept : ∀ b, b.receiving = true → (desc0 (ram b) b.rxDescList).own = true →
    ∀ a, InWords b.rxDescList a → ram b a = b.ram a

/-- What happens below the driver: the cache on its own, and the MAC. Its interrupts come
when they come. -/
inductive Event where
  | evict (n : Nat)
  | prefetch (n : Nat)
  | write (m : MacWrite)
  | interrupt (v : BitVec 32)

/-- What a run leaves behind: the frames as they are when the MAC gives the descriptor back,
its interrupts, and what `geth_recv` does. `unseen` is a look that finds no interrupt. -/
inductive Act where
  | complete (st : Desc0) (buf : List UInt8)
  | interrupt (v : BitVec 32)
  | enter
  | miss
  | unseen
  | take (frames : List (List UInt8 × Int))
  | fill

structure Machine where
  events : Nat → List Event
  readTimer : Nat → UInt64
  txDmaSta : Nat → BitVec 32

/-- The registers of the MAC are those the driver uses here. -/
structure World where
  mem : Mem UInt8
  rxCtl1 : BitVec 32
  txCtl1 : BitVec 32
  intSta : BitVec 32
  rxDescList : BitVec 32
  txDescList : BitVec 32
  rxHandleBuf : Buf
  accesses : Nat
  timerReads : Nat
  trace : List Act

namespace World

def bus (w : World) : Bus :=
  ⟨w.mem.ram, w.rxCtl1, w.txCtl1, w.intSta, w.rxDescList, w.txDescList⟩

def log (w : World) (a : Act) : World := { w with trace := w.trace ++ [a] }

def written (w : World) (ram : Buf) : World :=
  let after := { w with mem := w.mem.withRam ram }
  if w.bus.receiving ∧ (desc0 ram w.rxDescList).own = false then
    after.log (.complete (desc0 ram w.rxDescList) (slice ram (descBuf w.mem.ram w.rxDescList) 2048))
  else after

end World

def Event.apply (w : World) : Event → World
  | evict n => { w with mem := w.mem.evict 64 n }
  | prefetch n => { w with mem := w.mem.fill n }
  | write m => w.written (m.ram w.bus)
  | interrupt v => { w with intSta := w.intSta ||| v }.log (.interrupt v)

abbrev M := StateT World Option

section
variable (hw : Machine)

def World.before (w : World) : World :=
  (hw.events w.accesses).foldl Event.apply { w with accesses := w.accesses + 1 }

def access {α : Type} (f : World → α × World) : M α := fun w => some (f (w.before hw))

def mark (a : World → Act) : M Unit := fun w => some ((), w.log (a w))

def loadByte (a : Nat) : M UInt8 :=
  access hw fun w => (w.mem.view 64 a, { w with mem := w.mem.fill (a / 64) })

def storeByte (a : Nat) (v : UInt8) : M Unit :=
  access hw fun w => ((), { w with mem := w.mem.store 64 a v })

def loadWord (a : Nat) : M UInt32 := do
  let b0 ← loadByte hw a
  let b1 ← loadByte hw (a + 1)
  let b2 ← loadByte hw (a + 2)
  let b3 ← loadByte hw (a + 3)
  return load32 (ofList [b0, b1, b2, b3]) 0

def storeWord (a : Nat) (v : UInt32) : M Unit :=
  upto (fun i => storeByte hw (a + i) (bytes32 v i)) 4

def storeLong (a : Nat) (v : UInt64) : M Unit :=
  upto (fun i => storeByte hw (a + i) (bytes64 v i)) 8

def gethTxCtl1 : Nat := 0x14
def gethTxDescList : Nat := 0x20
def gethTxDmaSta : Nat := 0xb0

def readl (reg : Nat) : M (BitVec 32) :=
  access hw fun w =>
    (if reg = gethIntSta then w.intSta
      else if reg = gethRxCtl1 then w.rxCtl1
      else if reg = gethTxCtl1 then w.txCtl1
      else if reg = gethTxDmaSta then hw.txDmaSta w.accesses
      else 0, w)

/-- A bit of `GETH_INT_STA` is cleared by writing it. -/
def writel (val : BitVec 32) (reg : Nat) : M Unit :=
  access hw fun w => ((),
    if reg = gethIntSta then { w with intSta := w.intSta &&& ~~~val }
    else if reg = gethRxCtl1 then { w with rxCtl1 := val }
    else if reg = gethTxCtl1 then { w with txCtl1 := val }
    else if reg = gethRxDescList then { w with rxDescList := val }
    else if reg = gethTxDescList then { w with txDescList := val }
    else w)

/-- As many as there are lines, and one more. -/
def lineLimit : Nat := 288230376151711745

/-- The loops of `flush_dcache_range` and `invalidate_dcache_range`. -/
def dcacheRange (op : Nat → M Unit) (stop : UInt64) : Nat → UInt64 → M Unit
  | 0, _ => failure
  | n + 1, i =>
    if i < stop then do
      op (i.toNat / 64)
      dcacheRange op stop n (i + 64)
    else pure ()

/-- `dcache.cpa` writes a line back, and keeps it. -/
def flushDcacheRange (start stop : UInt64) : M Unit :=
  dcacheRange (fun n => access hw fun w => ((), { w with mem := w.mem.clean 64 n })) stop lineLimit
    (start &&& ~~~63)

/-- `dcache.ipa` drops a line. -/
def invalidateDcacheRange (start stop : UInt64) : M Unit :=
  dcacheRange (fun n => access hw fun w => ((), { w with mem := w.mem.drop n })) stop lineLimit
    (start &&& ~~~63)

def flushCache (addr size : UInt64) : M Unit := flushDcacheRange hw addr (addr + size)

def getTimer : M UInt64 := fun w =>
  some (UInt64.ofInt (runtimeTick (hw.readTimer w.timerReads)),
    { w with timerReads := w.timerReads + 1 })

end

/-- The pointers set by `geth_initialize`: each to lines of its own, which the MAC's 32 bits
can address. -/
structure Layout where
  dmaDescRx : UInt64
  dmaDescTx : UInt64
  rxPacket : UInt64
  rx_line : dmaDescRx.toNat % 64 = 0
  tx_line : dmaDescTx.toNat % 64 = 0
  packet_line : rxPacket.toNat % 64 = 0
  rx_low : dmaDescRx.toNat + 64 < 4294967296
  tx_low : dmaDescTx.toNat + 64 < 4294967296
  packet_low : rxPacket.toNat + 2048 < 4294967296
  rx_tx : dmaDescRx ≠ dmaDescTx
  rx_packet : dmaDescRx.toNat + 64 ≤ rxPacket.toNat ∨ rxPacket.toNat + 2048 ≤ dmaDescRx.toNat
  tx_packet : dmaDescTx.toNat + 64 ≤ rxPacket.toNat ∨ rxPacket.toNat + 2048 ≤ dmaDescTx.toNat

section
variable (hw : Machine) (g : Layout)

def dmaRxEnable (en : Bool) : M Unit := do
  let regVal ← readl hw gethRxCtl1
  writel hw (if en then regVal ||| 0x40000000 else regVal &&& ~~~0x40000000) gethRxCtl1

def dmaTxEnable (en : Bool) : M Unit := do
  let regVal ← readl hw gethTxCtl1
  writel hw (if en then regVal ||| 0x40000000 else regVal &&& ~~~0x40000000) gethTxCtl1

def framesOf (d : Desc0) (b : Buf) : List Frame :=
  if rxStatus ⟨d, 0, 0⟩ ≠ .discardFrame then
    let len :=
      if rxStatus ⟨d, 0, 0⟩ ≠ .llcSnap then gethRecvLen d.frmLen else d.frmLen.toNat
    [⟨b, len⟩]
  else []

def gethTake : M (List Frame) := do
  let d ← loadWord hw g.dmaDescRx.toNat
  let frames := fun w : World => framesOf ⟨d.toBitVec⟩ w.rxHandleBuf
  if rxStatus ⟨⟨d.toBitVec⟩, 0, 0⟩ ≠ .discardFrame then
    flushCache hw g.rxPacket 2048
  else
    upto (fun i => storeByte hw (g.rxPacket.toNat + i) 0) 64
    flushCache hw g.rxPacket 64
  fun w => some (frames w, w)

def gethFill : M Unit := do
  storeWord hw g.dmaDescRx.toNat 0x80000000
  storeWord hw (g.dmaDescRx.toNat + 4) 0x81000000
  let desc1 ← loadWord hw (g.dmaDescRx.toNat + 4)
  storeWord hw (g.dmaDescRx.toNat + 4) (desc1 ||| (((1 : UInt32) <<< 11) - 1))
  storeLong hw (g.dmaDescRx.toNat + 8) g.rxPacket
  flushCache hw g.dmaDescRx 64
  writel hw (g.dmaDescRx.toBitVec.setWidth 32) gethRxDescList
  dmaRxEnable hw true

def copyPacket : M Unit :=
  upto (fun i => do
    let b ← loadByte hw (g.rxPacket.toNat + i)
    fun w => some ((), { w with rxHandleBuf := store8 w.rxHandleBuf i b })) 2048

def shown (frames : List Frame) : List (List UInt8 × Int) :=
  frames.map fun f => (slice f.inPacket 0 2048, f.len)

/-- The wait for the previous packet, with at most `fuel` looks at it. -/
def xmitWait (xmitStat : BitVec 32) (tmo : UInt64) : Nat → M Unit
  | 0 => failure
  | fuel + 1 => do
    let d ← loadWord hw g.dmaDescTx.toNat
    if (Desc0.mk d.toBitVec).own ∨ (xmitStat ≠ 0 ∧ xmitStat ≠ 6) then do
      let t ← getTimer hw
      if t > tmo then pure () else xmitWait xmitStat tmo fuel
    else pure ()

/-- `tmo` is an `int`. -/
def xmitTmo (t : UInt64) : UInt64 := UInt64.ofInt (toInt (t + 5 * 1000).toNat)

def gethXmit (fuel : Nat) (packet : UInt64) (length : Int) : M Unit := do
  let xmitStat ← readl hw gethTxDmaSta
  let t ← getTimer hw
  xmitWait hw g (xmitStat &&& 0x7) (xmitTmo t) fuel
  dmaTxEnable hw false
  let regVal ← readl hw gethIntSta
  writel hw (regVal ||| 0x3f) gethIntSta
  storeWord hw g.dmaDescTx.toNat 0x80000000
  storeWord hw (g.dmaDescTx.toNat + 4) 0x61000000
  let desc1 ← loadWord hw (g.dmaDescTx.toNat + 4)
  storeWord hw (g.dmaDescTx.toNat + 4)
    (desc1 ||| ((((1 : UInt32) <<< 11) - 1) &&& UInt32.ofInt length))
  storeLong hw (g.dmaDescTx.toNat + 8) packet
  flushCache hw g.dmaDescTx 24
  flushCache hw packet (UInt64.ofInt length)
  let regVal ← readl hw gethTxCtl1
  writel hw (regVal ||| 0x00000001) gethTxCtl1
  writel hw (g.dmaDescTx.toBitVec.setWidth 32) gethTxDescList
  dmaTxEnable hw true

/-- What the stack does with a frame or between two calls, as far as it comes here. -/
inductive Op where
  | xmit (packet : UInt64) (length : Int)
  | store (a : Nat) (v : UInt8)

def Op.run (fuel : Nat) : Op → M Unit
  | xmit packet length => gethXmit hw g fuel packet length
  | store a v => storeByte hw a v

/-- A frame without its interrupt is not looked at: the code goes to `fill`. -/
def gethFrames : M (List Frame) := do
  let recvStat ← readl hw gethIntSta
  if recvStat &&& 0x2300#32 = 0#32 then do
    mark fun _ => .unseen
    pure []
  else
    dmaRxEnable hw false
    writel hw 0x3f00 gethIntSta
    gethTake hw g

/-- `stack` is `net_process_received_packet`. -/
def gethReceive (fuel : Nat) (stack : Frame → List Op) : M Unit := do
  invalidateDcacheRange hw g.rxPacket (g.rxPacket + 2048)
  copyPacket hw g
  let frames ← gethFrames hw g
  mark fun _ => .take (shown frames)
  frames.forM fun f => (stack f).forM fun op => op.run hw g fuel
  gethFill hw g
  mark fun _ => .fill

def gethRecv (fuel : Nat) (stack : Frame → List Op) : M Unit := do
  mark fun _ => .enter
  invalidateDcacheRange hw g.dmaDescRx (g.dmaDescRx + 64)
  let d ← loadWord hw g.dmaDescRx.toNat
  if (Desc0.mk d.toBitVec).own then mark fun _ => .miss
  else gethReceive hw g fuel stack

/-- The end of `geth_init`: the two descriptors, their size 24 bytes. -/
def gethInitDescs : M Unit := do
  upto (fun i => storeByte hw (g.dmaDescTx.toNat + i) 0) 24
  upto (fun i => storeByte hw (g.dmaDescRx.toNat + i) 0) 24
  storeLong hw (g.dmaDescTx.toNat + 16) g.dmaDescTx
  storeLong hw (g.dmaDescRx.toNat + 16) g.dmaDescRx
  flushCache hw g.dmaDescTx 64
  flushCache hw g.dmaDescRx 64
  writel hw (g.dmaDescTx.toBitVec.setWidth 32) gethTxDescList
  writel hw (g.dmaDescRx.toBitVec.setWidth 32) gethRxDescList

inductive Step where
  | recv (stack : Frame → List Op)
  | call (op : Op)
  | wait

def Step.run (fuel : Nat) : Step → M Unit
  | recv stack => gethRecv hw g fuel stack
  | call op => op.run hw g fuel
  | wait => access hw fun w => ((), w)

end

end EmacDriver.Dma
