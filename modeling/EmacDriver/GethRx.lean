import EmacDriver.Receive

namespace EmacDriver
open Bytes

structure Desc0 where
  all : BitVec 32
  deriving DecidableEq

namespace Desc0

def chsumErr (d : Desc0) : Bool := d.all.getLsbD 0
def miiErr (d : Desc0) : Bool := d.all.getLsbD 3
def frmType (d : Desc0) : Bool := d.all.getLsbD 5
def ipchErr (d : Desc0) : Bool := d.all.getLsbD 7
def lastDesc (d : Desc0) : Bool := d.all.getLsbD 8
def firstDesc (d : Desc0) : Bool := d.all.getLsbD 9
def lenErr (d : Desc0) : Bool := d.all.getLsbD 12
def errSum (d : Desc0) : Bool := d.all.getLsbD 15
def frmLen (d : Desc0) : BitVec 14 := d.all.extractLsb' 16 14
def own (d : Desc0) : Bool := d.all.getLsbD 31

end Desc0

structure DmaDesc where
  desc0 : Desc0
  desc1 : BitVec 32
  desc2 : UInt64

inductive RxFrameStatus where
  | goodFrame | discardFrame | csumNone | llcSnap
  deriving DecidableEq, Repr

def rxStatus (p : DmaDesc) : RxFrameStatus :=
  let ret := .goodFrame
  let ret := if p.desc0.lastDesc = false then .discardFrame else ret
  let ret :=
    if p.desc0.frmType ∧ (p.desc0.chsumErr ∨ p.desc0.ipchErr) then .discardFrame else ret
  let ret := if p.desc0.errSum then .discardFrame else ret
  let ret := if p.desc0.lenErr then .discardFrame else ret
  if p.desc0.miiErr then .discardFrame else ret

/-- The driver's receive side, with the register accesses made so far: the
number of reads, and the writes. -/
structure Geth where
  dmaDescRx : UInt64
  rxDesc : DmaDesc
  rxPacketAddr : UInt64
  rxPacket : Buf
  rxHandleBuf : Buf
  reads : Nat
  writes : List (Nat × BitVec 32)

def gethIntSta : Nat := 0x08
def gethRxCtl1 : Nat := 0x28
def gethRxDescList : Nat := 0x34

/-- `regs n r` is what the `n`th read finds in register `r`. -/
abbrev Regs := Nat → Nat → BitVec 32

def readl (regs : Regs) (g : Geth) (reg : Nat) : BitVec 32 × Geth :=
  (regs g.reads reg, { g with reads := g.reads + 1 })

def writel (g : Geth) (val : BitVec 32) (reg : Nat) : Geth :=
  { g with writes := g.writes ++ [(reg, val)] }

def dmaRxEnable (regs : Regs) (g : Geth) (en : Bool) : Geth :=
  let (regVal, g) := readl regs g gethRxCtl1
  writel g (if en then regVal ||| 0x40000000 else regVal &&& ~~~0x40000000) gethRxCtl1

def gethFill (regs : Regs) (g : Geth) : Geth :=
  let g := { g with rxDesc :=
    { desc0 := ⟨0x80000000⟩, desc1 := 0x81000000 ||| ((1 <<< 11) - 1), desc2 := g.rxPacketAddr } }
  dmaRxEnable regs (writel g (g.dmaDescRx.toBitVec.setWidth 32) gethRxDescList) true

/-- The frame passed to `net_process_received_packet`, if there is one. The
stack may rewrite `rx_handle_buf`, which the next frame overwrites. -/
def gethTake (g : Geth) : List Frame × Geth :=
  if rxStatus g.rxDesc ≠ .discardFrame then
    let len :=
      if rxStatus g.rxDesc ≠ .llcSnap then gethRecvLen g.rxDesc.desc0.frmLen
      else g.rxDesc.desc0.frmLen.toNat
    ([⟨g.rxHandleBuf, len⟩], g)
  else ([], { g with rxPacket := patch g.rxPacket 0 64 (fun _ => 0) })

/-- With `RESET_DMA_EN`. Returns 0 always; what it passes on is the result here. -/
def gethRecv (regs : Regs) (g : Geth) : List Frame × Geth :=
  if g.rxDesc.desc0.own then ([], g)
  else
    let g := { g with rxHandleBuf := copy g.rxHandleBuf 0 g.rxPacket 0 2048 }
    let (recvStat, g) := readl regs g gethIntSta
    if recvStat &&& 0x2300#32 = 0#32 then ([], gethFill regs g)
    else
      let (frames, g) := gethTake (writel (dmaRxEnable regs g false) 0x3f00 gethIntSta)
      (frames, gethFill regs g)

end EmacDriver
