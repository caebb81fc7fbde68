import EmacDriver.MiiPhy
import EmacDriver.Ethernet
import EmacDriver.Lib.Simulation

namespace EmacDriver
open Simulation

/-- The registers at `dev->iobase`: what a read at an offset finds and does, and what a
write does. -/
structure GethRegs (τ : Type) where
  load : Nat → τ → BitVec 32 × τ
  store : BitVec 32 → Nat → τ → τ

def gethMdioAddr : Nat := 0x48
def gethMdioData : Nat := 0x4c
def miiBusy : BitVec 32 := 0x00000001
def miiWrite : BitVec 32 := 0x00000002

variable {τ : Type}

namespace GethRegs

def readl (hw : GethRegs τ) (reg : Nat) : StateT τ Option (BitVec 32) :=
  fun s => some (hw.load reg s)

def writel (hw : GethRegs τ) (val : BitVec 32) (reg : Nat) : StateT τ Option Unit :=
  fun s => some ((), hw.store val reg s)

end GethRegs

section
variable (hw : GethRegs τ) (fuel : Nat)

def mdioWait : StateT τ Option Unit :=
  waitWhile (do
    let val ← hw.readl gethMdioAddr
    return val &&& miiBusy ≠ 0) fuel

def gethPhyRead (phyAdr : BitVec 32) (reg : BitVec 16) : StateT τ Option (BitVec 16) := do
  let regVal := (0x06 <<< 20) ||| (((phyAdr <<< 12) &&& 0x0001f000) |||
    ((reg.setWidth 32 <<< 4) &&& 0x000007f0) ||| miiBusy)
  hw.writel regVal gethMdioAddr
  mdioWait hw fuel
  let val ← hw.readl gethMdioData
  return val.setWidth 16

def gethPhyWrite (phyAdr reg : BitVec 8) (data : BitVec 16) : StateT τ Option Unit := do
  let regVal := (0x06 <<< 20) ||| (((phyAdr.setWidth 32 <<< 12) &&& 0x0001f000) |||
    ((reg.setWidth 32 <<< 4) &&& 0x000007f0) ||| miiWrite ||| miiBusy)
  hw.writel (data.setWidth 32) gethMdioData
  hw.writel regVal gethMdioAddr
  mdioWait hw fuel

end

section
variable (s : Host) (macs : Nat → GethRegs τ) (fuel : Nat)

/-- `dev` is not checked for NULL. -/
def gethMiiphyRead (devname : CStr) (phyAdr reg : UInt8) : StateT τ Option (BitVec 16) :=
  match ethGetDevByName s devname with
  | some (some dev) =>
    gethPhyRead (macs dev) fuel (phyAdr.toBitVec.setWidth 32) (reg.toBitVec.setWidth 16)
  | _ => failure

def gethMiiphyWrite (devname : CStr) (phyAdr reg : UInt8) (data : BitVec 16) :
    StateT τ Option Unit :=
  match ethGetDevByName s devname with
  | some (some dev) => gethPhyWrite (macs dev) fuel phyAdr.toBitVec reg.toBitVec data
  | _ => failure

/-- A call from `none`, which is where one that did not return has left things. -/
def orHang {α : Type} (c : StateT τ Option α) (d : α) : Option τ → α × Option τ
  | none => (d, none)
  | some t =>
    match c.run t with
    | some (v, t) => (v, some t)
    | none => (d, none)

/-- What `geth_initialize` passes to `miiphy_register`. -/
def gethLdev : LegacyMiiDev (Option τ) where
  read name addr reg t :=
    let (value, t) := orHang (gethMiiphyRead s macs fuel name addr reg) 0 t
    ((0, value), t)
  write name addr reg val t :=
    let (_, t) := orHang (gethMiiphyWrite s macs fuel name addr reg val) () t
    (0, t)

end

inductive MiiCall where
  | read (addr reg : UInt8)
  | write (addr reg : UInt8) (value : BitVec 16)
  | setCurrentDev (devname : Option CStr)
  deriving DecidableEq

inductive MiiReply where
  | value (v : Option (BitVec 16))
  | status (ret : BitVec 32)
  | current (ret : Int)
  deriving DecidableEq, Repr

variable {σ : Type} (devad : Int) (devname : CStr)

def MiiCall.run : MiiCall → StateT (Mii σ × σ) Option MiiReply
  | read addr reg => fun (m, s) =>
    (miiphyRead devad m devname addr reg s).map fun r => (.value r.1, r.2)
  | write addr reg value => fun (m, s) =>
    (miiphyWrite devad m devname addr reg value s).map fun r => (.status r.1, r.2)
  | setCurrentDev name => fun (m, s) =>
    (miiphySetCurrentDev m name).map fun r => (.current r.1, r.2, s)

def miiCalls (calls : List MiiCall) : StateT (Mii σ × σ) Option (List MiiReply) :=
  calls.mapM fun call => call.run devad devname

end EmacDriver
