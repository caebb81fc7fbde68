import EmacDriver.Mdio

namespace EmacDriver

variable {σ : Type}

/-- Where nothing is stored into `*value` the result is not 0. `devad` is
`MDIO_DEVAD_NONE`, from linux/mdio.h. -/
def miiphyRead (devad : Int) (m : Mii σ) (devname : CStr) (addr reg : UInt8) (s : σ) :
    Option (Option (BitVec 16) × Mii σ × σ) := do
  let (bus, m) ← miiphyGetActiveDev m devname
  match bus with
  | none => some (none, m, s)
  | some p =>
    let read ← (m.mem p).read
    let (ret, s) := read addr.toNat devad reg.toNat s
    some (if ret.slt 0 then none else some (ret.setWidth 16), m, s)

def miiphyWrite (devad : Int) (m : Mii σ) (devname : CStr) (addr reg : UInt8)
    (value : BitVec 16) (s : σ) : Option (BitVec 32 × Mii σ × σ) := do
  let (bus, m) ← miiphyGetActiveDev m devname
  match bus with
  | some p =>
    let write ← (m.mem p).write
    let (ret, s) := write addr.toNat devad reg.toNat value s
    some (ret, m, s)
  | none => some (1, m, s)

/-- `miiphy_speed` and `miiphy_duplex`: what comes of a failed read, of `bmcr` with
auto-negotiation off, and of the common abilities with it on. -/
def miiphyControl (failed : Int) (forced common : BitVec 16 → Int) (devad : Int) (m : Mii σ)
    (devname : CStr) (addr : UInt8) (s : σ) : Option (Int × Mii σ × σ) := do
  let (bmcr, m, s) ← miiphyRead devad m devname addr 0x00 s
  match bmcr with
  | none => some (failed, m, s)
  | some bmcr =>
    if bmcr &&& 0x1000 ≠ 0 then do
      let (anlpar, m, s) ← miiphyRead devad m devname addr 0x05 s
      match anlpar with
      | none => some (failed, m, s)
      | some anlpar => do
        let (adv, m, s) ← miiphyRead devad m devname addr 0x04 s
        match adv with
        | none => some (failed, m, s)
        | some adv => some (common (anlpar &&& adv), m, s)
    else some (forced bmcr, m, s)

def miiphySpeed (devad : Int) (m : Mii σ) (devname : CStr) (addr : UInt8) (s : σ) :
    Option (Int × Mii σ × σ) :=
  miiphyControl 10 (fun bmcr => if bmcr &&& 0x2000 ≠ 0 then 100 else 10)
    (fun common => if common &&& 0x0380 ≠ 0 then 100 else 10) devad m devname addr s

def miiphyDuplex (devad : Int) (m : Mii σ) (devname : CStr) (addr : UInt8) (s : σ) :
    Option (Int × Mii σ × σ) :=
  miiphyControl 22 (fun bmcr => if bmcr &&& 0x0100 ≠ 0 then 44 else 22)
    (fun common => if common &&& 0x0140 ≠ 0 then 44 else 22) devad m devname addr s

def miiNwayResult (negotiated : BitVec 32) : BitVec 32 :=
  if negotiated &&& 0x0100 ≠ 0 then 0x0100
  else if negotiated &&& 0x0200 ≠ 0 then 0x0200
  else if negotiated &&& 0x0080 ≠ 0 then 0x0080
  else if negotiated &&& 0x0040 ≠ 0 then 0x0040
  else 0x0020

def nwayMode (mode : BitVec 32) : Int × Int :=
  (if mode &&& 0x0380 ≠ 0 then 100 else 10, if mode &&& 0x0140 ≠ 0 then 44 else 22)

end EmacDriver
