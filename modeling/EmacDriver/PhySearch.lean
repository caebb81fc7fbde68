import EmacDriver.Phy
import EmacDriver.Vsnprintf

namespace EmacDriver

/-- `if (!(x & mask)) { x >>= n; r += n; }`, the shift being that of an `int`. -/
def ffsStep (mask : BitVec 32) (n : Nat) (p : BitVec 32 × Nat) : BitVec 32 × Nat :=
  if p.1 &&& mask = 0 then (p.1.sshiftRight n, p.2 + n) else p

def genericFfs (x : BitVec 32) : Nat :=
  if x = 0 then 0
  else (ffsStep 1 1 (ffsStep 3 2 (ffsStep 0xf 4 (ffsStep 0xff 8 (ffsStep 0xffff 16 (x, 1)))))).2

/-- `while (phy_mask)`, with `body` on the address of the lowest bit, which may
`return`. -/
def maskLoop {τ : Type} (body : Nat → τ → Option (Option Nat) × τ) :
    Nat → BitVec 32 → τ → Option (Option Nat × τ)
  | 0, _, _ => none
  | n + 1, phyMask, s =>
    if phyMask = 0 then some (none, s)
    else
      let addr := genericFfs phyMask - 1
      match body addr s with
      | (some r, s) => some (r, s)
      | (none, s) => maskLoop body n (phyMask &&& ~~~((1 : BitVec 32) <<< addr)) s

/-- `struct phy_driver`, without the functions called once the device is there.
`probe` may use the bus; it does not move the device. -/
structure PhyDriver (σ : Type) where
  uid : BitVec 32
  mask : BitVec 32
  mmds : BitVec 32
  features : BitVec 32
  probe : Option (PhyDevice → σ → PhyDevice × σ)
  probe_addr : ∀ f ∈ probe, ∀ dev s, (f dev s).1.addr = dev.addr
  probe_bus : ∀ f ∈ probe, ∀ dev s, (f dev s).1.bus = dev.bus

/-- A bus: its `phymap`, the memory with the devices, and what is behind its
`read`. -/
structure PhyBus (σ : Type) where
  phymap : Nat → Option Nat
  devs : Nat → PhyDevice
  hw : σ

section
variable {σ : Type} (k : Ethtool) (drivers : List (PhyDriver σ)) (devadNone : Int)
  (read : MdioRead σ) (bus : Nat)

def getPhyDriver (phyId : BitVec 32) : Option Nat :=
  drivers.findIdx? fun drv => drv.uid &&& drv.mask = phyId &&& drv.mask

def phyProbe (phydev : PhyDevice) (s : σ) : PhyDevice × σ :=
  match phydev.drv.bind (drivers[·]?) with
  | some drv =>
    let phydev := { phydev with
      advertising := drv.features, supported := drv.features, mmds := drv.mmds }
    match drv.probe with
    | some probe => probe phydev s
    | none => (phydev, s)
  | none =>
    ({ phydev with
      advertising := k.genphyFeatures, supported := k.genphyFeatures, mmds := 0 }, s)

def phySetSupported (phydev : PhyDevice) (maxSpeed : Int) : Int × PhyDevice :=
  let supported := phydev.supported &&&
    (k.mask .autoneg ||| k.mask .tp ||| k.mask .mii)
  let bt10 := k.mask .baseT10Half ||| k.mask .baseT10Full
  let bt100 := k.mask .baseT100Half ||| k.mask .baseT100Full ||| bt10
  let bt1000 := k.mask .baseT1000Half ||| k.mask .baseT1000Full ||| bt100
  if maxSpeed = k.speed1000 then (0, { phydev with supported := supported ||| bt1000 })
  else if maxSpeed = k.speed100 then (0, { phydev with supported := supported ||| bt100 })
  else if maxSpeed = k.speed10 then (0, { phydev with supported := supported ||| bt10 })
  else (-524, { phydev with supported := supported })

def newDevice (addr : Nat) (phyId : BitVec 32) (interface : Int) (s : σ) : PhyDevice × σ :=
  phyProbe k drivers {
    bus := bus, drv := getPhyDriver drivers phyId, speed := 0, duplex := -1, link := 0
    interface := interface, advertising := 0, supported := 0, mmds := 0
    autoneg := k.autonegEnable, addr := addr, pause := 0, asymPause := 0, phyId := phyId } s

/-- `newDev` is what `malloc` returned. -/
def phyDeviceCreate (newDev : Option Nat) (addr : Nat) (phyId : BitVec 32) (interface : Int)
    (b : PhyBus σ) : Option Nat × PhyBus σ :=
  match newDev with
  | none => (none, b)
  | some p =>
    let (dev, hw) := newDevice k drivers bus addr phyId interface b.hw
    (some p, {
      phymap := Function.update b.phymap addr (some p)
      devs := Function.update b.devs p dev, hw := hw })

/-- The result, and `*phy_id`, which was `phyId`. -/
def getPhyId (addr : Nat) (devad : Int) (phyId : BitVec 32) (s : σ) : (Int × BitVec 32) × σ :=
  let (phyReg, s) := read addr devad 0x02 s
  if phyReg.slt 0 then ((-5, phyId), s)
  else
    let phyId := (phyReg &&& 0xffff) <<< 16
    let (phyReg, s) := read addr devad 0x03 s
    if phyReg.slt 0 then ((-5, phyId), s) else ((0, phyId ||| (phyReg &&& 0xffff)), s)

def createRound (newDev : Option Nat) (devad : Int) (interface : Int) (addr : Nat)
    (t : BitVec 32 × PhyBus σ) : Option (Option Nat) × (BitVec 32 × PhyBus σ) :=
  let ((r, phyId), hw) := getPhyId read addr devad t.1 t.2.hw
  let b := { t.2 with hw := hw }
  -- mostly ones: nothing is there
  if r = 0 ∧ phyId &&& 0x1fffffff ≠ 0x1fffffff then
    let (dev, b) := phyDeviceCreate k drivers bus newDev addr phyId interface b
    (some dev, (phyId, b))
  else (none, (phyId, b))

def createPhyByMask (fuel : Nat) (newDev : Option Nat) (phyMask : BitVec 32) (devad : Int)
    (interface : Int) (b : PhyBus σ) : Option (Option Nat × PhyBus σ) := do
  let (dev, t) ← maskLoop (createRound k drivers read bus newDev devad interface) fuel phyMask
    (0xffffffff, b)
  some (dev, t.2)

def searchRound (interface : Int) (addr : Nat) (b : PhyBus σ) :
    Option (Option Nat) × PhyBus σ :=
  match b.phymap addr with
  | some p =>
    (some (some p),
      { b with devs := Function.update b.devs p { b.devs p with interface := interface } })
  | none => (none, b)

def searchForExistingPhy (fuel : Nat) (phyMask : BitVec 32) (interface : Int) (b : PhyBus σ) :
    Option (Option Nat × PhyBus σ) :=
  maskLoop (searchRound interface) fuel phyMask b

/-- A call of `get_phy_device_by_mask`. `newDev devad` is what `malloc` returns when a
PHY answers at `devad`. -/
structure PhyCall where
  phyMask : BitVec 32
  interface : Int
  newDev : Int → Option Nat

def tryDevads (fuel : Nat) (c : PhyCall) :
    List Int → PhyBus σ → Option (Option Nat × PhyBus σ)
  | [], b =>
    -- every address of the mask goes to `debug`
    maskLoop (fun _ b => (none, b)) fuel c.phyMask b
  | devad :: rest, b => do
    let (phydev, b) ← createPhyByMask k drivers read bus fuel (c.newDev devad) c.phyMask devad
      c.interface b
    match phydev with
    | some p => if isErr p then some (none, b) else some (some p, b)
    | none => tryDevads fuel c rest b

def getPhyDeviceByMask (fuel : Nat) (c : PhyCall) (b : PhyBus σ) :
    Option (Option Nat × PhyBus σ) := do
  let (phydev, b) ← searchForExistingPhy fuel c.phyMask c.interface b
  match phydev with
  | some p => some (some p, b)
  | none => tryDevads k drivers read bus fuel c [devadNone, 1, 2, 3, 4] b

end

end EmacDriver
