import EmacDriver.Mdio

namespace EmacDriver

inductive Feature where
  | baseT10Half | baseT10Full | baseT100Half | baseT100Full | baseT1000Half | baseT1000Full
  | autoneg | tp | aui | mii | fibre | bnc | pause | asymPause | baseX1000Half | baseX1000Full
  deriving DecidableEq, Repr

/-- The constants of linux/ethtool.h: one bit for each feature, supported or
advertised alike, speeds in their order, and the two duplexes. -/
structure Ethtool where
  bit : Feature → Nat
  bit_lt : ∀ f, bit f < 32
  bit_inj : ∀ f g, bit f = bit g → f = g
  speed10 : Int
  speed100 : Int
  speed1000 : Int
  speed10_lt : speed10 < speed100
  speed100_lt : speed100 < speed1000
  duplexHalf : Int
  duplexFull : Int
  duplex_ne : duplexHalf ≠ duplexFull
  autonegEnable : Int

/-- The values of the Linux headers. -/
def linuxEthtool : Ethtool where
  bit
    | .baseT10Half => 0 | .baseT10Full => 1 | .baseT100Half => 2 | .baseT100Full => 3
    | .baseT1000Half => 4 | .baseT1000Full => 5 | .autoneg => 6 | .tp => 7 | .aui => 8
    | .mii => 9 | .fibre => 10 | .bnc => 11 | .pause => 13 | .asymPause => 14
    | .baseX1000Half => 21 | .baseX1000Full => 22
  bit_lt f := by cases f <;> decide
  bit_inj f g h := by cases f <;> cases g <;> first | rfl | cases h
  speed10 := 10
  speed100 := 100
  speed1000 := 1000
  speed10_lt := by decide
  speed100_lt := by decide
  duplexHalf := 0
  duplexFull := 1
  duplex_ne := by decide
  autonegEnable := 1

def Ethtool.mask (k : Ethtool) (f : Feature) : BitVec 32 := BitVec.twoPow 32 (k.bit f)

def Ethtool.genphyFeatures (k : Ethtool) : BitVec 32 :=
  k.mask .baseT10Half ||| k.mask .baseT10Full ||| k.mask .baseT100Half ||| k.mask .baseT100Full |||
    k.mask .autoneg ||| k.mask .tp ||| k.mask .mii ||| k.mask .baseT1000Half |||
    k.mask .baseT1000Full ||| k.mask .aui ||| k.mask .fibre ||| k.mask .bnc

/-- `struct phy_device`: what phy.c keeps of a PHY. `drv` is the place of its driver
on `phy_drivers`, or none for `genphy_driver`. -/
structure PhyDevice where
  bus : Nat
  drv : Option Nat
  speed : Int
  duplex : Int
  link : Int
  interface : Int
  advertising : BitVec 32
  supported : BitVec 32
  mmds : BitVec 32
  autoneg : Int
  addr : Int
  pause : Int
  asymPause : Int
  phyId : BitVec 32
  deriving DecidableEq, Repr

section
variable {σ : Type} (k : Ethtool) (devad : Int) (read : MdioRead σ) (write : MdioWrite σ)

/-- `phy_read`, `read` being that of `phydev->bus`. The `devad` below is `MDIO_DEVAD_NONE`, of
linux/mdio.h. -/
def phyRead (phydev : PhyDevice) (devad regnum : Int) (s : σ) : BitVec 32 × σ :=
  read phydev.addr devad regnum s

/-- The value is cut to a `u16`. -/
def phyWrite (phydev : PhyDevice) (devad regnum : Int) (val : BitVec 32) (s : σ) : BitVec 32 × σ :=
  write phydev.addr devad regnum (val.setWidth 16) s

def Ethtool.pick (features : BitVec 32) (f : Feature) (mask : BitVec 32) : BitVec 32 :=
  if features &&& k.mask f ≠ 0 then mask else 0

def advertisement (advertise adv : BitVec 32) : BitVec 32 :=
  (adv &&& ~~~0x0fe0) ||| k.pick advertise .baseT10Half 0x0020 |||
    k.pick advertise .baseT10Full 0x0040 ||| k.pick advertise .baseT100Half 0x0080 |||
    k.pick advertise .baseT100Full 0x0100 ||| k.pick advertise .pause 0x0400 |||
    k.pick advertise .asymPause 0x0800 ||| k.pick advertise .baseX1000Half 0x0040 |||
    k.pick advertise .baseX1000Full 0x0020

def gigabitAdvertisement (supported advertise adv : BitVec 32) : BitVec 32 :=
  (adv &&& ~~~0x0300) |||
    if supported &&& (k.mask .baseT1000Half ||| k.mask .baseT1000Full) ≠ 0 then
      k.pick advertise .baseT1000Half 0x0100 ||| k.pick advertise .baseT1000Full 0x0200
    else 0

def genphyConfigGigabit (phydev : PhyDevice) (changed : BitVec 32) (s : σ) : BitVec 32 × σ :=
  let (oldadv, s) := phyRead read phydev devad 0x09 s
  if oldadv.slt 0 then (oldadv, s)
  else
    let adv := gigabitAdvertisement k phydev.supported phydev.advertising oldadv
    let changed := if adv ≠ oldadv then 1 else changed
    let (err, s) := phyWrite write phydev devad 0x09 adv s
    if err.slt 0 then (err, s) else (changed, s)

def genphyConfigAdvert (phydev : PhyDevice) (s : σ) : (BitVec 32 × PhyDevice) × σ :=
  let phydev := { phydev with advertising := phydev.advertising &&& phydev.supported }
  let (oldadv, s) := phyRead read phydev devad 0x04 s
  if oldadv.slt 0 then ((oldadv, phydev), s)
  else
    let adv := advertisement k phydev.advertising oldadv
    let (err, s) := if adv ≠ oldadv then phyWrite write phydev devad 0x04 adv s else (0, s)
    if err.slt 0 then ((err, phydev), s)
    else
      let changed := if adv ≠ oldadv then 1 else 0
      let (bmsr, s) := phyRead read phydev devad 0x01 s
      if bmsr.slt 0 then ((bmsr, phydev), s)
      else if bmsr &&& 0x0100 = 0 then ((changed, phydev), s)
      else
        let (result, s) := genphyConfigGigabit k devad read write phydev changed s
        ((result, phydev), s)

def genphySetupForced (phydev : PhyDevice) (s : σ) : (BitVec 32 × PhyDevice) × σ :=
  let phydev := { phydev with pause := 0, asymPause := 0 }
  let speed := if phydev.speed = k.speed1000 then 0x0040
    else if phydev.speed = k.speed100 then 0x2000 else 0
  let duplex := if phydev.duplex = k.duplexFull then 0x0100 else 0
  let (err, s) := phyWrite write phydev devad 0x00 (0x0200 ||| speed ||| duplex) s
  ((err, phydev), s)

def genphyRestartAneg (phydev : PhyDevice) (s : σ) : BitVec 32 × σ :=
  let (ctl, s) := phyRead read phydev devad 0x00 s
  if ctl.slt 0 then (ctl, s)
  else phyWrite write phydev devad 0x00 ((ctl ||| 0x1200) &&& ~~~0x0400) s

def genphyConfigAneg (phydev : PhyDevice) (s : σ) : (BitVec 32 × PhyDevice) × σ :=
  if phydev.autoneg ≠ k.autonegEnable then genphySetupForced k devad write phydev s
  else
    let ((result, phydev), s) := genphyConfigAdvert k devad read write phydev s
    if result.slt 0 then ((result, phydev), s)
    else if result = 0 then
      let (ctl, s) := phyRead read phydev devad 0x00 s
      if ctl.slt 0 then ((ctl, phydev), s)
      else if ctl &&& 0x1000 = 0 ∨ ctl &&& 0x0400 ≠ 0 then
        let (result, s) := genphyRestartAneg devad read write phydev s
        ((result, phydev), s)
      else ((result, phydev), s)
    else
      let (result, s) := genphyRestartAneg devad read write phydev s
      ((result, phydev), s)

def bmsrFeatures (val : BitVec 32) : BitVec 32 :=
  k.mask .tp ||| k.mask .mii ||| k.mask .aui ||| k.mask .fibre ||| k.mask .bnc |||
    (if val &&& 0x0008 ≠ 0 then k.mask .autoneg else 0) |||
    (if val &&& 0x4000 ≠ 0 then k.mask .baseT100Full else 0) |||
    (if val &&& 0x2000 ≠ 0 then k.mask .baseT100Half else 0) |||
    (if val &&& 0x1000 ≠ 0 then k.mask .baseT10Full else 0) |||
    (if val &&& 0x0800 ≠ 0 then k.mask .baseT10Half else 0)

def estatusFeatures (val : BitVec 32) : BitVec 32 :=
  (if val &&& 0x2000 ≠ 0 then k.mask .baseT1000Full else 0) |||
    (if val &&& 0x1000 ≠ 0 then k.mask .baseT1000Half else 0) |||
    (if val &&& 0x8000 ≠ 0 then BitVec.twoPow 32 22 else 0) |||
    (if val &&& 0x4000 ≠ 0 then BitVec.twoPow 32 21 else 0)

def genphyConfigFeatures (phydev : PhyDevice) (features : BitVec 32) (s : σ) :
    (BitVec 32 × PhyDevice) × σ :=
  let phydev := { phydev with
    supported := phydev.supported &&& features
    advertising := phydev.advertising &&& features }
  let ((_, phydev), s) := genphyConfigAneg k devad read write phydev s
  ((0, phydev), s)

def genphyConfig (phydev : PhyDevice) (s : σ) : (BitVec 32 × PhyDevice) × σ :=
  let (val, s) := phyRead read phydev devad 0x01 s
  if val.slt 0 then ((val, phydev), s)
  else if val &&& 0x0100 ≠ 0 then
    let (estatus, s) := phyRead read phydev devad 0x0f s
    if estatus.slt 0 then ((estatus, phydev), s)
    else
      genphyConfigFeatures k devad read write phydev
        (bmsrFeatures k val ||| estatusFeatures k estatus) s
  else genphyConfigFeatures k devad read write phydev (bmsrFeatures k val) s

/-- The polling loop, with `n` rounds left before the timeout of
`PHY_ANEG_TIMEOUT`; `ctrlc()` is 0. -/
def genphyWaitAneg (phydev : PhyDevice) : Nat → BitVec 32 → σ → (Int × PhyDevice) × σ
  | n, miiReg, s =>
    if miiReg &&& 0x0020 ≠ 0 then ((0, { phydev with link := 1 }), s)
    else
      match n with
      | 0 => ((-110, { phydev with link := 0 }), s)
      | n + 1 =>
        let (miiReg, s) := phyRead read phydev devad 0x01 s
        genphyWaitAneg phydev n miiReg s

def genphyUpdateLink (phydev : PhyDevice) (s : σ) : (Int × PhyDevice) × σ :=
  let (miiReg, s) := phyRead read phydev devad 0x01 s
  if phydev.link ≠ 0 ∧ miiReg &&& 0x0004 ≠ 0 then ((0, phydev), s)
  else if phydev.autoneg = k.autonegEnable ∧ miiReg &&& 0x0020 = 0 then
    genphyWaitAneg devad read phydev 4001 miiReg s
  else
    let (miiReg, s) := phyRead read phydev devad 0x01 s
    ((0, { phydev with link := if miiReg &&& 0x0004 ≠ 0 then 1 else 0 }), s)

def gigabitAbilities (phydev : PhyDevice) (s : σ) : BitVec 32 × σ :=
  if phydev.supported &&& (k.mask .baseT1000Full ||| k.mask .baseT1000Half) ≠ 0 then
    let (gblpa, s) := phyRead read phydev devad 0x0a s
    let gblpa := if gblpa.slt 0 then 0 else gblpa
    let (ctrl, s) := phyRead read phydev devad 0x09 s
    (gblpa &&& (ctrl <<< 2), s)
  else (0, s)

def slowMode (lpa estatus : BitVec 32) : Int × Int :=
  let (speed, duplex) :=
    if lpa &&& 0x0180 ≠ 0 then
      (k.speed100, if lpa &&& 0x0100 ≠ 0 then k.duplexFull else k.duplexHalf)
    else (k.speed10, if lpa &&& 0x0040 ≠ 0 then k.duplexFull else k.duplexHalf)
  if estatus &&& 0xf000 ≠ 0 then
    (k.speed1000, if estatus &&& 0xa000 ≠ 0 then k.duplexFull else duplex)
  else (speed, duplex)

def genphyParseAneg (phydev : PhyDevice) (miiReg : BitVec 32) (s : σ) :
    (Int × PhyDevice) × σ :=
  let (gblpa, s) := gigabitAbilities k devad read phydev s
  if gblpa &&& 0x0c00 ≠ 0 then
    ((0, { phydev with
      speed := k.speed1000
      duplex := if gblpa &&& 0x0800 ≠ 0 then k.duplexFull else k.duplexHalf }), s)
  else
    let (adv, s) := phyRead read phydev devad 0x04 s
    let (lpa, s) := phyRead read phydev devad 0x05 s
    let (estatus, s) :=
      if miiReg &&& 0x0100 ≠ 0 ∧ miiReg &&& 0x0001 = 0 then phyRead read phydev devad 0x0f s
      else (0, s)
    let mode := slowMode k (adv &&& lpa) estatus
    ((0, { phydev with speed := mode.1, duplex := mode.2 }), s)

def genphyParseLink (phydev : PhyDevice) (s : σ) : (Int × PhyDevice) × σ :=
  let (miiReg, s) := phyRead read phydev devad 0x01 s
  if phydev.autoneg = k.autonegEnable then genphyParseAneg k devad read phydev miiReg s
  else
    let (bmcr, s) := phyRead read phydev devad 0x00 s
    ((0, { phydev with
      speed := if bmcr &&& 0x0040 ≠ 0 then k.speed1000
        else if bmcr &&& 0x2000 ≠ 0 then k.speed100 else k.speed10
      duplex := if bmcr &&& 0x0100 ≠ 0 then k.duplexFull else k.duplexHalf }), s)

end

end EmacDriver
