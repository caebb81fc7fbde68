import Mathlib.Logic.Function.Basic
import EmacDriver.Environment

namespace EmacDriver

/-- `bus->read` on `addr`, `devad` and `reg`; an `int`. What is behind it, the registers of the
PHYs among it, is a state `σ`. -/
abbrev MdioRead (σ : Type) := Int → Int → Int → σ → BitVec 32 × σ

abbrev MdioWrite (σ : Type) := Int → Int → Int → BitVec 16 → σ → BitVec 32 × σ

/-- `struct legacy_mii_dev`; what is read goes out beside the result. -/
structure LegacyMiiDev (σ : Type) where
  read : CStr → UInt8 → UInt8 → σ → (BitVec 32 × BitVec 16) × σ
  write : CStr → UInt8 → UInt8 → BitVec 16 → σ → BitVec 32 × σ

/-- `struct mii_dev`, without its link; `priv` is in the functions it is for. -/
structure MiiDev (σ : Type) where
  name : List UInt8
  read : Option (MdioRead σ)
  write : Option (MdioWrite σ)

/-- A pointer to a `struct list_head`: NULL, `&mii_devs`, or the `link` of a bus. -/
inductive Link where
  | null
  | miiDevs
  | bus (p : Nat)
  deriving DecidableEq, Repr

structure Links where
  next : Link → Link
  prev : Link → Link

namespace Links
open Function

def initListHead (m : Links) (list : Link) : Links where
  next := update m.next list list
  prev := update m.prev list list

/-- `__list_add`. -/
def listAddBetween (m : Links) (newitem prev next : Link) : Links where
  next := update (update m.next newitem next) prev newitem
  prev := update (update m.prev next newitem) newitem prev

def listAddTail (m : Links) (newitem head : Link) : Links :=
  m.listAddBetween newitem (m.prev head) head

/-- `__list_del`. -/
def listDelBetween (m : Links) (prev next : Link) : Links where
  next := update m.next prev next
  prev := update m.prev next prev

def listDel (m : Links) (entry : Link) : Links :=
  let m := m.listDelBetween (m.prev entry) (m.next entry)
  { next := update m.next entry .null, prev := update m.prev entry .null }

end Links

/-- The memory with the buses in it, `mii_devs` and `current_mii`. `steps` is one
more than the buses ever linked, which no walk of the list can exceed. -/
structure Mii (σ : Type) where
  mem : Nat → MiiDev σ
  links : Links
  currentMii : Option Nat
  steps : Nat

variable {σ : Type}

def Mii.name (m : Mii σ) (bus : Nat) : CStr := (m.mem bus).name.takeWhile (· ≠ 0)

/-- `list_for_each`, from `entry` on. -/
def findByName (m : Mii σ) (devname : CStr) : Nat → Link → Option (Option Nat)
  | 0, _ => none
  | _ + 1, .null => none
  | _ + 1, .miiDevs => some none
  | n + 1, .bus p =>
    if strcmp (m.name p) devname = 0 then some (some p)
    else findByName m devname n (m.links.next (.bus p))

def miiphyGetDevByName (m : Mii σ) (devname : Option CStr) : Option (Option Nat) :=
  match devname with
  | none => some none
  | some devname => findByName m devname m.steps (m.links.next .miiDevs)

def miiphyInit (m : Mii σ) : Mii σ :=
  { m with links := m.links.initListHead .miiDevs, currentMii := none, steps := 1 }

def legacyMiiphyRead (ldev : LegacyMiiDev σ) (name : CStr) : MdioRead σ :=
  fun addr _ reg s =>
    let r := ldev.read name (UInt8.ofInt addr) (UInt8.ofInt reg) s
    (if r.1.1 ≠ 0 then -1 else r.1.2.setWidth 32, r.2)

def legacyMiiphyWrite (ldev : LegacyMiiDev σ) (name : CStr) : MdioWrite σ :=
  fun addr _ reg val s => ldev.write name (UInt8.ofInt addr) (UInt8.ofInt reg) val s

def setBus (m : Mii σ) (p : Nat) (dev : MiiDev σ) : Mii σ :=
  { m with mem := Function.update m.mem p dev }

/-- `mdio_alloc`, `bus` being what `malloc` returned. -/
def mdioAlloc (m : Mii σ) (bus : Option Nat) : Mii σ :=
  match bus with
  | none => m
  | some p =>
    let m := setBus m p ⟨List.replicate 32 0, none, none⟩
    { m with links := m.links.initListHead (.bus p) }

/-- What the array of `n` bytes holds after a copy of `src` into zeros. The source's `strncpy` does
not pad with NULs: `mdio_alloc` has cleared the array that it copies to. -/
def strncpy (src : CStr) (n : Nat) : List UInt8 :=
  src.take n ++ List.replicate (n - src.length) 0

def addBus (m : Mii σ) (p : Nat) : Mii σ :=
  { m with
    links := m.links.listAddTail (.bus p) .miiDevs
    currentMii := m.currentMii.or (some p)
    steps := m.steps + 1 }

def legacyBus (name : CStr) (ldev : LegacyMiiDev σ) : MiiDev σ :=
  let name := (strncpy name 32).set 31 0
  let str := name.takeWhile (· ≠ 0)
  ⟨name, some (legacyMiiphyRead ldev str), some (legacyMiiphyWrite ldev str)⟩

/-- `newDev` and `hasLdev` are what the two calls of `malloc` returned. -/
def miiphyRegister (m : Mii σ) (name : CStr) (ldev : LegacyMiiDev σ) (newDev : Option Nat)
    (hasLdev : Bool) : Option (Mii σ) := do
  let found ← miiphyGetDevByName m (some name)
  if found.isSome then some m
  else
    let m := mdioAlloc m newDev
    match newDev, hasLdev with
    | some p, true => some (addBus (setBus m p (legacyBus name ldev)) p)
    | _, _ => some m

def mdioRegister (m : Mii σ) (bus : Option Nat) : Option (Int × Mii σ) :=
  match bus with
  | none => some (-1, m)
  | some p =>
    if (m.mem p).read.isNone ∨ (m.mem p).write.isNone then some (-1, m)
    else do
      let found ← miiphyGetDevByName m (some (m.name p))
      if found.isSome then some (-1, m) else some (0, addBus m p)

def mdioUnregister (m : Mii σ) (bus : Option Nat) : Int × Mii σ :=
  match bus with
  | none => (0, m)
  | some p =>
    (0, { m with
      links := m.links.listDel (.bus p)
      currentMii := if m.currentMii = some p then none else m.currentMii })

def miiphySetCurrentDev (m : Mii σ) (devname : Option CStr) : Option (Int × Mii σ) := do
  let dev ← miiphyGetDevByName m devname
  match dev with
  | some p => some (0, { m with currentMii := some p })
  | none => some (1, m)

def miiphyGetActiveDev (m : Mii σ) (devname : CStr) : Option (Option Nat × Mii σ) :=
  match m.currentMii with
  | some p => if strcmp (m.name p) devname = 0 then some (some p, m) else setActive
  | none => setActive
where
  setActive := do
    let (ret, m) ← miiphySetCurrentDev m (some devname)
    some (if ret ≠ 0 then none else m.currentMii, m)

def busesFrom (m : Mii σ) : Nat → Link → List Nat
  | n + 1, .bus p => p :: busesFrom m n (m.links.next (.bus p))
  | _, _ => []

def Mii.buses (m : Mii σ) : List Nat := busesFrom m m.steps (m.links.next .miiDevs)

inductive MiiOp (σ : Type) where
  | miiphyRegister (name : CStr) (ldev : LegacyMiiDev σ) (newDev : Option Nat) (hasLdev : Bool)
  | setBus (p : Nat) (dev : MiiDev σ)                       -- by the owner of the bus
  | mdioRegister (bus : Option Nat)
  | mdioUnregister (bus : Option Nat)
  | miiphySetCurrentDev (devname : Option CStr)
  | miiphyGetActiveDev (devname : CStr)

/-- The registry, and the names `miiphy_register` accepted, with their buses, that
have not been unregistered. -/
structure MiiRun (σ : Type) where
  mii : Mii σ
  accepted : List (CStr × Nat)

namespace MiiOp

def added (m : Mii σ) : MiiOp σ → Option (CStr × Nat)
  | miiphyRegister name _ (some p) true =>
    if miiphyGetDevByName m (some name) = some none then some (name, p) else none
  | _ => none

def apply (m : Mii σ) : MiiOp σ → Option (Mii σ)
  | miiphyRegister name ldev newDev hasLdev =>
    EmacDriver.miiphyRegister m name ldev newDev hasLdev
  | setBus p dev => some (EmacDriver.setBus m p dev)
  | mdioRegister bus => (EmacDriver.mdioRegister m bus).map (·.2)
  | mdioUnregister bus => some (EmacDriver.mdioUnregister m bus).2
  | miiphySetCurrentDev devname => (EmacDriver.miiphySetCurrentDev m devname).map (·.2)
  | miiphyGetActiveDev devname => (EmacDriver.miiphyGetActiveDev m devname).map (·.2)

def dropped : MiiOp σ → Option Nat
  | mdioUnregister bus => bus
  | _ => none

def run (r : MiiRun σ) (op : MiiOp σ) : Option (MiiRun σ) :=
  (op.apply r.mii).map fun m =>
    ⟨m, (op.added r.mii).toList ++ r.accepted.filter (fun a => some a.2 ≠ op.dropped)⟩

/-- What malloc and the callers see to: memory is fresh, strings end within their
arrays, a bus is filled in by its owner while it is not registered, and
unregistered while it is. -/
def Promised (m : Mii σ) : MiiOp σ → Prop
  | miiphyRegister name _ newDev _ => 0 ∉ name ∧ ∀ p, newDev = some p → p ∉ m.buses
  | setBus p _ => p ∉ m.buses
  | mdioRegister bus => ∀ p, bus = some p → (m.name p).length < 32
  | mdioUnregister bus => ∀ p, bus = some p → p ∈ m.buses
  | miiphySetCurrentDev devname => ∀ s, devname = some s → 0 ∉ s
  | miiphyGetActiveDev devname => 0 ∉ devname

end MiiOp

def miiRun (r : MiiRun σ) (ops : List (MiiOp σ)) : Option (MiiRun σ) :=
  ops.foldlM (fun r op => op.run r) r

def Promised (r : MiiRun σ) : List (MiiOp σ) → Prop
  | [] => True
  | op :: ops => op.Promised r.mii ∧ ∀ r', op.run r = some r' → Promised r' ops

end EmacDriver
