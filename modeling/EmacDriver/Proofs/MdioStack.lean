import Mathlib.Tactic.IntervalCases
import EmacDriver.GethMdio
import EmacDriver.Lib.Bits
import EmacDriver.Proofs.MiiRuns
import EmacDriver.Proofs.ReceiveBounds

namespace EmacDriver
open Simulation

/-- The PHYs on the serial line: what an access to a register gives and does. -/
structure PhyLine (π : Type) where
  read : BitVec 5 → BitVec 7 → π → BitVec 16 × π
  write : BitVec 5 → BitVec 7 → BitVec 16 → π → π

def mdioPhyAddr (c : BitVec 32) : BitVec 5 := c.extractLsb' 12 5
def mdioPhyReg (c : BitVec 32) : BitVec 7 := c.extractLsb' 4 7

/-- The interface of the MAC to the line. `phys` is the line as the access under way leaves
it, and `left` the number of reads that still find it busy. -/
structure MdioController {τ π : Type} (hw : GethRegs τ) (line : PhyLine π) where
  phys : τ → π
  data : τ → BitVec 32
  left : τ → Nat
  bound : Nat
  write_data : ∀ v t, left t = 0 →
    left (hw.store v gethMdioData t) = 0 ∧ phys (hw.store v gethMdioData t) = phys t ∧
      data (hw.store v gethMdioData t) = v
  start_read : ∀ c t, left t = 0 → c.getLsbD 0 = true → c.getLsbD 1 = false →
    left (hw.store c gethMdioAddr t) ≤ bound ∧
      phys (hw.store c gethMdioAddr t) = (line.read (mdioPhyAddr c) (mdioPhyReg c) (phys t)).2 ∧
      (data (hw.store c gethMdioAddr t)).setWidth 16 =
        (line.read (mdioPhyAddr c) (mdioPhyReg c) (phys t)).1
  start_write : ∀ c t, left t = 0 → c.getLsbD 0 = true → c.getLsbD 1 = true →
    left (hw.store c gethMdioAddr t) ≤ bound ∧
      phys (hw.store c gethMdioAddr t) =
        line.write (mdioPhyAddr c) (mdioPhyReg c) ((data t).setWidth 16) (phys t)
  poll : ∀ t,
    (hw.load gethMdioAddr t).1.getLsbD 0 = decide (0 < left t) ∧
      left (hw.load gethMdioAddr t).2 = left t - 1 ∧
      phys (hw.load gethMdioAddr t).2 = phys t ∧ data (hw.load gethMdioAddr t).2 = data t
  read_data : ∀ t, left t = 0 →
    (hw.load gethMdioData t).1 = data t ∧ left (hw.load gethMdioData t).2 = 0 ∧
      phys (hw.load gethMdioData t).2 = phys t

variable {τ π : Type} {hw : GethRegs τ} {line : PhyLine π} (C : MdioController hw line) {fuel : Nat}

def LineIdle (t : τ) (p : π) : Prop := C.left t = 0 ∧ C.phys t = p

def PhyLine.readReg (line : PhyLine π) (addr : BitVec 5) (reg : BitVec 7) :
    StateT π Option (BitVec 16) := fun p => some (line.read addr reg p)

def PhyLine.writeReg (line : PhyLine π) (addr : BitVec 5) (reg : BitVec 7) (val : BitVec 16) :
    StateT π Option Unit := fun p => some ((), line.write addr reg val p)

theorem busy_bit (v : BitVec 32) : v &&& miiBusy ≠ 0 ↔ v.getLsbD 0 = true := by
  have hbit : miiBusy = BitVec.twoPow 32 0 := rfl
  rw [hbit]
  exact Bits.and_bit_ne v 0 (by decide)

/-- A command with the flags `low`. -/
theorem command_fields (a r low : BitVec 32) (hlow : low.toNat < 16) :
    let c := (0x06 <<< 20) ||| (((a <<< 12) &&& 0x0001f000) ||| ((r <<< 4) &&& 0x000007f0) ||| low)
    mdioPhyAddr c = a.setWidth 5 ∧ mdioPhyReg c = r.setWidth 7 ∧
      c.getLsbD 0 = low.getLsbD 0 ∧ c.getLsbD 1 = low.getLsbD 1 := by
  have hoff : ∀ i, 4 ≤ i → low.getLsbD i = false := by
    intro i hi
    exact Nat.testBit_lt_two_pow (Nat.lt_of_lt_of_le hlow (Nat.pow_le_pow_right Nat.two_pos hi))
  refine ⟨?_, ?_, ?_, ?_⟩
  · ext i hi
    simp only [mdioPhyAddr, BitVec.getElem_extractLsb', BitVec.getLsbD_or, BitVec.getLsbD_and,
      BitVec.getLsbD_shiftLeft, hoff (12 + i) (by omega)]
    interval_cases i <;> simp
  · ext i hi
    simp only [mdioPhyReg, BitVec.getElem_extractLsb', BitVec.getLsbD_or, BitVec.getLsbD_and,
      BitVec.getLsbD_shiftLeft, hoff (4 + i) (by omega)]
    interval_cases i <;> simp
  · simp
  · simp

/-- The wait ends, and takes the time that is left. -/
theorem mdioWait_ends {t : τ} (hf : C.left t < fuel) :
    ∃ t', (mdioWait hw fuel).run t = some ((), t') ∧ C.left t' = 0 ∧ C.phys t' = C.phys t ∧
      C.data t' = C.data t := by
  have hpoll : ∀ u, C.phys u = C.phys t ∧ C.data u = C.data t →
      ∃ t', StateT.run (do
          let val ← hw.readl gethMdioAddr
          return decide (val &&& miiBusy ≠ 0)) u = some (decide (0 < C.left u), t') ∧
        (C.phys t' = C.phys t ∧ C.data t' = C.data t) ∧ C.left t' = C.left u - 1 := by
    intro u hu
    obtain ⟨hbusy, hleft, hphys, hdata⟩ := C.poll u
    refine ⟨(hw.load gethMdioAddr u).2, ?_, ⟨hphys.trans hu.1, hdata.trans hu.2⟩, hleft⟩
    have htest : decide ((hw.load gethMdioAddr u).1 &&& miiBusy ≠ 0) = decide (0 < C.left u) := by
      rw [decide_eq_decide, busy_bit, hbusy, decide_eq_true_eq]
    exact congrArg (fun b => some (b, (hw.load gethMdioAddr u).2)) htest
  obtain ⟨t', hrun, ⟨hphys, hdata⟩, hleft⟩ := waitWhile_ends hpoll hf ⟨rfl, rfl⟩
  exact ⟨t', hrun, hleft, hphys, hdata⟩

/-- `geth_phy_read` is one read on the line. -/
theorem gethPhyRead_sim (hf : C.bound < fuel) (phyAdr : BitVec 32) (reg : BitVec 16) :
    Sim (LineIdle C) (gethPhyRead hw fuel phyAdr reg)
      (line.readReg (phyAdr.setWidth 5) (reg.setWidth 7)) := by
  intro t p v p' hidle hv
  obtain ⟨hidle, rfl⟩ := hidle
  obtain ⟨hadr, hreg, hbusy, hwrite⟩ := command_fields phyAdr (reg.setWidth 32) miiBusy (by decide)
  obtain ⟨hbound, hphys, hdata⟩ := C.start_read _ t hidle hbusy hwrite
  obtain ⟨t', hwait, hleft, hphys', hdata'⟩ := mdioWait_ends C (Nat.lt_of_le_of_lt hbound hf)
  obtain ⟨hval, hleft', hphys''⟩ := C.read_data t' hleft
  have hwidth : (reg.setWidth 32).setWidth 7 = reg.setWidth 7 := by
    rw [BitVec.setWidth_setWidth_of_le _ (by decide)]
  have hline : line.read (phyAdr.setWidth 5) (reg.setWidth 7) (C.phys t) = (v, p') :=
    Option.some.inj hv
  rw [hadr, hreg, hwidth, hline] at hphys hdata
  refine ⟨(hw.load gethMdioData t').2, ?_, hleft', ?_⟩
  · have hrun := run_bind_some (fun _ => do
      let val ← hw.readl gethMdioData
      return val.setWidth 16) hwait
    refine Eq.trans hrun ?_
    have hres : (hw.load gethMdioData t').1.setWidth 16 = v := by rw [hval, hdata', hdata]
    exact congrArg (fun x => some (x, (hw.load gethMdioData t').2)) hres
  · rw [hphys'', hphys', hphys]

/-- A write of the driver is one write on the line, after all waiting. -/
theorem gethPhyWrite_sim (hf : C.bound < fuel) (phyAdr reg : BitVec 8) (val : BitVec 16) :
    Sim (LineIdle C) (gethPhyWrite hw fuel phyAdr reg val)
      (line.writeReg (phyAdr.setWidth 5) (reg.setWidth 7) val) := by
  intro t p v p' hidle hv
  obtain ⟨hidle, rfl⟩ := hidle
  obtain ⟨hidle, hphysd, hdata⟩ := C.write_data (val.setWidth 32) t hidle
  obtain ⟨hadr, hreg, hbusy, hwrite⟩ :=
    command_fields (phyAdr.setWidth 32) (reg.setWidth 32) (miiWrite ||| miiBusy) (by decide)
  obtain ⟨hbound, hphys⟩ := C.start_write _ _ hidle hbusy hwrite
  obtain ⟨t', hwait, hleft, hphys', -⟩ := mdioWait_ends C (Nat.lt_of_le_of_lt hbound hf)
  rw [hadr, hreg, hdata, hphysd, BitVec.setWidth_setWidth_of_le _ (by decide),
    BitVec.setWidth_setWidth_of_le _ (by decide), BitVec.setWidth_setWidth_of_le _ (by decide),
    BitVec.setWidth_eq] at hphys
  rw [← BitVec.or_assoc (_ ||| _) miiWrite miiBusy] at hwait hphys hphys'
  cases hv
  exact ⟨t', hwait, hleft, hphys'.trans hphys⟩

section
variable {host : Host} {macs : Nat → GethRegs τ} {name : CStr} {dev : Nat}
  {l : List Nat} {b : Nat} {m : Mii (Option τ)}

/-- The bus `b` is on the list `l` under `name`, and comes to `geth_miiphy_read` and
`geth_miiphy_write`. -/
structure Attached (host : Host) (macs : Nat → GethRegs τ) (fuel : Nat) (name : CStr) (b : Nat)
    (l : List Nat) (m : Mii (Option τ)) : Prop where
  orderly : Orderly m l
  listed : b ∈ l
  called : m.name b = name
  bus : m.mem b = legacyBus name (gethLdev host macs fuel)

/-- What a call comes to on the line; `current` answers those that are not for it. -/
def MiiCall.onLine (line : PhyLine π) (current : Option CStr → Int) :
    MiiCall → π → MiiReply × π
  | read addr reg, p =>
    let (v, p) := line.read (addr.toBitVec.setWidth 5) (reg.toBitVec.setWidth 7) p
    (.value (some v), p)
  | write addr reg value, p =>
    (.status 0, line.write (addr.toBitVec.setWidth 5) (reg.toBitVec.setWidth 7) value p)
  | setCurrentDev devname, p => (.current (current devname), p)

def lineRun (line : PhyLine π) (current : Option CStr → Int) :
    List MiiCall → π → List MiiReply × π
  | [], p => ([], p)
  | call :: calls, p =>
    let (reply, p) := call.onLine line current p
    let (replies, p) := lineRun line current calls p
    (reply :: replies, p)

def currentReply (m : Mii (Option τ)) (devname : Option CStr) : Int :=
  if miiphyGetDevByName m devname = some none then 1 else 0

def MiiCall.Named : MiiCall → Prop
  | setCurrentDev (some devname) => 0 ∉ devname
  | _ => True

/-- The registry with another bus chosen as the current one. -/
theorem Attached.keep {m' : Mii (Option τ)} (h : Attached host macs fuel name b l m)
    (hm' : Orderly m' l) (hmem : m'.mem = m.mem) : Attached host macs fuel name b l m' := by
  have hname : m'.name = m.name := by
    funext q
    rw [Mii.name, hmem]
    rfl
  exact ⟨hm', h.listed, by rw [hname, h.called], by rw [hmem, h.bus]⟩

/-- Which bus is the current one does not show in the reply. -/
theorem currentReply_keep {m' : Mii (Option τ)} (hm : Orderly m l) (hm' : Orderly m' l)
    (hmem : m'.mem = m.mem) {devname : Option CStr} (hd : ∀ s, devname = some s → 0 ∉ s) :
    currentReply m' devname = currentReply m devname := by
  cases devname with
  | none => rfl
  | some s =>
    obtain ⟨dev, hget, hdev⟩ := hm.get (hd s rfl)
    obtain ⟨dev', hget', hdev'⟩ := hm'.get (hd s rfl)
    have hsame : dev' = dev := by
      apply Option.ext
      intro q
      rw [hdev q, hdev' q, Mii.name, hmem]
      rfl
    rw [currentReply, currentReply, hget, hget', hsame]

def AtRest (host : Host) (macs : Nat → GethRegs τ) (fuel : Nat) (name : CStr) (b : Nat)
    (l : List Nat) (C : MdioController hw line) (current : Option CStr → Int)
    (m : Mii (Option τ) × Option τ) (p : π) : Prop :=
  Attached host macs fuel name b l m.1 ∧
    (∀ devname, (∀ s, devname = some s → 0 ∉ s) → currentReply m.1 devname = current devname) ∧
    ∃ t, m.2 = some t ∧ LineIdle C t p

theorem legacyBus_read {ldev : LegacyMiiDev (Option τ)} (h : m.mem b = legacyBus name ldev) :
    (m.mem b).read = some (legacyMiiphyRead ldev (m.name b)) ∧
      (m.mem b).write = some (legacyMiiphyWrite ldev (m.name b)) := by
  rw [Mii.name, h]
  exact ⟨rfl, rfl⟩

/-- The bus is the active one, and its functions those of the driver. -/
theorem Attached.active (h : Attached host macs fuel name b l m) :
    ∃ m', miiphyGetActiveDev m name = some (some b, m') ∧ Attached host macs fuel name b l m' ∧
      Orderly m' l ∧ m'.mem = m.mem := by
  have hname : 0 ∉ name := h.called ▸ name_no_nul m b
  obtain ⟨dev, m', hget, hactive, hm', hmem⟩ := h.orderly.activeDev hname
  have hfound := h.orderly.get_some h.listed
  rw [h.called, hget] at hfound
  rw [Option.some.inj hfound] at hactive
  exact ⟨m', hactive, h.keep hm' hmem, hm', hmem⟩

theorem ofInt_toNat (x : UInt8) : UInt8.ofInt (x.toNat : Int) = x := by
  have hmod : (x.toNat : Int) % 2 ^ 8 = x.toNat :=
    Int.emod_eq_of_lt (Int.natCast_nonneg _) (by exact_mod_cast x.toNat_lt)
  rw [UInt8.ofInt, hmod, Int.toNat_natCast, UInt8.ofNat_toNat]

theorem orHang_some {α : Type} {c : StateT τ Option α} {v d : α} {t t' : τ}
    (h : c.run t = some (v, t')) : orHang c d (some t) = (v, some t') := by
  rw [orHang, h]

/-- A read through the functions of the bus. -/
theorem busRead (hf : C.bound < fuel) (hdev : ethGetDevByName host name = some (some dev))
    (hmac : macs dev = hw) {t : τ} {p : π} (hidle : LineIdle C t p) (addr reg : UInt8) (devad : Int)
    {w : BitVec 16} {p' : π}
    (hw : line.read (addr.toBitVec.setWidth 5) (reg.toBitVec.setWidth 7) p = (w, p')) :
    ∃ t', legacyMiiphyRead (gethLdev host macs fuel) name addr.toNat devad reg.toNat (some t) =
      (w.setWidth 32, some t') ∧ LineIdle C t' p' := by
  obtain ⟨t', ht', hidle'⟩ := gethPhyRead_sim C hf (addr.toBitVec.setWidth 32)
    (reg.toBitVec.setWidth 16) t p w p' hidle (by
      rw [BitVec.setWidth_setWidth_of_le _ (by decide), BitVec.setWidth_setWidth_of_le _ (by decide)]
      exact congrArg some hw)
  have hread : (gethMiiphyRead host macs fuel name addr reg).run t = some (w, t') := by
    rw [gethMiiphyRead, hdev]
    simp only [hmac]
    exact ht'
  refine ⟨t', ?_, hidle'⟩
  simp only [legacyMiiphyRead, gethLdev, ofInt_toNat, orHang_some hread]
  rfl

theorem busWrite (hf : C.bound < fuel) (hdev : ethGetDevByName host name = some (some dev))
    (hmac : macs dev = hw) {t : τ} {p : π} (hidle : LineIdle C t p) (addr reg : UInt8) (devad : Int)
    (val : BitVec 16) :
    ∃ t', legacyMiiphyWrite (gethLdev host macs fuel) name addr.toNat devad reg.toNat val (some t) =
      (0, some t') ∧
      LineIdle C t' (line.write (addr.toBitVec.setWidth 5) (reg.toBitVec.setWidth 7) val p) := by
  obtain ⟨t', ht', hidle'⟩ := gethPhyWrite_sim C hf addr.toBitVec reg.toBitVec val t p () _ hidle rfl
  have hwrite : (gethMiiphyWrite host macs fuel name addr reg val).run t = some ((), t') := by
    rw [gethMiiphyWrite, hdev]
    simp only [hmac]
    exact ht'
  refine ⟨t', ?_, hidle'⟩
  simp only [legacyMiiphyWrite, gethLdev, ofInt_toNat, orHang_some hwrite]

/-- One call. -/
theorem miiCall_sim (hf : C.bound < fuel) (hdev : ethGetDevByName host name = some (some dev))
    (hmac : macs dev = hw) {current : Option CStr → Int} (devad : Int) {call : MiiCall}
    (hcall : call.Named) :
    Sim (AtRest host macs fuel name b l C current) (call.run devad name)
      (fun p => some (call.onLine line current p)) := by
  intro mt p v p' hR hv
  obtain ⟨m, o⟩ := mt
  obtain ⟨hatt, hcur, t, ht, hidle⟩ := hR
  cases ht
  obtain ⟨m', hactive, hatt', hm', hmem⟩ := hatt.active
  have hcur' : ∀ devname, (∀ s, devname = some s → 0 ∉ s) →
      currentReply m' devname = current devname :=
    fun d hd => (currentReply_keep hatt.orderly hm' hmem hd).trans (hcur d hd)
  obtain ⟨hread, hwrite⟩ := legacyBus_read hatt'.bus
  rw [hatt'.called] at hread hwrite
  cases call with
  | read addr reg =>
    cases hv
    obtain ⟨t', hbus, hidle'⟩ := busRead C hf hdev hmac hidle addr reg devad rfl
    refine ⟨(m', some t'), ?_, hatt', hcur', t', rfl, hidle'⟩
    generalize (line.read (addr.toBitVec.setWidth 5) (reg.toBitVec.setWidth 7) p).1 = w at hbus
    have hcall : miiphyRead devad m name addr reg (some t) = some (some w, m', some t') := by
      rw [miiphyRead, hactive]
      simp only [Option.bind_eq_bind, Option.bind_some, hread, hbus]
      have hpos : (w.setWidth 32).slt 0 = false := Bits.setWidth_not_neg w (by decide)
      rw [hpos, BitVec.setWidth_setWidth_of_le _ (by decide), BitVec.setWidth_eq]
      rfl
    show (miiphyRead devad m name addr reg (some t)).map _ = _
    rw [hcall]
    rfl
  | write addr reg value =>
    obtain ⟨t', hbus, hidle'⟩ := busWrite C hf hdev hmac hidle addr reg devad value
    cases hv
    refine ⟨(m', some t'), ?_, hatt', hcur', t', rfl, hidle'⟩
    have hcall : miiphyWrite devad m name addr reg value (some t) = some (0, m', some t') := by
      rw [miiphyWrite, hactive]
      simp only [Option.bind_eq_bind, Option.bind_some, hwrite, hbus]
    show (miiphyWrite devad m name addr reg value (some t)).map _ = _
    rw [hcall]
    rfl
  | setCurrentDev devname =>
    cases hv
    have hnamed : ∀ s, devname = some s → 0 ∉ s := by
      rintro s rfl
      exact hcall
    obtain ⟨found, m₁, hget, hset, hm₁, hmem₁, -⟩ := hatt.orderly.setCurrentDev devname hnamed
    refine ⟨(m₁, some t), ?_, hatt.keep hm₁ hmem₁, ?_, t, rfl, hidle⟩
    · have hreply : (if found.isSome then (0 : Int) else 1) = current devname := by
        rw [← hcur devname hnamed, currentReply, hget]
        cases found with
        | none => rfl
        | some q => rfl
      show (miiphySetCurrentDev m devname).map _ = _
      rw [hset, hreply]
      rfl
    · exact fun d hd => (currentReply_keep hatt.orderly hm₁ hmem₁ hd).trans (hcur d hd)

theorem lineRun_mapM (line : PhyLine π) (current : Option CStr → Int) (calls : List MiiCall)
    (p : π) :
    StateT.run (calls.mapM fun call => (fun p => some (call.onLine line current p) :
      StateT π Option MiiReply)) p = some (lineRun line current calls p) := by
  induction calls generalizing p with
  | nil => rfl
  | cons call calls ih =>
    rw [List.mapM_cons, run_bind_some _ (show _ = some ((call.onLine line current p).1, _) from rfl),
      run_bind_some _ (ih _)]
    rfl

end

/-- What the registry keeps over a run of its own operations. -/
theorem tracked_run {σ : Type} {r r' : MiiRun σ} {l : List Nat} (h : Tracked r l)
    {ops : List (MiiOp σ)} (hp : Promised r ops) (hfit : ∀ op ∈ ops, op.Fits)
    (hr : miiRun r ops = some r') : ∃ l', Tracked r' l' := by
  induction ops generalizing r l with
  | nil =>
    cases hr
    exact ⟨l, h⟩
  | cons op ops ih =>
    obtain ⟨r₁, l₁, hrun, h₁⟩ := h.run hp.1 (hfit op List.mem_cons_self)
    rw [miiRun_cons hrun] at hr
    exact ih h₁ (hp.2 r₁ hrun) (fun o ho => hfit o (List.mem_cons_of_mem op ho)) hr

/-- After any use of the registry, the driver's functions are registered: from then on each
call for their name is one access on the line, in the order of the calls. -/
theorem mdio_stack (hf : C.bound < fuel) (host : Host) (macs : Nat → GethRegs τ) {name : CStr}
    {dev : Nat} (hdev : ethGetDevByName host name = some (some dev)) (hmac : macs dev = hw)
    (m₀ : Mii (Option τ)) (ops : List (MiiOp (Option τ))) (hp : Promised (initialRun m₀) ops)
    (hfit : ∀ op ∈ ops, op.Fits) {r : MiiRun (Option τ)} (hr : miiRun (initialRun m₀) ops = some r)
    (hn : 0 ∉ name) (hshort : name.length < 32)
    (hnew : miiphyGetDevByName r.mii (some name) = some none) {b : Nat} (hb : b ∉ r.mii.buses)
    (devad : Int) (calls : List MiiCall) (hcalls : ∀ call ∈ calls, call.Named) (t : τ)
    (ht : C.left t = 0) :
    ∃ m m' t', miiphyRegister r.mii name (gethLdev host macs fuel) (some b) true = some m ∧
      C.left t' = 0 ∧ C.phys t' = (lineRun line (currentReply m) calls (C.phys t)).2 ∧
      (miiCalls devad name calls).run (m, some t) =
        some ((lineRun line (currentReply m) calls (C.phys t)).1, m', some t') := by
  obtain ⟨l, htracked⟩ := tracked_run (tracked_init m₀) hp hfit hr
  have hbl : b ∉ l := htracked.orderly.buses_eq ▸ hb
  have hreg : miiphyRegister r.mii name (gethLdev host macs fuel) (some b) true =
      some (registered r.mii name (gethLdev host macs fuel) b) := miiphyRegister_new hnew
  have horderly : Orderly (registered r.mii name (gethLdev host macs fuel) b) (l ++ [b]) :=
    htracked.orderly.registered hn hshort hnew hbl
  have hatt : Attached host macs fuel name b (l ++ [b])
      (registered r.mii name (gethLdev host macs fuel) b) := by
    refine ⟨horderly, List.mem_append_right l List.mem_cons_self, ?_, Function.update_self ..⟩
    rw [registered_name hn, List.take_of_length_le (Nat.le_of_lt_succ hshort)]
  obtain ⟨mt, hrun, -, -, t', ht', hleft, hphys⟩ :=
    Sim.mapM (fun call hc => miiCall_sim C hf hdev hmac devad (hcalls call hc))
      (registered r.mii name (gethLdev host macs fuel) b, some t) (C.phys t) _ _
      ⟨hatt, fun _ _ => rfl, t, rfl, ht, rfl⟩ (lineRun_mapM line _ calls (C.phys t))
  obtain ⟨m', o⟩ := mt
  cases ht'
  exact ⟨_, m', t', hreg, hleft, hphys, hrun⟩

def storingLine : PhyLine (BitVec 5 → BitVec 7 → BitVec 16) where
  read addr reg p := (p addr reg, p)
  write addr reg val p := Function.update p addr (Function.update (p addr) reg val)

structure SlowMac where
  phys : BitVec 5 → BitVec 7 → BitVec 16
  data : BitVec 32
  left : Nat

def slowMac : GethRegs SlowMac where
  load reg t :=
    if reg = gethMdioAddr then (if 0 < t.left then 1 else 0, { t with left := t.left - 1 })
    else (t.data, t)
  store val reg t :=
    if reg = gethMdioData then { t with data := val }
    else if val.getLsbD 1 then
      { t with
        phys := storingLine.write (mdioPhyAddr val) (mdioPhyReg val) (t.data.setWidth 16) t.phys
        left := 3 }
    else
      { t with data := (t.phys (mdioPhyAddr val) (mdioPhyReg val)).setWidth 32, left := 3 }

def slowController : MdioController slowMac storingLine where
  phys t := t.phys
  data t := t.data
  left t := t.left
  bound := 3
  write_data v t h := ⟨h, rfl, rfl⟩
  start_read c t h hbusy hread := by
    simp only [slowMac, gethMdioAddr, gethMdioData, hread]
    exact ⟨Nat.le_refl 3, rfl, by simp [storingLine]⟩
  start_write c t h hbusy hwrite := by
    simp only [slowMac, gethMdioAddr, gethMdioData, hwrite]
    exact ⟨Nat.le_refl 3, rfl⟩
  poll t := by
    refine ⟨?_, rfl, rfl, rfl⟩
    by_cases h : 0 < t.left
    · simp [slowMac, h]
    · simp [slowMac, h]
  read_data t h := ⟨rfl, h, rfl⟩

def blankBuses : Mii (Option SlowMac) where
  mem := fun _ => ⟨List.replicate 32 0, none, none⟩
  links := ⟨fun _ => .null, fun _ => .null⟩
  currentMii := none
  steps := 0

theorem mdio_stack_stored :
    ∃ (m m' : Mii (Option SlowMac)) (t' : SlowMac),
      (miiCalls 0 (cstr "eth0") [.write 1 0 0x3100, .setCurrentDev none, .read 33 0, .read 2 0]).run
        (m, some ⟨fun _ _ => 0xffff, 0, 0⟩) =
          some ([.status 0, .current 1, .value (some 0x3100), .value (some 0xffff)], m', some t') ∧
        t'.left = 0 := by
  have hcalls : ∀ call ∈ [MiiCall.write 1 0 0x3100, .setCurrentDev none, .read 33 0, .read 2 0],
      call.Named := by
    simp [MiiCall.Named]
  have hdev : ethGetDevByName idleHost (cstr "eth0") = some (some 0) := by decide
  obtain ⟨m, m', t', -, hleft, -, hrun⟩ := mdio_stack slowController (by decide : 3 < 4) idleHost
    (fun _ => slowMac) hdev rfl blankBuses [] trivial (fun op hop => (List.not_mem_nil hop).elim)
    rfl (by decide) (by decide) rfl (b := 0) List.not_mem_nil 0 _ hcalls
    ⟨fun _ _ => 0xffff, 0, 0⟩ rfl
  exact ⟨m, m', t', hrun, hleft⟩

end EmacDriver
