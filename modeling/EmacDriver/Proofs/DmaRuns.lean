import EmacDriver.Proofs.DmaAsk

namespace EmacDriver.Dma
open Bytes CacheMem Triples

variable {H : Machine} {g : Layout} {α : Type}

/-- Facts of the receive side, which hold on as long as nothing touches it. -/
structure Bears (H : Machine) (g : Layout) (P : World → Prop) : Prop where
  lists : ∀ w, P w → Lists g w
  before : ∀ w, P w → P (w.before H)
  still : ∀ w w', P w → Still g w w' → w'.timerReads = w.timerReads → P w'

variable {P : World → Prop}

/-- One access that leaves the receive side alone. -/
theorem Bears.access (hP : Bears H g P) {f : World → α × World}
    (hf : ∀ w, Lists g w → Still g w (f w).2 ∧ (f w).2.timerReads = w.timerReads) :
    Ends P (access H f) fun _ => P := by
  intro w hw'
  have hb := hP.before w hw'
  obtain ⟨hs, htime⟩ := hf _ (hP.lists _ hb)
  exact ⟨_, _, rfl, hP.still _ _ hb hs htime⟩

theorem Bears.load (hP : Bears H g P) (a : Nat) : Ends P (loadByte H a) fun _ => P :=
  hP.access fun w _ => ⟨still_fill w _, rfl⟩

theorem Bears.loadWord (hP : Bears H g P) (a : Nat) : Ends P (loadWord H a) fun _ => P :=
  (hP.load _).bind fun _ => (hP.load _).bind fun _ => (hP.load _).bind fun _ =>
    (hP.load _).bind fun _ => ends_pure fun _ h => h

theorem Bears.store (hP : Bears H g P) {a : Nat} (ha : ¬g.Shared a) (v : UInt8) :
    Ends P (storeByte H a v) fun _ => P :=
  hP.access fun _ _ =>
    ⟨still_mem (Mem.keeps_store fun _ hb he => ha ((shared_line he).mp hb)), rfl⟩

theorem Bears.stores (hP : Bears H g P) {a n : Nat} (ha : ∀ i < n, ¬g.Shared (a + i))
    (b : Nat → UInt8) : Ends P (upto (fun i => storeByte H (a + i) (b i)) n) fun _ => P :=
  Ends.upto (I := fun _ => P) fun i hi => hP.store (ha i hi) (b i)

theorem Bears.readl (hP : Bears H g P) (reg : Nat) : Ends P (readl H reg) fun _ => P :=
  hP.access fun _ _ => ⟨still_refl, rfl⟩

theorem Bears.intSta (hP : Bears H g P) (v : BitVec 32) :
    Ends P (writel H v gethIntSta) fun _ => P :=
  hP.access fun _ _ => ⟨⟨rfl, rfl, rfl, rfl, rfl, Mem.keeps_refl⟩, rfl⟩

theorem Bears.txCtl1 (hP : Bears H g P) (v : BitVec 32) :
    Ends P (writel H v gethTxCtl1) fun _ => P :=
  hP.access fun _ _ => ⟨⟨rfl, rfl, rfl, rfl, rfl, Mem.keeps_refl⟩, rfl⟩

theorem Bears.txDescList (hP : Bears H g P) :
    Ends P (writel H (g.dmaDescTx.toBitVec.setWidth 32) gethTxDescList) fun _ => P :=
  hP.access fun _ hl => ⟨⟨rfl, rfl, hl.tx.symm, rfl, rfl, Mem.keeps_refl⟩, rfl⟩

theorem Bears.dmaTxEnable (hP : Bears H g P) (en : Bool) :
    Ends P (dmaTxEnable H en) fun _ => P := (hP.readl _).bind fun _ => hP.txCtl1 _

theorem Bears.flush (hP : Bears H g P) {start stop : UInt64}
    (h : stop.toNat ≤ 18446744073709551552) :
    Ends P (flushDcacheRange H start stop) fun _ => P := by
  rw [flushDcacheRange, dcacheRange_start _ h (Nat.le_refl _)]
  exact Ends.forM fun _ _ => hP.access fun _ _ => ⟨still_mem Mem.keeps_clean, rfl⟩

theorem Bears.window (hP : Bears H g P) (lo hi : Nat) :
    Bears H g fun w => P w ∧ Window lo hi w where
  lists w h := hP.lists w h.1
  before w h := ⟨hP.before w h.1, (tame_window lo hi).before w h.2⟩
  still w w' h hs ht := by
    refine ⟨hP.still w w' h.1 hs ht, ?_⟩
    rw [Window, ht]
    exact h.2

def In (g : Layout) (S : RxState → Prop) (w : World) : Prop := ∃ q, S q ∧ InState g q w

def Closed (S : RxState → Prop) : Prop := ∀ {q q'}, S q → Advance q q' → S q'

variable {S : RxState → Prop}

theorem Closed.bears (hS : Closed S) : Bears H g (In g S) where
  lists := by
    rintro w ⟨q, -, h⟩
    exact h.phase.lists
  before := by
    rintro w ⟨q, hq, h⟩
    obtain ⟨q', hadv, h'⟩ := before_state (H := H) h
    exact ⟨q', hS hq hadv, h'⟩
  still := by
    rintro w w' ⟨q, hq, h⟩ hs -
    exact ⟨q, hq, h.still hs⟩

/-- What the `m`th look at the timer finds. -/
def timerAt (H : Machine) (m : Nat) : UInt64 := UInt64.ofInt (runtimeTick (H.readTimer m))

/-- A wait that begins at one of the looks `lo..hi` at the timer finds its five seconds over
within `fuel` more: the time as an `unsigned long` above what was stored in an `int`. -/
def ClockRuns (H : Machine) (fuel lo hi : Nat) : Prop :=
  ∀ m, lo ≤ m → m < hi → ∃ k < fuel, xmitTmo (timerAt H m) < timerAt H (m + 1 + k)

/-- A look at the timer is one more, and finds what that look finds. -/
theorem ends_tick (m : Nat) : Ends (fun w => In g S w ∧ Window m m w) (getTimer H)
    fun t w => t = timerAt H m ∧ In g S w ∧ Window (m + 1) (m + 1) w := by
  rintro w ⟨⟨q, hq, h⟩, hw'⟩
  have hnow : w.timerReads = m := Nat.le_antisymm hw'.2 hw'.1
  subst hnow
  refine ⟨_, _, rfl, rfl, ⟨q, hq, h.still ?_⟩, Nat.le_refl _, Nat.le_refl _⟩
  exact ⟨rfl, rfl, rfl, rfl, rfl, Mem.keeps_refl⟩

/-- The wait ends, after at most `fuel` looks at the timer. -/
theorem ends_xmitWait (hS : Closed S) (stat : BitVec 32) (tmo : UInt64) {fuel m : Nat}
    (hclock : ∃ k < fuel, tmo < timerAt H (m + k)) :
    Ends (fun w => In g S w ∧ Window m m w) (xmitWait H g stat tmo fuel)
      fun _ w => In g S w ∧ Window m (m + fuel) w := by
  induction fuel generalizing m with
  | zero =>
    obtain ⟨k, hk, -⟩ := hclock
    exact absurd hk (Nat.not_lt_zero k)
  | succ fuel ih =>
    have hleave (w : World) (h : In g S w ∧ Window m m w) :
        In g S w ∧ Window m (m + (fuel + 1)) w := ⟨h.1, h.2.1, Nat.le_add_right_of_le h.2.2⟩
    refine ((hS.bears.window m m).loadWord _).bind fun d => ?_
    apply Ends.ite
    · intro _
      refine (ends_tick m).bind fun t => ends_of_imp ?_
      rintro rfl
      apply Ends.ite
      · intro _
        apply ends_pure
        rintro w ⟨h, hlo, hhi⟩
        exact ⟨h, by omega, by omega⟩
      · intro hearly
        have hlater : ∃ k < fuel, tmo < timerAt H (m + 1 + k) := by
          obtain ⟨k, hk, hlate⟩ := hclock
          cases k with
          | zero => exact absurd hlate hearly
          | succ k =>
            refine ⟨k, Nat.lt_of_succ_lt_succ hk, ?_⟩
            rwa [Nat.add_assoc, Nat.add_comm 1]
        refine (ih hlater).mono (fun _ h => h) ?_
        rintro _ w ⟨h, hlo, hhi⟩
        exact ⟨h, by omega, by omega⟩
    · exact fun _ => ends_pure hleave

def Op.Ok (g : Layout) : Op → Prop
  | xmit packet length => 0 ≤ length ∧ packet.toNat + length.toNat ≤ 4294967296
  | store a _ => ¬g.Shared a

theorem tx_line_off {i : Nat} (hi : i < 64) : ¬g.Shared (g.dmaDescTx.toNat + i) := by
  intro h
  have hoff := g.tx_not_shared h
  omega

/-- The looks of one call. -/
theorem ends_xmitStart (hS : Closed S) {fuel lo hi now : Nat} (hclock : ClockRuns H fuel lo hi)
    (hnow : now < hi) {c : M α} {Q : α → World → Prop}
    (hc : Ends (fun w => In g S w ∧ Window lo (now + (fuel + 1)) w) c Q) :
    Ends (fun w => In g S w ∧ Window lo now w) (do
      let xmitStat ← readl H gethTxDmaSta
      let t ← getTimer H
      xmitWait H g (xmitStat &&& 0x7) (xmitTmo t) fuel
      c) Q := by
  apply ((hS.bears.window lo now).readl _).bind
  rintro stat w ⟨h, hlo, hhi⟩
  have hwait (t : UInt64) : Ends (fun u => t = timerAt H w.timerReads ∧ In g S u ∧
      Window (w.timerReads + 1) (w.timerReads + 1) u)
      (xmitWait H g (stat &&& 0x7) (xmitTmo t) fuel)
      fun _ u => In g S u ∧ Window lo (now + (fuel + 1)) u := by
    apply ends_of_imp
    rintro rfl
    refine (ends_xmitWait hS _ _ (hclock _ hlo (by omega))).mono (fun _ h => h) ?_
    rintro _ u ⟨hu, hlo', hhi'⟩
    exact ⟨hu, by omega, by omega⟩
  exact ((ends_tick w.timerReads).bind fun t => (hwait t).bind fun _ => hc) w
    ⟨h, Nat.le_refl _, Nat.le_refl _⟩

theorem length_toNat {length : Int} (h0 : 0 ≤ length) (h1 : length ≤ 4294967296) :
    (UInt64.ofInt length).toNat = length.toNat := by
  have hmod : length % 2 ^ 64 = length := Int.emod_eq_of_lt h0 (by omega)
  rw [UInt64.ofInt, hmod, UInt64.toNat_ofNat']
  exact Nat.mod_eq_of_lt (by omega)

/-- `geth_xmit` touches nothing of the receive side but its interrupts. -/
theorem ends_gethXmit (hS : Closed S) {fuel lo hi now : Nat} (hclock : ClockRuns H fuel lo hi)
    (hnow : now < hi) {packet : UInt64} {length : Int} (hok : (Op.xmit packet length).Ok g) :
    Ends (fun w => In g S w ∧ Window lo now w) (gethXmit H g fuel packet length)
      fun _ w => In g S w ∧ Window lo (now + (fuel + 1)) w := by
  obtain ⟨hpos, hfit⟩ := hok
  have hlow := g.tx_low
  have hP := (hS.bears (H := H) (g := g)).window lo (now + (fuel + 1))
  have hstores (o n : Nat) (ho : o + n ≤ 64) (b : Nat → UInt8) :=
    hP.stores (a := g.dmaDescTx.toNat + o) (n := n) (fun i hi => by
      rw [Nat.add_assoc]
      exact tx_line_off (by omega)) b
  have hflushDesc : (g.dmaDescTx + 24).toNat ≤ 18446744073709551552 := by
    rw [UInt64.toNat_add]
    simp only [UInt64.reduceToNat]
    omega
  have hflushPacket : (packet + UInt64.ofInt length).toNat ≤ 18446744073709551552 := by
    rw [UInt64.toNat_add, length_toNat hpos (by omega)]
    omega
  exact ends_xmitStart hS hclock hnow ((hP.dmaTxEnable false).bind fun _ =>
    (hP.readl _).bind fun _ => (hP.intSta _).bind fun _ =>
    (hstores 0 4 (by decide) _).bind fun _ => (hstores 4 4 (by decide) _).bind fun _ =>
    (hP.loadWord _).bind fun _ => (hstores 4 4 (by decide) _).bind fun _ =>
    (hstores 8 8 (by decide) _).bind fun _ => (hP.flush hflushDesc).bind fun _ =>
    (hP.flush hflushPacket).bind fun _ =>
    (hP.readl _).bind fun _ => (hP.txCtl1 _).bind fun _ => hP.txDescList.bind fun _ =>
    hP.dmaTxEnable true)

theorem window_later {lo hi hi' : Nat} {w : World} (h : Window lo hi w) (hle : hi ≤ hi') :
    Window lo hi' w := ⟨h.1, Nat.le_trans h.2 hle⟩

theorem ends_op (hS : Closed S) {fuel lo hi now : Nat} (hclock : ClockRuns H fuel lo hi)
    (hnow : now < hi) {op : Op} (hok : op.Ok g) :
    Ends (fun w => In g S w ∧ Window lo now w) (op.run H g fuel)
      fun _ w => In g S w ∧ Window lo (now + (fuel + 1)) w := by
  cases op with
  | xmit packet length => exact ends_gethXmit hS hclock hnow hok
  | store a v =>
    refine ((hS.bears.window lo now).store hok v).mono (fun _ h => h) ?_
    exact fun _ w h => ⟨h.1, window_later h.2 (Nat.le_add_right _ _)⟩

def StackOk (g : Layout) (n : Nat) (stack : Frame → List Op) : Prop :=
  ∀ f, (stack f).length ≤ n ∧ ∀ op ∈ stack f, op.Ok g

/-- The stack's answers to the frame, if there is one. -/
theorem ends_stack (hS : Closed S) {fuel lo hi now n : Nat} (hclock : ClockRuns H fuel lo hi)
    (hnow : now + n * (fuel + 1) ≤ hi) {stack : Frame → List Op} (hok : StackOk g n stack)
    {frames : List Frame} (hone : frames.length ≤ 1) :
    Ends (fun w => In g S w ∧ Window lo now w)
      (frames.forM fun f => (stack f).forM fun op => op.run H g fuel)
      fun _ w => In g S w ∧ Window lo (now + n * (fuel + 1)) w := by
  have hlater {k : Nat} (hk : k ≤ n) (w : World)
      (h : In g S w ∧ Window lo (now + k * (fuel + 1)) w) :
      In g S w ∧ Window lo (now + n * (fuel + 1)) w :=
    ⟨h.1, window_later h.2 (Nat.add_le_add_left (Nat.mul_le_mul_right _ hk) _)⟩
  match frames, hone with
  | [], _ =>
    apply ends_pure
    intro w h
    exact hlater (Nat.zero_le n) w (by rwa [Nat.zero_mul])
  | [f], _ =>
    have hops : Ends (fun w => In g S w ∧ Window lo (now + 0 * (fuel + 1)) w)
        ((stack f).forM fun op => op.run H g fuel)
        fun _ w => In g S w ∧ Window lo (now + (0 + (stack f).length) * (fuel + 1)) w := by
      apply Ends.forM_count (I := fun k w => In g S w ∧ Window lo (now + k * (fuel + 1)) w)
      intro op hop k _ hk
      have hlen := (hok f).1
      have hroom : (k + 1) * (fuel + 1) ≤ n * (fuel + 1) := Nat.mul_le_mul_right _ (by omega)
      rw [Nat.succ_mul] at hroom
      have hnow : now + k * (fuel + 1) < hi := by omega
      have hrun := ends_op hS hclock hnow ((hok f).2 op hop)
      rwa [Nat.add_assoc now, ← Nat.succ_mul] at hrun
    rw [Nat.zero_mul, Nat.zero_add] at hops
    have hnext : Ends (fun w => In g S w ∧ Window lo (now + (stack f).length * (fuel + 1)) w)
        (pure () : M Unit) fun _ w => In g S w ∧ Window lo (now + n * (fuel + 1)) w :=
      ends_pure (hlater (hok f).1)
    exact hops.bind fun _ => hnext
  | f :: f' :: fs, h => exact absurd h (by simp)

/-- Facts that no access changes. -/
structure Loose (H : Machine) (g : Layout) (P : World → Prop) : Prop where
  lists : ∀ w, P w → Lists g w
  before : ∀ w, P w → P (w.before H)
  update : ∀ w w', P w → w'.trace = w.trace → w'.timerReads = w.timerReads → Lists g w' → P w'

/-- One access, from which only the lists are known. -/
theorem Loose.access (hP : Loose H g P) {f : World → α × World}
    (hf : ∀ w, Lists g w →
      (f w).2.trace = w.trace ∧ (f w).2.timerReads = w.timerReads ∧ Lists g (f w).2) :
    Ends P (access H f) fun _ => P := by
  intro w hw'
  have hb := hP.before w hw'
  obtain ⟨htrace, htime, hlists⟩ := hf _ (hP.lists _ hb)
  exact ⟨_, _, rfl, hP.update _ _ hb htrace htime hlists⟩

theorem Loose.mem (hP : Loose H g P) {v : World → α} {m : World → Mem UInt8} :
    Ends P (Dma.access H fun w => (v w, { w with mem := m w })) fun _ => P :=
  hP.access fun _ hl => ⟨rfl, rfl, hl.rx, hl.tx⟩

theorem Loose.loadWord (hP : Loose H g P) (a : Nat) : Ends P (loadWord H a) fun _ => P :=
  hP.mem.bind fun _ => hP.mem.bind fun _ => hP.mem.bind fun _ => hP.mem.bind fun _ =>
    ends_pure fun _ h => h

theorem Loose.stores (hP : Loose H g P) (a n : Nat) (b : Nat → UInt8) :
    Ends P (upto (fun i => storeByte H (a + i) (b i)) n) fun _ => P :=
  Ends.upto (I := fun _ => P) fun _ _ => hP.mem

theorem Loose.readl (hP : Loose H g P) (reg : Nat) : Ends P (readl H reg) fun _ => P :=
  hP.access fun _ hl => ⟨rfl, rfl, hl⟩

theorem Loose.intSta (hP : Loose H g P) (v : BitVec 32) :
    Ends P (writel H v gethIntSta) fun _ => P :=
  hP.access fun _ hl => ⟨rfl, rfl, hl.rx, hl.tx⟩

theorem Loose.dmaRxEnable (hP : Loose H g P) (en : Bool) :
    Ends P (dmaRxEnable H en) fun _ => P :=
  (hP.readl _).bind fun _ => hP.access fun _ hl => ⟨rfl, rfl, hl.rx, hl.tx⟩

theorem Loose.flushPacket (hP : Loose H g P) {n : Nat} {size : UInt64}
    (hsize : size.toNat = 64 * n) (hn : n ≤ 32) :
    Ends P (flushCache H g.rxPacket size) fun _ => P := by
  rw [flushCache, flushDcacheRange, packet_range _ hsize hn]
  exact Ends.forM fun _ _ => hP.mem

theorem Loose.gethTake (hP : Loose H g P) : Ends P (gethTake H g) fun _ => P := by
  refine (hP.loadWord _).bind fun d => ?_
  have hpass (frames : World → List Frame) : Ends P (fun w => some (frames w, w)) fun _ => P :=
    fun w hw' => ⟨_, w, rfl, hw'⟩
  apply Ends.ite
  · exact fun _ => (hP.flushPacket (n := 32) rfl (by decide)).bind fun _ => hpass _
  · exact fun _ => (hP.stores _ _ _).bind fun _ =>
      (hP.flushPacket (n := 1) rfl (by decide)).bind fun _ => hpass _

theorem Loose.gethFill (hP : Loose H g P) : Ends P (gethFill H g) fun _ => P := by
  have hflush : Ends P (flushCache H g.dmaDescRx 64) fun _ => P := by
    rw [flushCache, flushDcacheRange, desc_range]
    exact Ends.forM fun _ _ => hP.mem
  exact (hP.stores _ 4 _).bind fun _ => (hP.stores _ 4 _).bind fun _ =>
    (hP.loadWord _).bind fun _ => (hP.stores _ 4 _).bind fun _ => (hP.stores _ 8 _).bind fun _ =>
    hflush.bind fun _ => (hP.access fun _ hl => ⟨rfl, rfl, rfl, hl.tx⟩).bind fun _ =>
    hP.dmaRxEnable true

theorem Loose.lookUp (hP : Loose H g P) :
    Ends P (invalidateDcacheRange H g.dmaDescRx (g.dmaDescRx + 64)) fun _ => P := by
  rw [invalidateDcacheRange, desc_range]
  exact Ends.forM fun _ _ => hP.mem

theorem Loose.dropPacket (hP : Loose H g P) :
    Ends P (invalidateDcacheRange H g.rxPacket (g.rxPacket + 2048)) fun _ => P := by
  rw [invalidateDcacheRange, packet_range (n := 32) _ rfl (by decide)]
  exact Ends.forM fun _ _ => hP.mem

theorem Loose.copyPacket (hP : Loose H g P) : Ends P (copyPacket H g) fun _ => P := by
  apply Ends.upto (I := fun _ => P)
  intro i _
  refine hP.mem.bind fun b => ?_
  exact fun w hw' => ⟨(), _, rfl, hP.update w _ hw' rfl rfl
    ⟨(hP.lists w hw').rx, (hP.lists w hw').tx⟩⟩

def Lost (g : Layout) (lo hi : Nat) (w : World) : Prop := In g (· = .spoiled) w ∧ Window lo hi w

theorem closed_spoiled : Closed (· = .spoiled) := by
  rintro q q' rfl (rfl | ⟨hq, -⟩)
  · rfl
  · cases hq

theorem loose_lost (lo hi : Nat) : Loose H g (Lost g lo hi) where
  lists := by
    rintro w ⟨⟨q, -, h⟩, -⟩
    exact h.phase.lists
  before := (closed_spoiled.bears.window lo hi).before
  update := by
    rintro w w' ⟨⟨q, rfl, h⟩, ht⟩ htrace htime hl
    refine ⟨⟨_, rfl, ?_, hl⟩, ?_⟩
    · rw [htrace]
      exact h.trace
    · rw [Window, htime]
      exact ht

theorem lost_mark {lo hi : Nat} (a : World → Act) :
    Ends (Lost g lo hi) (mark a) fun _ => Lost g lo hi := by
  rintro w ⟨⟨q, rfl, h⟩, ht⟩
  refine ⟨(), _, rfl, ⟨_, rfl, ?_, h.phase.lists.rx, h.phase.lists.tx⟩, ht⟩
  refine (replay_log _).trans ?_
  rw [h.trace]
  rfl

theorem lost_gethFrames {lo hi : Nat} :
    Ends (Lost g lo hi) (gethFrames H g) fun _ => Lost g lo hi := by
  have hP : Loose H g (Lost g lo hi) := loose_lost lo hi
  refine (hP.readl _).bind fun v => ?_
  apply Ends.ite
  · exact fun _ => (lost_mark _).bind fun _ => ends_pure fun _ h => h
  · exact fun _ => (hP.dmaRxEnable false).bind fun _ => (hP.intSta _).bind fun _ => hP.gethTake

theorem framesOf_length (d : Desc0) (b : Buf) : (framesOf d b).length ≤ 1 := by
  rw [framesOf]
  split
  · exact Nat.le_refl 1
  · exact Nat.zero_le 1

theorem gethFrames_length :
    Yields (fun _ => True) (gethFrames H g) fun frames _ => frames.length ≤ 1 := by
  have hany {β : Type} (c : M β) : Yields (fun _ => True) c fun _ _ => True :=
    fun _ _ _ _ _ => trivial
  have htake : Yields (fun _ => True) (gethTake H g) fun frames _ => frames.length ≤ 1 := by
    refine (hany _).bind fun d => ?_
    have hpass (b : World → Buf) : Yields (fun _ => True)
        (fun w => some (framesOf ⟨d.toBitVec⟩ (b w), w)) fun frames _ => frames.length ≤ 1 := by
      intro w v w' _ hrun
      cases hrun
      exact framesOf_length _ _
    apply Yields.ite
    · exact fun _ => (hany _).bind fun _ => hpass _
    · exact fun _ => (hany _).bind fun _ => (hany _).bind fun _ => hpass _
  refine (hany _).bind fun v => ?_
  apply Yields.ite
  · exact fun _ => (hany _).bind fun _ => yields_pure fun _ _ => Nat.zero_le 1
  · exact fun _ => (hany _).bind fun _ => (hany _).bind fun _ => htake

section
variable {fuel lo hi now n : Nat} (hclock : ClockRuns H fuel lo hi)
  (hnow : now + n * (fuel + 1) ≤ hi) {stack : Frame → List Op} (hok : StackOk g n stack)

include hclock hnow hok

theorem lost_rest {frames : List Frame} (hone : frames.length ≤ 1) :
    Ends (Lost g lo now) (do
      mark fun _ => .take (shown frames)
      frames.forM fun f => (stack f).forM fun op => op.run H g fuel
      gethFill H g
      mark fun _ => .fill) fun _ => Lost g lo (now + n * (fuel + 1)) :=
  (lost_mark _).bind fun _ => (ends_stack closed_spoiled hclock hnow hok hone).bind fun _ =>
    (loose_lost lo _).gethFill.bind fun _ => lost_mark _

/-- Nothing is known of the frames any more, but `geth_recv` still returns. -/
theorem lost_gethRecv :
    Ends (Lost g lo now) (gethRecv H g fuel stack) fun _ => Lost g lo (now + n * (fuel + 1)) := by
  have hP : Loose H g (Lost g lo now) := loose_lost lo now
  refine (lost_mark _).bind fun _ => hP.lookUp.bind fun _ => (hP.loadWord _).bind fun d => ?_
  apply Ends.ite
  · intro _
    refine (lost_mark _).mono (fun _ h => h) ?_
    exact fun _ w h => ⟨h.1, window_later h.2 (Nat.le_add_right _ _)⟩
  · intro _
    refine hP.dropPacket.bind fun _ => hP.copyPacket.bind fun _ =>
      (lost_gethFrames.both gethFrames_length).mono (fun _ h => ⟨h, trivial⟩)
        (fun _ _ h => h) |>.bind fun frames => ?_
    rintro w ⟨h, hone⟩
    exact lost_rest hclock hnow hok hone w h

end

theorem closed_holding : Closed (· = .holding) := by
  rintro q q' rfl (rfl | ⟨hq, -⟩)
  · rfl
  · cases hq

def Looked (g : Layout) (q : RxState) (frames : List Frame) (w : World) : Prop :=
  Taken g q frames w ∨ In g (· = .spoiled) w

theorem unseen_state {q : RxState} (hq : q.Found) {w : World} (h : Copied g q 2048 w) :
    Looked g q [] (w.log .unseen) := by
  have htrace {q' : RxState} (hnext : q.next .unseen = some q') :
      replay .unarmed (w.log .unseen).trace = some q' := by
    refine (replay_log _).trans ?_
    rw [h.asked.state.trace]
    exact hnext
  have hgot := h.got hq
  have hp := h.asked.state.phase
  cases hq with
  | unarmed =>
    have hhold := got_holding hgot hp.2.1
    exact Or.inl ⟨htrace rfl, ⟨⟨hhold.lists.rx, hhold.lists.tx⟩, hhold.disabled, hhold.desc,
      hhold.clean⟩, rfl⟩
  | waiting frames late =>
    exact Or.inr ⟨.spoiled, rfl, htrace rfl, hgot.mine.lists.rx, hgot.mine.lists.tx⟩

/-- The frames passed on are those that wait, unless there is no interrupt. -/
theorem ends_gethFrames {q : RxState} (hq : q.Found) :
    Ends (Copied g q 2048) (gethFrames H g) (Looked g q) := by
  refine (quiet_readl (quiet_copied (Nat.le_refl _)) _).bind fun v => ?_
  apply Ends.ite
  · intro _
    have hmark : Ends (Copied g q 2048) (mark fun _ => .unseen) fun _ => Looked g q [] :=
      fun w h => ⟨(), _, rfl, unseen_state hq h⟩
    exact hmark.bind fun _ => ends_pure fun _ h => h
  · intro _
    refine Ends.mono (P := Got g q) ?_ (fun w h => h.got hq) fun _ _ h => Or.inl h
    exact ends_dmaRxDisable.bind fun _ => ends_clearInt.bind fun _ => ends_gethTake

theorem taken_holding {q : RxState} (hq : q.Found) {frames : List Frame} {w : World}
    (h : Taken g q frames w) : InState g .holding (w.log (.take (shown frames))) := by
  have hnext : q.next (.take (shown frames)) = some .holding := by
    rw [h.due]
    cases hq with
    | unarmed => rfl
    | waiting frames' late => exact if_pos rfl
  refine ⟨?_, ⟨h.holding.lists.rx, h.holding.lists.tx⟩, h.holding.disabled, h.holding.desc,
    h.holding.clean⟩
  refine (replay_log _).trans ?_
  rw [h.trace]
  exact hnext

def Free (q : RxState) : Prop := q ≠ .holding

theorem closed_free : Closed Free := by
  rintro q q' hq (rfl | ⟨-, frames, rfl⟩)
  · exact hq
  · exact fun h => by cases h

theorem miss_state {q : RxState} {w : World} (h : InState g q w)
    (hq : q = .armed ∨ ∃ frames, q = .waiting frames true) : InState g q (w.log .miss) := by
  have hnext : q.next .miss = some q := by
    rcases hq with rfl | ⟨frames, rfl⟩
    · rfl
    · rfl
  refine h.still ⟨rfl, rfl, rfl, rfl, ?_, Mem.keeps_refl⟩
  refine (replay_log _).trans ?_
  rw [h.trace]
  exact hnext

section
variable {fuel lo hi now n : Nat} (hclock : ClockRuns H fuel lo hi)
  (hnow : now + n * (fuel + 1) ≤ hi) {stack : Frame → List Op} (hok : StackOk g n stack)

include hclock hnow hok

theorem ends_rest {q : RxState} (hq : q.Found) {frames : List Frame} (hone : frames.length ≤ 1) :
    Ends (fun w => Looked g q frames w ∧ Window lo now w) (do
      mark fun _ => .take (shown frames)
      frames.forM fun f => (stack f).forM fun op => op.run H g fuel
      gethFill H g
      mark fun _ => .fill) fun _ w => In g Free w ∧ Window lo (now + n * (fuel + 1)) w := by
  have hwindow := tame_window (H := H) lo (now + n * (fuel + 1))
  have htake : Ends (fun w => Taken g q frames w ∧ Window lo now w)
      (mark fun _ => .take (shown frames)) fun _ w => In g (· = .holding) w ∧ Window lo now w :=
    fun w h => ⟨(), _, rfl, ⟨.holding, rfl, taken_holding hq h.1⟩, h.2⟩
  have hfill : Ends (fun w => In g (· = .holding) w ∧ Window lo (now + n * (fuel + 1)) w) (do
      gethFill H g
      mark fun _ => .fill) fun _ w => In g Free w ∧ Window lo (now + n * (fuel + 1)) w := by
    have htime : Yields (Window lo (now + n * (fuel + 1))) (do
        gethFill H g
        mark fun _ => .fill) fun _ => Window lo (now + n * (fuel + 1)) :=
      hwindow.gethFill.bind fun _ => yields_mark fun _ h => h
    refine (ends_gethFill.both htime).mono ?_ ?_
    · rintro w ⟨⟨q, rfl, h⟩, ht⟩
      exact ⟨h, ht⟩
    · exact fun _ w h => ⟨⟨.armed, nofun, h.1⟩, h.2⟩
  rintro w ⟨h | h, ht⟩
  · exact (htake.bind fun _ => (ends_stack closed_holding hclock hnow hok hone).bind fun _ =>
      hfill) w ⟨h, ht⟩
  · obtain ⟨v, w', hrun, ⟨q', rfl, h'⟩, ht'⟩ := lost_rest hclock hnow hok hone w ⟨h, ht⟩
    exact ⟨v, w', hrun, ⟨.spoiled, nofun, h'⟩, ht'⟩

theorem ends_gethReceive {q : RxState} (hq : q.Found) :
    Ends (fun w => Asked g q w ∧ Window lo now w) (gethReceive H g fuel stack)
      fun _ w => In g Free w ∧ Window lo (now + n * (fuel + 1)) w := by
  have hwindow := tame_window (H := H) lo now
  have hframes := ((ends_gethFrames (H := H) (g := g) hq).both
    (hwindow.gethFrames fun _ h => h)).both
    gethFrames_length
  refine ((ends_invalidate q).both (hwindow.invalidate _ _)).bind fun _ =>
    ((ends_copyPacket q).both hwindow.copyPacket).bind fun _ =>
    (hframes.mono (fun _ h => ⟨h, trivial⟩) fun _ _ h => h).bind fun frames => ?_
  rintro w ⟨h, hone⟩
  exact ends_rest hclock hnow hok hq hone w h

/-- From an open mailbox: a miss, or the frame is taken, handed to the stack and the descriptor
given back. -/
theorem open_gethRecv :
    Ends (fun w => (∃ q, q.Open ∧ InState g q w) ∧ Window lo now w) (gethRecv H g fuel stack)
      fun _ w => In g Free w ∧ Window lo (now + n * (fuel + 1)) w := by
  have hwindow := tame_window (H := H) lo now
  have henter : Ends (fun w => ∃ q, q.Open ∧ InState g q w) (mark fun _ => .enter)
      fun _ w => ∃ q, q.Open ∧ InState g q w := by
    rintro w ⟨q, hq, h⟩
    obtain ⟨q', hq', h'⟩ := enter_state hq h
    exact ⟨(), _, rfl, q', hq', h'⟩
  refine (henter.both (yields_mark fun _ h => h)).bind fun _ =>
    (ends_lookUp.both (hwindow.invalidate _ _)).bind fun _ =>
    (ends_askWord.both (hwindow.loadWord _)).bind fun d => ?_
  apply Ends.ite
  · intro hown
    rintro w ⟨⟨q, h, hb⟩, ht⟩
    rw [if_pos hown] at hb
    refine ⟨(), _, rfl, ⟨q, ?_, miss_state h hb⟩, window_later ht (Nat.le_add_right _ _)⟩
    rcases hb with rfl | ⟨frames, rfl⟩
    · nofun
    · nofun
  · intro hown
    rintro w ⟨⟨q, h, hb⟩, ht⟩
    rw [if_neg hown] at hb
    exact ends_gethReceive hclock hnow hok hb.1 w ⟨hb.2, ht⟩

/-- One call of `geth_recv`, from any state between two calls. -/
theorem ends_gethRecv :
    Ends (fun w => In g Free w ∧ Window lo now w) (gethRecv H g fuel stack)
      fun _ w => In g Free w ∧ Window lo (now + n * (fuel + 1)) w := by
  rintro w ⟨⟨q, hq, h⟩, ht⟩
  have hopen (ho : q.Open) := open_gethRecv hclock hnow hok w ⟨⟨q, ho, h⟩, ht⟩
  cases q with
  | holding => exact absurd rfl hq
  | unarmed => exact hopen .unarmed
  | armed => exact hopen .armed
  | waiting frames late => exact hopen (.waiting frames late)
  | spoiled =>
    obtain ⟨v, w', hrun, ⟨q', rfl, h'⟩, ht'⟩ := lost_gethRecv hclock hnow hok w ⟨⟨_, rfl, h⟩, ht⟩
    exact ⟨v, w', hrun, ⟨.spoiled, hq, h'⟩, ht'⟩

end

end EmacDriver.Dma
