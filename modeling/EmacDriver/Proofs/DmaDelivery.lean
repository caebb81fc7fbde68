import EmacDriver.Proofs.DmaRuns

namespace EmacDriver.Dma
open Bytes CacheMem Triples

variable {H : Machine} {g : Layout} {α : Type}

structure Off (g : Layout) (w : World) : Prop where
  trace : replay .unarmed w.trace = some .unarmed
  rx : w.rxCtl1.getLsbD 30 = false
  tx : w.txCtl1.getLsbD 30 = false
  clean : ∀ a, g.InPacket a → w.mem.Clean (a / 64)

structure CacheOnly (w w' : World) : Prop where
  trace : replay .unarmed w'.trace = replay .unarmed w.trace
  rxCtl1 : w'.rxCtl1 = w.rxCtl1
  txCtl1 : w'.txCtl1 = w.txCtl1
  rxDescList : w'.rxDescList = w.rxDescList
  txDescList : w'.txDescList = w.txDescList
  mem : Mem.Keeps 64 (fun _ => True) w.mem w'.mem

theorem CacheOnly.trans {w w' w'' : World} (h : CacheOnly w w') (h' : CacheOnly w' w'') :
    CacheOnly w w'' where
  trace := h'.trace.trans h.trace
  rxCtl1 := h'.rxCtl1.trans h.rxCtl1
  txCtl1 := h'.txCtl1.trans h.txCtl1
  rxDescList := h'.rxDescList.trans h.rxDescList
  txDescList := h'.txDescList.trans h.txDescList
  mem := h.mem.trans h'.mem

theorem Off.cache {w w' : World} (h : Off g w) (hc : CacheOnly w w') : Off g w' where
  trace := hc.trace.trans h.trace
  rx := by
    rw [hc.rxCtl1]
    exact h.rx
  tx := by
    rw [hc.txCtl1]
    exact h.tx
  clean a ha := hc.mem.clean a trivial (h.clean a ha)

/-- With both engines off, only the cache does anything. -/
theorem off_event {w : World} (h : Off g w) (e : Event) : CacheOnly w (e.apply w) := by
  have hr : w.bus.receiving = false := by
    have hbus : w.bus.receiving = (w.rxCtl1.getLsbD 30 && w.rxDesc0.own) := rfl
    rw [hbus, h.rx, Bool.false_and]
  have hs : w.bus.sending = false := by
    have hbus : w.bus.sending = (w.txCtl1.getLsbD 30 && (desc0 w.mem.ram w.txDescList).own) := rfl
    rw [hbus, h.tx, Bool.false_and]
  cases e with
  | evict n => exact ⟨rfl, rfl, rfl, rfl, rfl, Mem.keeps_evict⟩
  | prefetch n => exact ⟨rfl, rfl, rfl, rfl, rfl, Mem.keeps_fill⟩
  | interrupt v => exact ⟨replay_interrupt v w.trace, rfl, rfl, rfl, rfl, Mem.keeps_refl⟩
  | write m =>
    rw [Event.apply, written_same fun hc => by rw [hr] at hc; exact Bool.false_ne_true hc.1]
    refine ⟨rfl, rfl, rfl, rfl, rfl, Mem.keeps_withRam fun a _ => ?_⟩
    apply m.elsewhere
    rintro (⟨hrx, -⟩ | ⟨htx, -⟩)
    · rw [hr] at hrx
      exact Bool.false_ne_true hrx
    · rw [hs] at htx
      exact Bool.false_ne_true htx

theorem off_before {w : World} (h : Off g w) : CacheOnly w (w.before H) := by
  have hfoldl (l : List Event) {w : World} (h : Off g w) :
      CacheOnly w (l.foldl Event.apply w) := by
    induction l generalizing w with
    | nil => exact ⟨rfl, rfl, rfl, rfl, rfl, Mem.keeps_refl⟩
    | cons e l ih =>
      have he := off_event h e
      exact he.trans (ih (h.cache he))
  have hnext : CacheOnly w { w with accesses := w.accesses + 1 } :=
    ⟨rfl, rfl, rfl, rfl, rfl, Mem.keeps_refl⟩
  exact hnext.trans (hfoldl _ (h.cache hnext))

def Zeroed (g : Layout) (n : Nat) (w : World) : Prop :=
  Off g w ∧ ∀ i < n, w.mem.Owned 64 (g.dmaDescRx.toNat + i) 0

theorem Zeroed.cache {n : Nat} {w w' : World} (h : Zeroed g n w) (hc : CacheOnly w w') :
    Zeroed g n w' :=
  ⟨h.1.cache hc, fun i hi => hc.mem.owned _ _ trivial (h.2 i hi)⟩

theorem zeroed_access {n : Nat} {Q : α → World → Prop} {f : World → α × World}
    (h : ∀ w, Zeroed g n w → Q (f w).1 (f w).2) : Ends (Zeroed g n) (access H f) Q :=
  fun _ hz => ⟨_, _, rfl, h _ (hz.cache (off_before hz.1))⟩

/-- A store beside the buffer, and beside what is cleared already. -/
theorem Zeroed.store {n a : Nat} {w : World} (h : Zeroed g n w) (v : UInt8)
    (ha : ∀ b, g.InPacket b → b / 64 ≠ a / 64)
    (hn : a < g.dmaDescRx.toNat ∨ g.dmaDescRx.toNat + n ≤ a) :
    Zeroed g n { w with mem := w.mem.store 64 a v } :=
  ⟨⟨h.1.trace, h.1.rx, h.1.tx, fun b hb => (Mem.store_clean_ne (ha b hb)).mpr (h.1.clean b hb)⟩,
    fun i hi => (h.2 i hi).store (by omega)⟩

theorem tx_apart {i : Nat} (hi : i < 64) (b : Nat) (hb : g.InPacket b) :
    b / 64 ≠ (g.dmaDescTx.toNat + i) / 64 := by
  have hline := g.packet_line
  have htx := g.tx_line
  have hapart := g.tx_packet
  rw [Layout.InPacket] at hb
  omega

theorem rx_apart {i : Nat} (hi : i < 64) (b : Nat) (hb : g.InPacket b) :
    b / 64 ≠ (g.dmaDescRx.toNat + i) / 64 := by
  have hline := g.packet_line
  have hrx := g.rx_line
  have hapart := g.rx_packet
  rw [Layout.InPacket] at hb
  omega

theorem tx_rx_apart {i j : Nat} (hi : i < 64) (hj : j ≤ 64) :
    g.dmaDescTx.toNat + i < g.dmaDescRx.toNat ∨ g.dmaDescRx.toNat + j ≤ g.dmaDescTx.toNat + i := by
  have hrx := g.rx_line
  have htx := g.tx_line
  have hne : g.dmaDescRx.toNat ≠ g.dmaDescTx.toNat := fun he => g.rx_tx (UInt64.toNat_inj.mp he)
  omega

theorem zeroed_txStores {n o k : Nat} (hn : n ≤ 64) (ho : o + k ≤ 64) (b : Nat → UInt8) :
    Ends (Zeroed g n) (upto (fun i => storeByte H (g.dmaDescTx.toNat + o + i) (b i)) k)
      fun _ => Zeroed g n := by
  apply Ends.upto (I := fun _ => Zeroed g n)
  intro i hi
  apply zeroed_access
  intro w h
  rw [Nat.add_assoc]
  exact h.store (b i) (tx_apart (by omega)) (tx_rx_apart (by omega) hn)

theorem zeroed_rxStores :
    Ends (Zeroed g 0) (upto (fun i => storeByte H (g.dmaDescRx.toNat + i) 0) 24)
      fun _ => Zeroed g 24 := by
  apply Ends.upto (I := Zeroed g)
  intro i hi
  apply zeroed_access
  intro w h
  have hstore := h.store 0 (rx_apart (by omega)) (Or.inr (Nat.le_refl _))
  refine ⟨hstore.1, ?_⟩
  intro j hj
  by_cases he : j = i
  · subst he
    exact Mem.owned_store
  · exact hstore.2 j (Nat.lt_of_le_of_ne (Nat.le_of_lt_succ hj) he)

theorem zeroed_rxNext :
    Ends (Zeroed g 16) (storeLong H (g.dmaDescRx.toNat + 16) g.dmaDescRx)
      fun _ => Zeroed g 16 := by
  apply Ends.upto (I := fun _ => Zeroed g 16)
  intro i hi
  apply zeroed_access
  intro w h
  rw [Nat.add_assoc]
  exact h.store _ (rx_apart (by omega)) (Or.inr (by omega))

structure Started (g : Layout) (w : World) : Prop where
  off : Off g w
  lists : Lists g w
  clean : w.mem.Clean (g.dmaDescRx.toNat / 64)
  zero : ∀ i < 4, w.mem.ram (g.dmaDescRx.toNat + i) = 0

theorem Started.state {w : World} (h : Started g w) : InState g .unarmed w := by
  have hzero : w.rxDesc0 = ⟨0⟩ := by
    have hword : load32 w.mem.ram g.dmaDescRx.toNat = load32 (fun _ => 0) 0 :=
      load32_congr h.zero
    rw [World.rxDesc0, desc0, h.lists.rx, g.rxList_toNat, hword]
    rfl
  refine ⟨h.off.trace, ⟨h.lists, ?_, ?_⟩, h.off.rx, hzero⟩
  · rintro a (ha | ha)
    · rw [desc_line ha]
      exact h.clean
    · exact h.off.clean a ha
  · rw [hzero]
    decide

theorem zeroed_txFlush :
    Ends (Zeroed g 16) (flushCache H g.dmaDescTx 64) fun _ => Zeroed g 16 := by
  rw [flushCache, flushDcacheRange, line_range _ g.tx_line g.tx_low]
  exact Ends.forM fun _ _ => zeroed_access fun w h =>
    h.cache ⟨rfl, rfl, rfl, rfl, rfl, Mem.keeps_clean⟩

theorem zeroed_rxFlush :
    Ends (Zeroed g 16) (flushCache H g.dmaDescRx 64)
      fun _ w => Zeroed g 16 w ∧ w.mem.Clean (g.dmaDescRx.toNat / 64) := by
  rw [flushCache, flushDcacheRange, desc_range]
  have hone : Ends (Zeroed g 16)
      (access H fun w => ((), { w with mem := w.mem.clean 64 (g.dmaDescRx.toNat / 64) }))
      fun _ w => Zeroed g 16 w ∧ w.mem.Clean (g.dmaDescRx.toNat / 64) :=
    zeroed_access fun w h =>
      ⟨h.cache ⟨rfl, rfl, rfl, rfl, rfl, Mem.keeps_clean⟩, Mem.clean_self⟩
  exact hone.bind fun _ => ends_pure fun _ h => h

/-- The end of `geth_init`, from whatever is in memory. -/
theorem ends_gethInitDescs :
    Ends (Off g) (gethInitDescs H g) fun _ => Started g := by
  have hstart : ∀ w, Off g w → Zeroed g 0 w :=
    fun w h => ⟨h, fun i hi => absurd hi (Nat.not_lt_zero i)⟩
  have hfewer : ∀ (u : Unit) w, Zeroed g 24 w → Zeroed g 16 w :=
    fun _ w h => ⟨h.1, fun i hi => h.2 i (by omega)⟩
  have htxList : Ends (fun w => Zeroed g 16 w ∧ w.mem.Clean (g.dmaDescRx.toNat / 64))
      (writel H (g.dmaDescTx.toBitVec.setWidth 32) gethTxDescList)
      fun _ w => (Zeroed g 16 w ∧ w.mem.Clean (g.dmaDescRx.toNat / 64)) ∧
        w.txDescList = g.txList := by
    rintro w ⟨h, hclean⟩
    have hc := off_before (H := H) h.1
    have hz := h.cache hc
    exact ⟨(), _, rfl, ⟨⟨⟨hz.1.trace, hz.1.rx, hz.1.tx, hz.1.clean⟩, hz.2⟩,
      hc.mem.clean g.dmaDescRx.toNat trivial hclean⟩, rfl⟩
  have hrxList : Ends (fun w => (Zeroed g 16 w ∧ w.mem.Clean (g.dmaDescRx.toNat / 64)) ∧
      w.txDescList = g.txList)
      (writel H (g.dmaDescRx.toBitVec.setWidth 32) gethRxDescList) fun _ => Started g := by
    rintro w ⟨⟨h, hclean⟩, hlist⟩
    have hc := off_before (H := H) h.1
    have hz := h.cache hc
    have hline : (w.before H).mem.Clean (g.dmaDescRx.toNat / 64) :=
      hc.mem.clean g.dmaDescRx.toNat trivial hclean
    refine ⟨(), _, rfl, ⟨hz.1.trace, hz.1.rx, hz.1.tx, hz.1.clean⟩,
      ⟨rfl, hc.txDescList.trans hlist⟩, hline, ?_⟩
    intro i hi
    apply (hz.2 i (by omega)).back
    rw [desc_line (g.inDesc_of_lt (by omega))]
    exact hline
  exact ((zeroed_txStores (o := 0) (by decide) (by decide) _).mono hstart fun _ _ h => h).bind
    fun _ => zeroed_rxStores.bind fun _ =>
    ((zeroed_txStores (n := 24) (by decide) (by decide) _).mono (fun _ h => h) hfewer).bind
    fun _ => zeroed_rxNext.bind fun _ => zeroed_txFlush.bind fun _ =>
    zeroed_rxFlush.bind fun _ => htxList.bind fun _ => hrxList

/-- A spoiled mailbox stays so. -/
theorem next_spoiled {a : Act} {q : RxState} (h : RxState.spoiled.next a = some q) :
    q = .spoiled := by
  cases h
  rfl

theorem replay_spoiled {trace : List Act} {q : RxState} (h : replay .spoiled trace = some q) :
    q = .spoiled := by
  induction trace with
  | nil =>
    cases h
    rfl
  | cons a trace ih => exact ih h

/-- The other acts move no frame. -/
theorem next_due {q q' : RxState} {a : Act} (h : q.next a = some q') (hs : q' ≠ .spoiled)
    (hc : ∀ st buf, a ≠ .complete st buf) (ht : ∀ frames, a ≠ .take frames) : q'.due = q.due := by
  cases a with
  | complete st buf => exact absurd rfl (hc st buf)
  | take frames => exact absurd rfl (ht frames)
  | interrupt v => cases q <;> cases h <;> rfl
  | enter => cases q <;> cases h <;> rfl
  | miss =>
    cases q with
    | waiting frames late => cases late <;> cases h; rfl
    | _ => cases h <;> rfl
  | unseen =>
    cases q with
    | waiting frames late =>
      cases h
      exact absurd rfl hs
    | _ => cases h <;> rfl
  | fill => cases q <;> cases h <;> rfl

/-- What an act adds to the frames completed, and to those taken. -/
theorem next_balance {q q' : RxState} {a : Act} (h : q.next a = some q') (hs : q' ≠ .spoiled) :
    q.due ++ completedFrames [a] = takenFrames [a] ++ q'.due := by
  have hother (hc : ∀ st buf, a ≠ .complete st buf) (ht : ∀ frames, a ≠ .take frames)
      (hnone : completedFrames [a] = [] ∧ takenFrames [a] = []) :
      q.due ++ completedFrames [a] = takenFrames [a] ++ q'.due := by
    rw [hnone.1, hnone.2, List.append_nil, List.nil_append, next_due h hs hc ht]
  cases a with
  | complete st buf =>
    cases q with
    | armed =>
      cases h
      exact List.append_nil _
    | spoiled => exact absurd (next_spoiled h) hs
    | _ => cases h
  | take frames =>
    have htake : takenFrames [.take frames] = frames := List.append_nil frames
    cases q with
    | unarmed =>
      obtain ⟨rfl, hq⟩ := Option.ite_none_right_eq_some.mp h
      cases hq
      rfl
    | waiting frames' late =>
      obtain ⟨rfl, hq⟩ := Option.ite_none_right_eq_some.mp h
      cases hq
      rw [htake]
      rfl
    | spoiled => exact absurd (next_spoiled h) hs
    | _ => cases h
  | interrupt v =>
    exact hother (fun _ _ => Act.noConfusion) (fun _ => Act.noConfusion) ⟨rfl, rfl⟩
  | enter => exact hother (fun _ _ => Act.noConfusion) (fun _ => Act.noConfusion) ⟨rfl, rfl⟩
  | miss => exact hother (fun _ _ => Act.noConfusion) (fun _ => Act.noConfusion) ⟨rfl, rfl⟩
  | unseen => exact hother (fun _ _ => Act.noConfusion) (fun _ => Act.noConfusion) ⟨rfl, rfl⟩
  | fill => exact hother (fun _ _ => Act.noConfusion) (fun _ => Act.noConfusion) ⟨rfl, rfl⟩

/-- What was waiting or has been completed was taken, or is still to be taken. -/
theorem replay_balance {trace : List Act} {q q' : RxState} (h : replay q trace = some q')
    (hs : q' ≠ .spoiled) :
    q.due ++ completedFrames trace = takenFrames trace ++ q'.due := by
  induction trace generalizing q with
  | nil =>
    cases h
    exact List.append_nil _
  | cons a trace ih =>
    obtain ⟨q₁, hstep, hrest⟩ : ∃ q₁, q.next a = some q₁ ∧ replay q₁ trace = some q' :=
      Option.bind_eq_some_iff.mp h
    have hs₁ : q₁ ≠ .spoiled := by
      rintro rfl
      exact hs (replay_spoiled hrest)
    have hfirst := next_balance hstep hs₁
    have hcomp : completedFrames (a :: trace) = completedFrames [a] ++ completedFrames trace := by
      simp [completedFrames]
    have htake : takenFrames (a :: trace) = takenFrames [a] ++ takenFrames trace := by
      simp [takenFrames]
    rw [hcomp, htake, ← List.append_assoc, hfirst, List.append_assoc, ih hrest, List.append_assoc]

def Step.Ok (g : Layout) (n : Nat) : Step → Prop
  | recv stack => StackOk g n stack
  | call op => op.Ok g
  | wait => True

def looks (fuel n k : Nat) : Nat := k * ((n + 1) * (fuel + 1))

theorem looks_succ (fuel n k : Nat) :
    looks fuel n (k + 1) = looks fuel n k + (n * (fuel + 1) + (fuel + 1)) := by
  rw [looks, looks, Nat.succ_mul, Nat.succ_mul n]

theorem looks_le {fuel n k k' : Nat} (h : k ≤ k') : looks fuel n k ≤ looks fuel n k' :=
  Nat.mul_le_mul_right _ h

theorem ends_step {fuel lo hi now n : Nat} (hclock : ClockRuns H fuel lo hi)
    (hnow : now + (n * (fuel + 1) + (fuel + 1)) ≤ hi) {step : Step} (hok : step.Ok g n) :
    Ends (fun w => In g Free w ∧ Window lo now w) (step.run H g fuel)
      fun _ w => In g Free w ∧ Window lo (now + (n * (fuel + 1) + (fuel + 1))) w := by
  have hlater {now' : Nat} (hle : now' ≤ now + (n * (fuel + 1) + (fuel + 1))) (w : World)
      (h : In g Free w ∧ Window lo now' w) :
      In g Free w ∧ Window lo (now + (n * (fuel + 1) + (fuel + 1))) w :=
    ⟨h.1, window_later h.2 hle⟩
  cases step with
  | recv stack =>
    have hroom : now + n * (fuel + 1) ≤ hi := by omega
    refine (ends_gethRecv hclock hroom hok).mono (fun _ h => h) ?_
    exact fun _ => hlater (by omega)
  | call op =>
    have hroom : now < hi := by omega
    refine (ends_op closed_free hclock hroom hok).mono (fun _ h => h) ?_
    exact fun _ => hlater (by omega)
  | wait =>
    refine ((closed_free.bears.window lo now).access fun _ _ => ⟨still_refl, rfl⟩).mono
      (fun _ h => h) ?_
    exact fun _ => hlater (Nat.le_add_right _ _)

theorem ends_gethInitDescs_time (lo hi : Nat) :
    Yields (Window lo hi) (gethInitDescs H g) fun _ => Window lo hi := by
  have hP := tame_window (H := H) lo hi
  exact (hP.stores _ 24 _).bind fun _ => (hP.stores _ 24 _).bind fun _ =>
    (hP.stores _ 8 _).bind fun _ => (hP.stores _ 8 _).bind fun _ => (hP.flush _ _).bind fun _ =>
    (hP.flush _ _).bind fun _ => (hP.writel _ _).bind fun _ => hP.writel _ _

/-- By induction on the steps: each takes the looks at the timer it may take, and leaves the
mailbox in one of its states. -/
theorem run_state {fuel n lo : Nat} (steps : List Step) (hok : ∀ step ∈ steps, step.Ok g n)
    (w : World) (h : Off g w) (hlo : w.timerReads = lo) {hi : Nat}
    (hclock : ClockRuns H fuel lo hi) (hroom : lo + looks fuel n steps.length ≤ hi) :
    ∃ w' q, (do gethInitDescs H g; steps.forM fun step => step.run H g fuel).run w =
        some ((), w') ∧ q ≠ .holding ∧ InState g q w' ∧
      Window lo (lo + looks fuel n steps.length) w' := by
  have hinit : Ends (fun w => Off g w ∧ Window lo lo w) (gethInitDescs H g)
      fun _ w => In g Free w ∧ Window lo (lo + looks fuel n 0) w := by
    refine (ends_gethInitDescs.both (ends_gethInitDescs_time lo lo)).mono (fun _ h => h) ?_
    rintro _ u ⟨hs, ht⟩
    exact ⟨⟨.unarmed, nofun, hs.state⟩, window_later ht (Nat.le_add_right _ _)⟩
  have hsteps : Ends (fun w => In g Free w ∧ Window lo (lo + looks fuel n 0) w)
      (steps.forM fun step => step.run H g fuel)
      fun _ w => In g Free w ∧ Window lo (lo + looks fuel n (0 + steps.length)) w := by
    apply Ends.forM_count (I := fun k w => In g Free w ∧ Window lo (lo + looks fuel n k) w)
    intro step hs k _ hk
    have hstep := looks_succ fuel n k
    have hle : looks fuel n (k + 1) ≤ looks fuel n steps.length := looks_le (by omega)
    have hnow : lo + looks fuel n k + (n * (fuel + 1) + (fuel + 1)) ≤ hi := by omega
    have hrun := ends_step hclock hnow (hok step hs)
    rwa [Nat.add_assoc lo, ← hstep] at hrun
  rw [Nat.zero_add] at hsteps
  obtain ⟨_, w', hrun, ⟨q, hfree, hstate⟩, ht⟩ := (hinit.bind fun _ => hsteps) w
    ⟨h, Nat.le_of_eq hlo.symm, Nat.le_of_eq hlo⟩
  exact ⟨w', q, hrun, hfree, hstate, ht⟩

def uptime (H : Machine) (m : Nat) : Nat := (H.readTimer m).toNat / 24000

theorem toNat_ofInt_small {n : Nat} (h : n < 2147483648) :
    (UInt64.ofInt (toInt (n : Int))).toNat = n := by
  rw [toInt_of_range (by omega) (by omega), UInt64.ofInt, UInt64.toNat_ofNat']
  omega

theorem timerAt_toNat {m : Nat} (h : uptime H m < 2147483648) :
    (timerAt H m).toNat = uptime H m := by
  have hdiv : (H.readTimer m / 24000).toNat = uptime H m := UInt64.toNat_div ..
  rw [timerAt, runtimeTick, hdiv]
  exact toNat_ofInt_small h

theorem xmitTmo_toNat {t : UInt64} (h : t.toNat + 5000 < 2147483648) :
    (xmitTmo t).toNat = t.toNat + 5000 := by
  have hadd : (t + 5 * 1000).toNat = t.toNat + 5000 := by
    rw [UInt64.toNat_add]
    simp only [UInt64.reduceMul, UInt64.reduceToNat]
    omega
  rw [xmitTmo, hadd]
  exact toNat_ofInt_small h

/-- In the first 24 days any clock runs on which `fuel` looks see five seconds pass. -/
theorem clockRuns_of_uptime {fuel lo hi : Nat}
    (hpass : ∀ m, lo ≤ m → m < hi → ∃ k < fuel, uptime H m + 5000 < uptime H (m + 1 + k) ∧
      uptime H (m + 1 + k) < 2147483648) : ClockRuns H fuel lo hi := by
  intro m hlo hhi
  obtain ⟨k, hk, hpassed, hsmall⟩ := hpass m hlo hhi
  refine ⟨k, hk, UInt64.lt_iff_toNat_lt.mpr ?_⟩
  have hnow := timerAt_toNat (H := H) (m := m) (by omega)
  rw [xmitTmo_toNat (by omega), hnow, timerAt_toNat hsmall]
  exact hpassed

def threeBlocks : Layout where
  dmaDescRx := 0x40000040
  dmaDescTx := 0x40000000
  rxPacket := 0x40000080
  rx_line := by decide
  tx_line := by decide
  packet_line := by decide
  rx_low := by decide
  tx_low := by decide
  packet_low := by decide
  rx_tx := by decide
  rx_packet := by decide
  tx_packet := by decide

instance (p : BitVec 32) (a : Nat) : Decidable (InWords p a) := inferInstanceAs (Decidable (_ ∧ _))

def firstByte (v : UInt8) : MacWrite where
  ram b :=
    if b.receiving = true ∧ 0 < descSize b.ram b.rxDescList ∧
        ¬InWords b.rxDescList (descBuf b.ram b.rxDescList) then
      store8 b.ram (descBuf b.ram b.rxDescList) v
    else b.ram
  elsewhere b a ha := by
    split
    · rename_i hwrite
      apply store8_off
      rintro rfl
      exact ha (Or.inl ⟨hwrite.1, Or.inr ⟨Nat.le_refl _, Nat.lt_add_of_pos_right hwrite.2.1⟩⟩)
    · rfl
  kept b _ _ a ha := by
    split
    · rename_i hwrite
      apply store8_off
      rintro rfl
      exact hwrite.2.2 ha
    · rfl

def givenBack (st : BitVec 32) (b : Bus) : Buf :=
  if b.receiving = true then
    store32 b.ram b.rxDescList.toNat (UInt32.ofBitVec (st &&& 0x7fffffff))
  else b.ram

theorem givenBack_elsewhere (st : BitVec 32) (b : Bus) (a : Nat) (ha : ¬b.Writable a) :
    givenBack st b a = b.ram a := by
  rw [givenBack]
  split
  · rename_i hrec
    apply patch_off
    have hout : ¬InWords b.rxDescList a := fun hin => ha (Or.inl ⟨hrec, Or.inl hin⟩)
    rw [InWords] at hout
    omega
  · rfl

theorem givenBack_own (st : BitVec 32) {b : Bus} (hrec : b.receiving = true) :
    (desc0 (givenBack st b) b.rxDescList).own = false := by
  rw [givenBack, if_pos hrec, desc0, load32_store32]
  simp [Desc0.own]

def giveBack (st : BitVec 32) : MacWrite where
  ram := givenBack st
  elsewhere := givenBack_elsewhere st
  kept _ hrec hown := absurd hown (Bool.eq_false_iff.mp (givenBack_own st hrec))

/-- One frame comes after the first look for one, and its interrupt later, while the driver
looks again. The clock is even, with a look a second. -/
def oneFrame : Machine where
  events n :=
    if n = 2182 then [.write (firstByte 0xff), .write (giveBack 0x00400320#32)]
    else if n = 2190 then [.interrupt 0x100#32]
    else []
  readTimer m := UInt64.ofNat (24000000 * m)
  txDmaSta _ := 0

theorem oneFrame_uptime {m : Nat} (h : m < 1000) : uptime oneFrame m = 1000 * m := by
  have hread : (oneFrame.readTimer m).toNat = 24000000 * m := by
    rw [oneFrame, UInt64.toNat_ofNat']
    omega
  rw [uptime, hread]
  omega

theorem oneFrame_clock {hi : Nat} (h : hi < 990) : ClockRuns oneFrame 6 0 hi := by
  apply clockRuns_of_uptime
  intro m _ hm
  refine ⟨5, by decide, ?_⟩
  rw [oneFrame_uptime (by omega), oneFrame_uptime (by omega)]
  omega

def poweredUp : World :=
  ⟨⟨fun _ => 0xaa, fun _ => none⟩, 0, 0, 0, 0, 0, fun _ => 0, 0, 0, []⟩

theorem poweredUp_off : Off threeBlocks poweredUp :=
  ⟨rfl, rfl, rfl, fun _ _ => Mem.clean_none rfl⟩

end EmacDriver.Dma
