import EmacDriver.GethDma

namespace EmacDriver.Dma
open Bytes CacheMem Triples

variable {H : Machine} {g : Layout} {α : Type}

def takenFrames (trace : List Act) : List (List UInt8 × Int) :=
  trace.flatMap fun
    | .take frames => frames
    | _ => []

/-- The interrupts `geth_recv` looks for. -/
def raised (trace : List Act) : List (BitVec 32) :=
  trace.flatMap fun
    | .interrupt v => if v &&& 0x2300#32 = 0#32 then [] else [v]
    | _ => []

theorem takenFrames_append (trace : List Act) (a : Act) :
    takenFrames (trace ++ [a]) = takenFrames trace ++ takenFrames [a] := by
  simp [takenFrames]

theorem raised_append (trace : List Act) (a : Act) :
    raised (trace ++ [a]) = raised trace ++ raised [a] := by
  simp [raised]

/-- What the driver itself does: it clears interrupts, and looks at no clock. -/
structure Calm (w w' : World) : Prop where
  trace : w'.trace = w.trace
  timerReads : w'.timerReads = w.timerReads
  intSta : ∀ i, w'.intSta.getLsbD i = true → w.intSta.getLsbD i = true

theorem calm_same {w w' : World} (ht : w'.trace = w.trace) (hn : w'.timerReads = w.timerReads)
    (hi : w'.intSta = w.intSta) : Calm w w' :=
  ⟨ht, hn, fun i h => by rwa [hi] at h⟩

/-- Facts that hold on whatever the driver does to memory and to the engines. -/
structure Tame (H : Machine) (P : World → Prop) : Prop where
  before : ∀ w, P w → P (w.before H)
  calm : ∀ w w', P w → Calm w w' → P w'

variable {P : World → Prop}

theorem yields_mark {a : World → Act} {Q : World → Prop} (h : ∀ w, P w → Q (w.log (a w))) :
    Yields P (mark a) fun _ => Q := by
  intro w v w' hw' hrun
  cases hrun
  exact h w hw'

namespace Tame

theorem access (hP : Tame H P) {f : World → α × World} (hf : ∀ w, Calm w (f w).2) :
    Yields P (Dma.access H f) fun _ => P := by
  intro w v w' hw' hrun
  have hend : (f (w.before H)).2 = w' := congrArg Prod.snd (Option.some.inj hrun)
  subst hend
  exact hP.calm _ _ (hP.before w hw') (hf _)

theorem mem (hP : Tame H P) {v : World → α} {m : World → Mem UInt8} :
    Yields P (Dma.access H fun w => (v w, { w with mem := m w })) fun _ => P :=
  hP.access fun _ => calm_same rfl rfl rfl

theorem loadWord (hP : Tame H P) (a : Nat) : Yields P (loadWord H a) fun _ => P :=
  hP.mem.bind fun _ => hP.mem.bind fun _ => hP.mem.bind fun _ => hP.mem.bind fun _ =>
    yields_pure fun _ h => h

theorem store (hP : Tame H P) (a : Nat) (v : UInt8) :
    Yields P (storeByte H a v) fun _ => P := hP.mem

theorem stores (hP : Tame H P) (a n : Nat) (b : Nat → UInt8) :
    Yields P (upto (fun i => storeByte H (a + i) (b i)) n) fun _ => P :=
  Yields.upto fun _ => hP.store _ _

theorem readl (hP : Tame H P) (reg : Nat) : Yields P (readl H reg) fun _ => P :=
  hP.access fun _ => calm_same rfl rfl rfl

theorem writel (hP : Tame H P) (v : BitVec 32) (reg : Nat) :
    Yields P (writel H v reg) fun _ => P := by
  apply hP.access
  intro w
  by_cases hint : reg = gethIntSta
  · simp only [if_pos hint]
    refine ⟨rfl, rfl, ?_⟩
    intro i hi
    have hbit : (w.intSta &&& ~~~v).getLsbD i = true := hi
    rw [BitVec.getLsbD_and, Bool.and_eq_true] at hbit
    exact hbit.1
  · simp only [if_neg hint]
    split
    · exact calm_same rfl rfl rfl
    split
    · exact calm_same rfl rfl rfl
    split
    · exact calm_same rfl rfl rfl
    split
    · exact calm_same rfl rfl rfl
    · exact calm_same rfl rfl rfl

theorem dcacheRange (hP : Tame H P) (m : World → Nat → Mem UInt8) (stop : UInt64) {n : Nat}
    (i : UInt64) : Yields P (dcacheRange
      (fun k => Dma.access H fun w => ((), { w with mem := m w k })) stop n i) fun _ => P := by
  induction n generalizing i with
  | zero => exact yields_failure
  | succ n ih =>
    rw [Dma.dcacheRange]
    apply Yields.ite
    · exact fun _ => hP.mem.bind fun _ => ih _
    · exact fun _ => yields_pure fun _ h => h

theorem flush (hP : Tame H P) (start stop : UInt64) :
    Yields P (flushDcacheRange H start stop) fun _ => P := hP.dcacheRange _ _ _

theorem invalidate (hP : Tame H P) (start stop : UInt64) :
    Yields P (invalidateDcacheRange H start stop) fun _ => P := hP.dcacheRange _ _ _

theorem dmaRxEnable (hP : Tame H P) (en : Bool) : Yields P (dmaRxEnable H en) fun _ => P :=
  (hP.readl _).bind fun _ => hP.writel _ _

theorem dmaTxEnable (hP : Tame H P) (en : Bool) : Yields P (dmaTxEnable H en) fun _ => P :=
  (hP.readl _).bind fun _ => hP.writel _ _

theorem copyPacket (hP : Tame H P) : Yields P (copyPacket H g) fun _ => P := by
  apply Yields.upto
  intro i
  refine hP.mem.bind fun b => ?_
  intro w v w' hw' hrun
  cases hrun
  exact hP.calm w _ hw' (calm_same rfl rfl rfl)

theorem gethTake (hP : Tame H P) : Yields P (gethTake H g) fun _ => P := by
  refine (hP.loadWord _).bind fun d => ?_
  have hpass (frames : World → List Frame) : Yields P (fun w => some (frames w, w)) fun _ => P := by
    intro w v w' hw' hrun
    cases hrun
    exact hw'
  apply Yields.ite
  · exact fun _ => (hP.flush _ _).bind fun _ => hpass _
  · exact fun _ => (hP.stores _ _ _).bind fun _ => (hP.flush _ _).bind fun _ => hpass _

theorem gethFrames (hP : Tame H P) (hlog : ∀ w, P w → P (w.log .unseen)) :
    Yields P (gethFrames H g) fun _ => P := by
  refine (hP.readl _).bind fun v => ?_
  apply Yields.ite
  · exact fun _ => (yields_mark hlog).bind fun _ => yields_pure fun _ h => h
  · exact fun _ => (hP.dmaRxEnable false).bind fun _ => (hP.writel _ _).bind fun _ => hP.gethTake

theorem gethFill (hP : Tame H P) : Yields P (gethFill H g) fun _ => P :=
  (hP.stores _ 4 _).bind fun _ => (hP.stores _ 4 _).bind fun _ => (hP.loadWord _).bind fun _ =>
    (hP.stores _ 4 _).bind fun _ => (hP.stores _ 8 _).bind fun _ => (hP.flush _ _).bind fun _ =>
    (hP.writel _ _).bind fun _ => hP.dmaRxEnable true

end Tame

theorem event_timer (e : Event) (w : World) : (e.apply w).timerReads = w.timerReads := by
  cases e with
  | evict n => rfl
  | prefetch n => rfl
  | interrupt v => rfl
  | write m =>
    rw [Event.apply, World.written]
    split <;> rfl

theorem before_timer (w : World) : (w.before H).timerReads = w.timerReads := by
  have hfoldl (l : List Event) (w : World) :
      (l.foldl Event.apply w).timerReads = w.timerReads := by
    induction l generalizing w with
    | nil => rfl
    | cons e l ih => exact (ih _).trans (event_timer e w)
  exact hfoldl _ _

def Window (lo hi : Nat) (w : World) : Prop := lo ≤ w.timerReads ∧ w.timerReads ≤ hi

/-- What is below does not look at the clock. -/
theorem tame_window (lo hi : Nat) : Tame H (Window lo hi) where
  before w h := by
    rw [Window, before_timer]
    exact h
  calm w w' h hc := by
    rw [Window, hc.timerReads]
    exact h

end EmacDriver.Dma
