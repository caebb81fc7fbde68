import EmacDriver.Proofs.DmaDelivery

namespace EmacDriver.Dma
open Bytes CacheMem Triples

variable {H : Machine} {g : Layout} {ints : List (BitVec 32)} {R R' : World → Prop}

/-- `R` holds unless an interrupt came that was not among `ints`. -/
def Unless (ints : List (BitVec 32)) (R : World → Prop) (w : World) : Prop :=
  ints <+: raised w.trace ∧ (raised w.trace = ints → R w)

/-- Facts no event changes but such an interrupt. -/
structure Quiescent (R : World → Prop) : Prop where
  event : ∀ w (e : Event), R w → (∀ v, e = .interrupt v → v &&& 0x2300#32 = 0#32) →
    R (e.apply w)
  calm : ∀ w w', R w → Calm w w' → R w'
  tick : ∀ w, R w → R { w with timerReads := w.timerReads + 1 }

theorem raised_event (e : Event) (w : World) :
    raised (e.apply w).trace = raised w.trace ++ raised
      (match e with
        | .interrupt v => [.interrupt v]
        | _ => []) := by
  have hnone : raised w.trace = raised w.trace ++ raised [] := (List.append_nil _).symm
  cases e with
  | evict n => exact hnone
  | prefetch n => exact hnone
  | interrupt v => exact raised_append w.trace (.interrupt v)
  | write m =>
    rw [Event.apply, World.written]
    split
    · exact (raised_append w.trace _).trans rfl
    · exact hnone

/-- Another interrupt ends the promise; nothing else breaks it. -/
theorem Unless.event (hR : Quiescent R) {w : World} (h : Unless ints R w) (e : Event) :
    Unless ints R (e.apply w) := by
  have hgrow := raised_event e w
  have hpre : raised w.trace <+: raised (e.apply w).trace := by
    rw [hgrow]
    exact List.prefix_append _ _
  refine ⟨h.1.trans hpre, ?_⟩
  intro hsame
  have hback : raised w.trace = ints := by
    rw [hsame] at hpre
    exact (hpre.eq_of_length_le h.1.length_le)
  apply hR.event w e (h.2 hback)
  rintro v rfl
  rw [hsame, hback] at hgrow
  have hno : raised [.interrupt v] = [] := List.append_right_eq_self.mp hgrow.symm
  by_cases hv : v &&& 0x2300#32 = 0#32
  · exact hv
  · simp [raised, hv] at hno

theorem Quiescent.tame (hR : Quiescent R) : Tame H (Unless ints R) where
  before w h := by
    have hfoldl (l : List Event) (w : World) (h : Unless ints R w) :
        Unless ints R (l.foldl Event.apply w) := by
      induction l generalizing w with
      | nil => exact h
      | cons e l ih => exact ih _ (h.event hR e)
    exact hfoldl _ _ ⟨h.1, fun hsame => hR.calm _ _ (h.2 hsame) (calm_same rfl rfl rfl)⟩
  calm w w' h hc := by
    rw [Unless, hc.trace]
    exact ⟨h.1, fun hsame => hR.calm w w' (h.2 hsame) hc⟩

theorem Unless.imp {w : World} (h : Unless ints R w) (hR : R w → R' w) : Unless ints R' w :=
  ⟨h.1, fun hsame => hR (h.2 hsame)⟩

theorem Unless.log {w : World} {a : Act} (h : Unless ints R w) (ha : raised [a] = [])
    (hR : R w → R' (w.log a)) : Unless ints R' (w.log a) := by
  have hsame : raised (w.log a).trace = raised w.trace := by
    refine (raised_append w.trace a).trans ?_
    rw [ha, List.append_nil]
  rw [Unless, hsame]
  exact ⟨h.1, fun hi => hR (h.2 hi)⟩

theorem yields_tick (hR : Quiescent R) :
    Yields (Unless ints R) (getTimer H) fun _ => Unless ints R := by
  intro w t w' h hrun
  have hend : { w with timerReads := w.timerReads + 1 } = w' :=
    congrArg Prod.snd (Option.some.inj hrun)
  rw [← hend]
  exact ⟨h.1, fun hsame => hR.tick w (h.2 hsame)⟩

theorem yields_xmitWait (hR : Quiescent R) (stat : BitVec 32) (tmo : UInt64) (fuel : Nat) :
    Yields (Unless ints R) (xmitWait H g stat tmo fuel) fun _ => Unless ints R := by
  induction fuel with
  | zero => exact yields_failure
  | succ fuel ih =>
    refine (hR.tame.loadWord _).bind fun d => ?_
    apply Yields.ite
    · refine fun _ => (yields_tick hR).bind fun t => ?_
      apply Yields.ite
      · exact fun _ => yields_pure fun _ h => h
      · exact fun _ => ih
    · exact fun _ => yields_pure fun _ h => h

/-- `geth_xmit`, with what its reading of the interrupts and its writing back do. -/
theorem yields_gethXmit (hR : Quiescent R) (hR' : Quiescent R') {fuel : Nat} {packet : UInt64}
    {length : Int}
    (hclear : ∀ v, Yields (fun w => Unless ints R w ∧ w.intSta = v)
      (writel H (v ||| 0x3f) gethIntSta) fun _ => Unless ints R') :
    Yields (Unless ints R) (gethXmit H g fuel packet length) fun _ => Unless ints R' := by
  have hP : Tame H (Unless ints R) := hR.tame
  have hP' : Tame H (Unless ints R') := hR'.tame
  have hread : Yields (Unless ints R) (readl H gethIntSta)
      fun v w => Unless ints R w ∧ w.intSta = v := by
    intro w v w' h hrun
    cases hrun
    exact ⟨hP.before w h, rfl⟩
  exact (hP.readl _).bind fun _ => (yields_tick hR).bind fun _ =>
    (yields_xmitWait hR _ _ _).bind fun _ => (hP.dmaTxEnable false).bind fun _ =>
    hread.bind fun v => (hclear v).bind fun _ =>
    (hP'.stores _ 4 _).bind fun _ => (hP'.stores _ 4 _).bind fun _ =>
    (hP'.loadWord _).bind fun _ => (hP'.stores _ 4 _).bind fun _ =>
    (hP'.stores _ 8 _).bind fun _ => (hP'.flush _ _).bind fun _ => (hP'.flush _ _).bind fun _ =>
    (hP'.readl _).bind fun _ => (hP'.writel _ _).bind fun _ => (hP'.writel _ _).bind fun _ =>
    hP'.dmaTxEnable true

theorem yields_op (hR : Quiescent R) (fuel : Nat) (op : Op) :
    Yields (Unless ints R) (op.run H g fuel) fun _ => Unless ints R := by
  cases op with
  | xmit packet length =>
    exact yields_gethXmit hR hR fun v =>
      (hR.tame.writel _ _).mono (fun _ h => h.1) fun _ _ h => h
  | store a v => exact hR.tame.store a v

/-- The rules of the mailbox lead to `q`, if they are kept. -/
def Due (q : RxState) (w : World) : Prop := ∀ q', replay .unarmed w.trace = some q' → q' = q

theorem Due.log {q q₂ : RxState} {w : World} {a : Act} (h : Due q w)
    (hnext : ∀ q', q.next a = some q' → q' = q₂) : Due q₂ (w.log a) := by
  intro q' hq'
  obtain ⟨q₁, hq₁, hstep⟩ := Option.bind_eq_some_iff.mp ((replay_log a).symm.trans hq')
  rw [h q₁ hq₁] at hstep
  exact hnext q' hstep

/-- Nothing is taken any more, the interrupts `geth_recv` looks for are among `seen`, and the
mailbox is in the state `q`. -/
structure Dull (taken : List (List UInt8 × Int)) (seen : BitVec 32) (q : RxState) (w : World) :
    Prop where
  taken : takenFrames w.trace = taken
  seen : ∀ i, (0x2300#32).getLsbD i = true → w.intSta.getLsbD i = true → seen.getLsbD i = true
  due : Due q w

variable {taken : List (List UInt8 × Int)} {seen : BitVec 32} {q : RxState}

theorem Dull.log {w : World} {a : Act} {q₂ : RxState} (h : Dull taken seen q w)
    (ha : takenFrames [a] = []) (hnext : ∀ q', q.next a = some q' → q' = q₂) :
    Dull taken seen q₂ (w.log a) := by
  refine ⟨?_, h.seen, h.due.log hnext⟩
  refine (takenFrames_append w.trace a).trans ?_
  rw [ha, List.append_nil]
  exact h.taken

def RxState.Kept (q : RxState) : Prop :=
  ∀ st buf q', q.next (.complete st buf) = some q' → q' = q

/-- With nothing to give back, only such an interrupt counts. -/
theorem quiescent_dull (hq : q.Kept) : Quiescent (Dull taken seen q) where
  event := by
    rintro w e ⟨ht, hs, hd⟩ hint
    cases e with
    | evict n => exact ⟨ht, hs, hd⟩
    | prefetch n => exact ⟨ht, hs, hd⟩
    | write m =>
      rw [Event.apply, World.written]
      split
      · exact Dull.log (w := { w with mem := w.mem.withRam (m.ram w.bus) }) ⟨ht, hs, hd⟩ rfl
          (hq _ _)
      · exact ⟨ht, hs, hd⟩
    | interrupt v =>
      have hwith : Dull taken seen q { w with intSta := w.intSta ||| v } := by
        refine ⟨ht, ?_, hd⟩
        intro i hi hbit
        have hsplit : (w.intSta ||| v).getLsbD i = true := hbit
        have hnone := congrArg (BitVec.getLsbD · i) (hint v rfl)
        simp only [BitVec.getLsbD_and, hi, Bool.and_true, BitVec.getLsbD_zero] at hnone
        rw [BitVec.getLsbD_or, hnone, Bool.or_false] at hsplit
        exact hs i hi hsplit
      have hnext : ∀ q', q.next (.interrupt v) = some q' → q' = q := by
        intro q' hq'
        cases q <;> cases hq' <;> rfl
      exact hwith.log rfl hnext
  calm := by
    rintro w w' ⟨ht, hs, hd⟩ hc
    refine ⟨(congrArg takenFrames hc.trace).trans ht, fun i hi hb => hs i hi (hc.intSta i hb), ?_⟩
    intro q' hq'
    rw [hc.trace] at hq'
    exact hd q' hq'
  tick _ h := ⟨h.taken, h.seen, h.due⟩

theorem kept_waiting (frames : List (List UInt8 × Int)) (late : Bool) :
    (RxState.waiting frames late).Kept := fun _ _ _ h => by cases h

theorem kept_spoiled : RxState.spoiled.Kept := fun _ _ _ h => by cases h; rfl

/-- What is written back is what was read: all that `geth_recv` could see is cleared. -/
theorem yields_clear (hq : q.Kept) (v : BitVec 32) :
    Yields (fun w => Unless ints (Dull taken seen q) w ∧ w.intSta = v)
      (writel H (v ||| 0x3f) gethIntSta) fun _ => Unless ints (Dull taken 0 q) := by
  rintro w u w' ⟨h, rfl⟩ hrun
  have hnow : Unless ints (Dull taken w.intSta q) w :=
    h.imp fun hd => ⟨hd.taken, fun _ _ hb => hb, hd.due⟩
  have hb := (quiescent_dull hq).tame.before (H := H) w hnow
  cases hrun
  refine ⟨hb.1, fun hsame => ⟨(hb.2 hsame).taken, ?_, (hb.2 hsame).due⟩⟩
  intro i hi hbit
  have hleft : ((w.before H).intSta &&& ~~~(w.intSta ||| 0x3f#32)).getLsbD i = true := hbit
  rw [BitVec.getLsbD_and, BitVec.getLsbD_not, BitVec.getLsbD_or] at hleft
  simp only [Bool.and_eq_true] at hleft
  rw [(hb.2 hsame).seen i hi hleft.1] at hleft
  simp at hleft

/-- With an interrupt that was not there before. -/
theorem quiescent_false : Quiescent fun _ => False :=
  ⟨fun _ _ h _ => h, fun _ _ h _ => h, fun _ h => h⟩

/-- With all of them cleared, and none that comes, the driver reads none. -/
theorem yields_readl_intSta (hq : q.Kept) :
    Yields (Unless ints (Dull taken 0 q)) (readl H gethIntSta)
      fun v => Unless ints fun w => Dull taken 0 q w ∧ v &&& 0x2300#32 = 0#32 := by
  intro w v w' h hrun
  have hb := (quiescent_dull hq).tame.before (H := H) w h
  cases hrun
  refine hb.imp fun hd => ⟨hd, ?_⟩
  apply BitVec.eq_of_getLsbD_eq
  intro i _
  have hnone := hd.seen i
  show ((w.before H).intSta &&& 0x2300#32).getLsbD i = (0#32).getLsbD i
  rw [BitVec.getLsbD_and]
  cases hm : (0x2300#32).getLsbD i with
  | false => simp
  | true =>
    cases hi : (w.before H).intSta.getLsbD i with
    | false => simp
    | true => simpa using hnone hm hi

/-- No interrupt, no frame. -/
theorem yields_gethFrames {frames : List (List UInt8 × Int)} :
    Yields (Unless ints (Dull taken 0 (.waiting frames false))) (gethFrames H g)
      fun fs => Unless ints fun w => Dull taken 0 .spoiled w ∧ fs = [] := by
  refine (yields_readl_intSta (kept_waiting frames false)).bind fun v => ?_
  apply Yields.ite
  · intro _
    have hmark : Yields (Unless ints fun w => Dull taken 0 (.waiting frames false) w ∧
        v &&& 0x2300#32 = 0#32) (mark fun _ => .unseen)
        fun _ => Unless ints fun w => Dull taken 0 .spoiled w ∧ ([] : List Frame) = [] :=
      yields_mark fun w h => h.log rfl fun hd =>
        ⟨hd.1.log rfl fun q' hq' => by cases hq'; rfl, rfl⟩
    exact hmark.bind fun _ => yields_pure fun _ h => h
  · intro hseen
    have hQ : Tame H (Unless ints fun _ => False) := quiescent_false.tame
    refine Yields.mono (P := Unless ints fun _ => False) ?_ (fun w h => h.imp fun hd => hseen hd.2)
      fun _ w (h : Unless ints (fun _ => False) w) => h.imp False.elim
    exact (hQ.dmaRxEnable false).bind fun _ => (hQ.writel _ _).bind fun _ => hQ.gethTake

/-- Without an interrupt the frame that waits is passed over, and the descriptor given away. -/
theorem yields_gethRecv {frames : List (List UInt8 × Int)} {late : Bool} (fuel : Nat)
    (stack : Frame → List Op) :
    Yields (Unless ints (Dull taken 0 (.waiting frames late))) (gethRecv H g fuel stack)
      fun _ => Unless ints (Dull taken 0 .spoiled) := by
  have hP : Tame H (Unless ints (Dull taken 0 (.waiting frames false))) :=
    (quiescent_dull (kept_waiting frames false)).tame
  have hspoiled : Quiescent (Dull taken 0 .spoiled) := quiescent_dull kept_spoiled
  have henter : Yields (Unless ints (Dull taken 0 (.waiting frames late))) (mark fun _ => .enter)
      fun _ => Unless ints (Dull taken 0 (.waiting frames false)) :=
    yields_mark fun w h => h.log rfl fun hd => hd.log rfl fun q' hq' => by cases hq'; rfl
  refine henter.bind fun _ => (hP.invalidate _ _).bind fun _ => (hP.loadWord _).bind fun d => ?_
  apply Yields.ite
  · exact fun _ => yields_mark fun w h => h.log rfl fun hd => hd.log rfl fun q' hq' => by cases hq'
  · intro _
    refine (hP.invalidate _ _).bind fun _ => hP.copyPacket.bind fun _ =>
      yields_gethFrames.bind fun fs => ?_
    have htake : Yields (Unless ints fun w => Dull taken 0 .spoiled w ∧ fs = [])
        (mark fun _ => .take (shown fs)) fun _ => Unless ints (Dull taken 0 .spoiled) := by
      refine yields_mark fun w h => h.log rfl ?_
      rintro ⟨hd, rfl⟩
      exact hd.log rfl fun q' hq' => by cases hq'; rfl
    refine htake.bind fun _ =>
      (Yields.forM fun f => Yields.forM fun op => yields_op hspoiled fuel op).bind fun _ =>
      hspoiled.tame.gethFill.bind fun _ => ?_
    exact yields_mark fun w h => h.log rfl fun hd => hd.log rfl fun q' hq' => by cases hq'; rfl

/-- Any of the interrupts may be there when the driver begins. -/
theorem unless_start {w : World} (h : replay .unarmed w.trace = some q) :
    Unless (raised w.trace) (Dull (takenFrames w.trace) (BitVec.allOnes 32) q) w := by
  refine ⟨List.prefix_refl _, fun _ => ⟨rfl, ?_, ?_⟩⟩
  · intro i hi _
    rw [BitVec.getLsbD_allOnes]
    exact decide_eq_true (BitVec.lt_of_getLsbD hi)
  · intro q' hq'
    exact Option.some.inj (hq'.symm.trans h)

/-- `geth_xmit` clears the interrupt that `geth_recv` is to look for. -/
theorem yields_lose {frames : List (List UInt8 × Int)} {late : Bool} (fuel : Nat)
    (packet : UInt64) (length : Int) (stack : Frame → List Op) :
    Yields (Unless ints (Dull taken seen (.waiting frames late))) (do
      gethXmit H g fuel packet length
      gethRecv H g fuel stack) fun _ => Unless ints (Dull taken 0 .spoiled) := by
  have hwait {v : BitVec 32} : Quiescent (Dull taken v (.waiting frames late)) :=
    quiescent_dull (kept_waiting frames late)
  exact (yields_gethXmit hwait hwait fun v => yields_clear (kept_waiting frames late) v).bind
    fun _ => yields_gethRecv fuel stack

end EmacDriver.Dma
