import EmacDriver.Proofs.DmaSteady

namespace EmacDriver.Dma
open Bytes CacheMem

/-- Where a frame can be: `late` if it was not complete when `geth_recv` was last entered.
Nothing is promised of a mailbox once `geth_recv` has looked at a frame that waits without
an interrupt. -/
inductive RxState where
  | unarmed
  | armed
  | waiting (frames : List (List UInt8 × Int)) (late : Bool)
  | holding
  | spoiled
  deriving DecidableEq

namespace RxState

def next : RxState → Act → Option RxState
  | spoiled, _ => some spoiled
  | q, .interrupt _ => some q
  | armed, .complete st buf => some (waiting (shown (framesOf st (ofList buf))) true)
  | _, .complete _ _ => none
  | waiting frames _, .enter => some (waiting frames false)
  | q, .enter => some q
  | armed, .miss => some armed
  | waiting frames true, .miss => some (waiting frames true)
  | _, .miss => none
  | unarmed, .unseen => some unarmed
  | waiting _ _, .unseen => some spoiled
  | _, .unseen => none
  | unarmed, .take frames => if frames = [] then some holding else none
  | waiting frames' _, .take frames => if frames = frames' then some holding else none
  | _, .take _ => none
  | holding, .fill => some armed
  | _, .fill => none

end RxState

def replay (q : RxState) (trace : List Act) : Option RxState := trace.foldlM RxState.next q

theorem replay_log {q : RxState} {trace : List Act} (a : Act) :
    replay q (trace ++ [a]) = (replay q trace).bind fun q => q.next a := by
  rw [replay, replay, List.foldlM_append]
  cases trace.foldlM RxState.next q with
  | none => rfl
  | some q' => exact bind_pure (q'.next a)

def completedFrames (trace : List Act) : List (List UInt8 × Int) :=
  trace.flatMap fun
    | .complete st buf => shown (framesOf st (ofList buf))
    | _ => []

namespace Layout
variable (g : Layout)

def InDesc (a : Nat) : Prop := g.dmaDescRx.toNat ≤ a ∧ a < g.dmaDescRx.toNat + 64
def InPacket (a : Nat) : Prop := g.rxPacket.toNat ≤ a ∧ a < g.rxPacket.toNat + 2048
def Shared (a : Nat) : Prop := g.InDesc a ∨ g.InPacket a

def rxList : BitVec 32 := g.dmaDescRx.toBitVec.setWidth 32
def txList : BitVec 32 := g.dmaDescTx.toBitVec.setWidth 32

theorem rxList_toNat : g.rxList.toNat = g.dmaDescRx.toNat := by
  have hlow := g.rx_low
  rw [rxList, BitVec.toNat_setWidth, UInt64.toNat_toBitVec]
  exact Nat.mod_eq_of_lt (by omega)

theorem txList_toNat : g.txList.toNat = g.dmaDescTx.toNat := by
  have hlow := g.tx_low
  rw [txList, BitVec.toNat_setWidth, UInt64.toNat_toBitVec]
  exact Nat.mod_eq_of_lt (by omega)

theorem inDesc_of_lt {i : Nat} (hi : i < 64) : g.InDesc (g.dmaDescRx.toNat + i) := by
  constructor <;> omega

theorem inPacket_of_lt {i : Nat} (hi : i < 2048) : g.InPacket (g.rxPacket.toNat + i) := by
  constructor <;> omega

theorem inDesc_line {a : Nat} : g.InDesc a ↔ a / 64 = g.dmaDescRx.toNat / 64 := by
  have hline := g.rx_line
  rw [InDesc]
  omega

theorem not_packet {a : Nat} (h : g.InDesc a) : ¬g.InPacket a := by
  have hapart := g.rx_packet
  rw [InDesc] at h
  rw [InPacket]
  omega

/-- The MAC's other descriptor is elsewhere. -/
theorem tx_not_shared {a : Nat} (h : g.Shared a) :
    a < g.dmaDescTx.toNat ∨ g.dmaDescTx.toNat + 64 ≤ a := by
  have hpacket := g.tx_packet
  have hrx := g.rx_line
  have htx := g.tx_line
  have hne : g.dmaDescRx.toNat ≠ g.dmaDescTx.toNat := fun he => g.rx_tx (UInt64.toNat_inj.mp he)
  rw [Shared, InDesc, InPacket] at h
  omega

end Layout

variable {H : Machine} {g : Layout} {w w' : World}

structure Lists (g : Layout) (w : World) : Prop where
  rx : w.rxDescList = g.rxList
  tx : w.txDescList = g.txList

def World.rxDesc0 (w : World) : Desc0 := desc0 w.mem.ram w.rxDescList

structure Mine (g : Layout) (w : World) : Prop where
  lists : Lists g w
  clean : ∀ a, g.Shared a → w.mem.Clean (a / 64)
  own : w.rxDesc0.own = false

structure Armed (g : Layout) (w : World) : Prop where
  lists : Lists g w
  clean : ∀ a, g.Shared a → w.mem.Clean (a / 64)
  enabled : w.rxCtl1.getLsbD 30 = true
  own : w.rxDesc0.own = true
  size : descSize w.mem.ram w.rxDescList = 2047
  buf : descBuf w.mem.ram w.rxDescList = g.rxPacket.toNat

structure Holding (g : Layout) (w : World) : Prop where
  lists : Lists g w
  disabled : w.rxCtl1.getLsbD 30 = false
  desc : ∀ a, g.InDesc a → ∃ v, w.mem.Owned 64 a v
  clean : ∀ a, g.InPacket a → w.mem.Clean (a / 64)

def World.packet (g : Layout) (w : World) : Buf := fun i => w.mem.ram (g.rxPacket.toNat + i)

def Phase (g : Layout) (w : World) : RxState → Prop
  | .unarmed => Mine g w ∧ w.rxCtl1.getLsbD 30 = false ∧ w.rxDesc0 = ⟨0⟩
  | .armed => Armed g w
  | .waiting frames _ =>
    Mine g w ∧ frames = shown (framesOf w.rxDesc0 (w.packet g))
  | .holding => Holding g w
  | .spoiled => Lists g w

structure InState (g : Layout) (q : RxState) (w : World) : Prop where
  trace : replay .unarmed w.trace = some q
  phase : Phase g w q

structure Still (g : Layout) (w w' : World) : Prop where
  rxCtl1 : w'.rxCtl1 = w.rxCtl1
  rxDescList : w'.rxDescList = w.rxDescList
  txDescList : w'.txDescList = w.txDescList
  rxHandleBuf : w'.rxHandleBuf = w.rxHandleBuf
  trace : replay .unarmed w'.trace = replay .unarmed w.trace
  mem : Mem.Keeps 64 g.Shared w.mem w'.mem

theorem still_refl : Still g w w := ⟨rfl, rfl, rfl, rfl, rfl, Mem.keeps_refl⟩

theorem Still.trans {w'' : World} (h : Still g w w') (h' : Still g w' w'') : Still g w w'' where
  rxCtl1 := h'.rxCtl1.trans h.rxCtl1
  rxDescList := h'.rxDescList.trans h.rxDescList
  txDescList := h'.txDescList.trans h.txDescList
  rxHandleBuf := h'.rxHandleBuf.trans h.rxHandleBuf
  trace := h'.trace.trans h.trace
  mem := h.mem.trans h'.mem

theorem Lists.still (h : Lists g w) (hs : Still g w w') : Lists g w' :=
  ⟨hs.rxDescList.trans h.rx, hs.txDescList.trans h.tx⟩

/-- A word of the descriptor, while its line is clean. -/
theorem desc_word_still (hs : Still g w w') (hl : Lists g w)
    (hc : ∀ a, g.InDesc a → w.mem.Clean (a / 64)) {k : Nat} (hk : k + 4 ≤ 64) :
    load32 w'.mem.ram (w'.rxDescList.toNat + k) = load32 w.mem.ram (w.rxDescList.toNat + k) := by
  rw [hs.rxDescList, hl.rx, g.rxList_toNat]
  apply load32_congr
  intro i hi
  have hin : g.InDesc (g.dmaDescRx.toNat + k + i) := by
    rw [Nat.add_assoc]
    exact g.inDesc_of_lt (by omega)
  exact hs.mem.ram _ (Or.inl hin) (hc _ hin)

theorem rxDesc0_still (hs : Still g w w') (hl : Lists g w)
    (hc : ∀ a, g.InDesc a → w.mem.Clean (a / 64)) : w'.rxDesc0 = w.rxDesc0 :=
  congrArg (fun v : UInt32 => Desc0.mk v.toBitVec) (desc_word_still hs hl hc (k := 0) (by decide))

theorem Mine.still (h : Mine g w) (hs : Still g w w') : Mine g w' where
  lists := h.lists.still hs
  clean a ha := hs.mem.clean a ha (h.clean a ha)
  own := by
    rw [rxDesc0_still hs h.lists fun a ha => h.clean a (Or.inl ha)]
    exact h.own

theorem Holding.still (h : Holding g w) (hs : Still g w w') : Holding g w' where
  lists := h.lists.still hs
  disabled := by
    rw [hs.rxCtl1]
    exact h.disabled
  desc a ha := by
    obtain ⟨v, hv⟩ := h.desc a ha
    exact ⟨v, hs.mem.owned a v (Or.inl ha) hv⟩
  clean a ha := hs.mem.clean a (Or.inr ha) (h.clean a ha)

theorem Armed.still (h : Armed g w) (hs : Still g w w') : Armed g w' where
  lists := h.lists.still hs
  clean a ha := hs.mem.clean a ha (h.clean a ha)
  enabled := by
    rw [hs.rxCtl1]
    exact h.enabled
  own := by
    rw [rxDesc0_still hs h.lists fun a ha => h.clean a (Or.inl ha)]
    exact h.own
  size := by
    rw [descSize, desc_word_still hs h.lists (fun a ha => h.clean a (Or.inl ha)) (by decide)]
    exact h.size
  buf := by
    rw [descBuf, desc_word_still hs h.lists (fun a ha => h.clean a (Or.inl ha)) (by decide)]
    exact h.buf

theorem slice_congr {b b' : Buf} {n : Nat} (h : ∀ i < n, b' i = b i) :
    slice b' 0 n = slice b 0 n := by
  rw [slice, slice]
  apply List.map_congr_left
  intro i hi
  rw [Nat.zero_add]
  exact h i (List.mem_range.mp hi)

theorem shown_congr (d : Desc0) {b b' : Buf} (h : ∀ i < 2048, b' i = b i) :
    shown (framesOf d b') = shown (framesOf d b) := by
  have hslice := slice_congr h
  rw [framesOf, framesOf]
  by_cases hgood : rxStatus ⟨d, 0, 0⟩ ≠ .discardFrame
  · rw [if_pos hgood, if_pos hgood]
    simp only [shown, List.map_cons, List.map_nil, hslice]
  · rw [if_neg hgood, if_neg hgood]

theorem packet_still (h : Mine g w) (hs : Still g w w') {i : Nat} (hi : i < 2048) :
    w'.packet g i = w.packet g i := by
  have hin := g.inPacket_of_lt hi
  exact hs.mem.ram _ (Or.inr hin) (h.clean _ (Or.inr hin))

/-- The phase depends on nothing but the receive side. -/
theorem Phase.still {q : RxState} (h : Phase g w q) (hs : Still g w w') : Phase g w' q := by
  cases q with
  | unarmed =>
    obtain ⟨hmine, hoff, hzero⟩ := h
    refine ⟨hmine.still hs, ?_, ?_⟩
    · rw [hs.rxCtl1]
      exact hoff
    · rw [rxDesc0_still hs hmine.lists fun a ha => hmine.clean a (Or.inl ha)]
      exact hzero
  | armed => exact Armed.still h hs
  | waiting frames late =>
    obtain ⟨hmine, hframes⟩ := h
    refine ⟨hmine.still hs, ?_⟩
    rw [rxDesc0_still hs hmine.lists fun a ha => hmine.clean a (Or.inl ha),
      shown_congr _ fun i hi => packet_still hmine hs hi]
    exact hframes
  | holding => exact Holding.still h hs
  | spoiled => exact Lists.still h hs

theorem Phase.lists {q : RxState} (h : Phase g w q) : Lists g w := by
  cases q with
  | unarmed => exact h.1.lists
  | armed => exact Armed.lists h
  | waiting frames late => exact h.1.lists
  | holding => exact Holding.lists h
  | spoiled => exact h

theorem InState.still {q : RxState} (h : InState g q w) (hs : Still g w w') : InState g q w' :=
  ⟨hs.trace.trans h.trace, h.phase.still hs⟩

/-- The MAC does not receive, whatever the cache does. -/
def Inert (g : Layout) (w : World) : Prop :=
  w.rxCtl1.getLsbD 30 = false ∨ (∀ a, g.InDesc a → w.mem.Clean (a / 64)) ∧ w.rxDesc0.own = false

theorem Inert.not_receiving (h : Inert g w) : w.bus.receiving = false := by
  have hbus : w.bus.receiving = (w.rxCtl1.getLsbD 30 && w.rxDesc0.own) := rfl
  rw [hbus]
  rcases h with hoff | ⟨-, hown⟩
  · rw [hoff, Bool.false_and]
  · rw [hown, Bool.and_false]

theorem Inert.still (h : Inert g w) (hl : Lists g w) (hs : Still g w w') : Inert g w' := by
  rcases h with hoff | ⟨hclean, hown⟩
  · left
    rw [hs.rxCtl1]
    exact hoff
  · right
    refine ⟨fun a ha => hs.mem.clean a (Or.inl ha) (hclean a ha), ?_⟩
    rw [rxDesc0_still hs hl hclean]
    exact hown

theorem Mine.inert (h : Mine g w) : Inert g w :=
  Or.inr ⟨fun a ha => h.clean a (Or.inl ha), h.own⟩

theorem Holding.inert (h : Holding g w) : Inert g w := Or.inl h.disabled

theorem still_mem {m : Mem UInt8} (h : Mem.Keeps 64 g.Shared w.mem m) :
    Still g w { w with mem := m } := ⟨rfl, rfl, rfl, rfl, rfl, h⟩

theorem replay_interrupt (v : BitVec 32) (trace : List Act) :
    replay .unarmed (trace ++ [.interrupt v]) = replay .unarmed trace := by
  rw [replay_log]
  cases replay .unarmed trace with
  | none => rfl
  | some q => cases q <;> rfl

theorem still_interrupt (w : World) (v : BitVec 32) : Still g w (Event.apply w (.interrupt v)) :=
  ⟨rfl, rfl, rfl, rfl, replay_interrupt v w.trace, Mem.keeps_refl⟩

/-- A write that gives nothing back. -/
theorem written_same {ram : Buf}
    (h : ¬(w.bus.receiving = true ∧ (desc0 ram w.rxDescList).own = false)) :
    w.written ram = { w with mem := w.mem.withRam ram } := if_neg h

/-- The transmitter's descriptor is elsewhere. -/
theorem Lists.not_tx (hl : Lists g w) {a : Nat} (ha : g.Shared a) : ¬InWords w.txDescList a := by
  have hapart := g.tx_not_shared ha
  rw [InWords, hl.tx, g.txList_toNat]
  omega

theorem still_write (hl : Lists g w) (hr : w.bus.receiving = false) (m : MacWrite) :
    Still g w (w.written (m.ram w.bus)) := by
  rw [written_same fun hc => by rw [hr] at hc; exact Bool.false_ne_true hc.1]
  apply still_mem
  apply Mem.keeps_withRam
  intro a ha
  apply m.elsewhere
  rintro (⟨hrx, -⟩ | ⟨-, htx⟩)
  · rw [hr] at hrx
    exact Bool.false_ne_true hrx
  · exact hl.not_tx ha htx

/-- A MAC that does not receive leaves the receive side alone. -/
theorem event_still (hl : Lists g w) (hr : w.bus.receiving = false) (e : Event) :
    Still g w (e.apply w) := by
  cases e with
  | evict n => exact still_mem Mem.keeps_evict
  | prefetch n => exact still_mem Mem.keeps_fill
  | write m => exact still_write hl hr m
  | interrupt v => exact still_interrupt w v

theorem still_accesses (w : World) : Still g w { w with accesses := w.accesses + 1 } :=
  ⟨rfl, rfl, rfl, rfl, rfl, Mem.keeps_refl⟩

theorem before_still (hl : Lists g w) (hi : Inert g w) : Still g w (w.before H) := by
  have hfoldl (l : List Event) {w : World} (hl : Lists g w) (hi : Inert g w) :
      Still g w (l.foldl Event.apply w) := by
    induction l generalizing w with
    | nil => exact still_refl
    | cons e l ih =>
      have hs := event_still hl hi.not_receiving e
      exact hs.trans (ih (hl.still hs) (hi.still hl hs))
  have hs := still_accesses (g := g) w
  exact hs.trans (hfoldl _ (hl.still hs) (hi.still hl hs))

def Advance (q q' : RxState) : Prop := q' = q ∨ q = .armed ∧ ∃ frames, q' = .waiting frames true

theorem Advance.trans {q q' q'' : RxState} (h : Advance q q') (h' : Advance q' q'') :
    Advance q q'' := by
  rcases h with rfl | ⟨rfl, frames, rfl⟩
  · exact h'
  · rcases h' with rfl | ⟨hq, -⟩
    · exact Or.inr ⟨rfl, frames, rfl⟩
    · cases hq

theorem Armed.receiving (h : Armed g w) : w.bus.receiving = true := by
  have hbus : w.bus.receiving = (w.rxCtl1.getLsbD 30 && w.rxDesc0.own) := rfl
  rw [hbus, h.enabled, h.own]
  rfl

/-- While the MAC keeps the descriptor, all of it stays as it is. -/
theorem Armed.kept (h : Armed g w) (m : MacWrite)
    (ho : (desc0 (m.ram w.bus) w.rxDescList).own = true) {a : Nat} (ha : g.InDesc a) :
    m.ram w.bus a = w.mem.ram a := by
  by_cases hw : InWords w.rxDescList a
  · exact m.kept w.bus h.receiving ho a hw
  · apply m.elsewhere
    rintro (⟨-, hrx | hbuf⟩ | ⟨-, htx⟩)
    · exact hw hrx
    · have hin : descBuf w.mem.ram w.rxDescList ≤ a ∧
          a < descBuf w.mem.ram w.rxDescList + descSize w.mem.ram w.rxDescList := hbuf
      rw [h.buf, h.size] at hin
      exact g.not_packet ha ⟨hin.1, by omega⟩
    · exact h.lists.not_tx (Or.inl ha) htx

/-- A write of the frame. -/
theorem Armed.write (h : Armed g w) (m : MacWrite)
    (ho : (desc0 (m.ram w.bus) w.rxDescList).own = true) :
    Armed g { w with mem := w.mem.withRam (m.ram w.bus) } := by
  have hword (k : Nat) (hk : k + 4 ≤ 64) : load32 (m.ram w.bus) (w.rxDescList.toNat + k) =
      load32 w.mem.ram (w.rxDescList.toNat + k) := by
    rw [h.lists.rx, g.rxList_toNat]
    apply load32_congr
    intro i hi
    rw [Nat.add_assoc]
    exact h.kept m ho (g.inDesc_of_lt (by omega))
  have hsize := congrArg (fun v : UInt32 => v.toNat % 2048) (hword 4 (by decide))
  have hbuf := congrArg UInt32.toNat (hword 8 (by decide))
  exact ⟨⟨h.lists.rx, h.lists.tx⟩, h.clean, h.enabled, ho, hsize.trans h.size, hbuf.trans h.buf⟩

theorem getD_slice {b : Buf} {o n i : Nat} (h : i < n) : ofList (slice b o n) i = b (o + i) := by
  rw [ofList, slice, List.getD_eq_getElem?_getD, List.getElem?_map, List.getElem?_range h]
  rfl

/-- The MAC gives the descriptor back, and the frame waits. -/
theorem armed_complete (h : InState g .armed w) {ram : Buf}
    (ho : (desc0 ram w.rxDescList).own = false) :
    ∃ frames, InState g (.waiting frames true) (w.written ram) := by
  obtain ⟨htrace, hphase⟩ := h
  have harmed : Armed g w := hphase
  have hframes : shown (framesOf (desc0 ram w.rxDescList)
        (ofList (slice ram g.rxPacket.toNat 2048))) =
      shown (framesOf (desc0 ram w.rxDescList) fun i => ram (g.rxPacket.toNat + i)) :=
    shown_congr _ fun i hi => getD_slice hi
  rw [World.written, if_pos ⟨harmed.receiving, ho⟩, harmed.buf]
  refine ⟨_, ?_, ⟨⟨harmed.lists.rx, harmed.lists.tx⟩, harmed.clean, ho⟩, hframes⟩
  refine (replay_log _).trans ?_
  rw [htrace]
  rfl

/-- The armed mailbox is the only one the MAC does anything to. -/
theorem armed_event (h : InState g .armed w) (e : Event) :
    ∃ q', Advance .armed q' ∧ InState g q' (e.apply w) := by
  have harmed : Armed g w := h.phase
  cases e with
  | evict n => exact ⟨_, Or.inl rfl, h.still (still_mem Mem.keeps_evict)⟩
  | prefetch n => exact ⟨_, Or.inl rfl, h.still (still_mem Mem.keeps_fill)⟩
  | interrupt v => exact ⟨_, Or.inl rfl, h.still (still_interrupt w v)⟩
  | write m =>
    cases ho : (desc0 (m.ram w.bus) w.rxDescList).own with
    | false =>
      obtain ⟨frames, hwait⟩ := armed_complete h ho
      exact ⟨_, Or.inr ⟨rfl, frames, rfl⟩, hwait⟩
    | true =>
      refine ⟨.armed, Or.inl rfl, ?_⟩
      rw [Event.apply, written_same fun hc => by rw [ho] at hc; exact Bool.noConfusion hc.2]
      exact ⟨h.trace, harmed.write m ho⟩

theorem spoiled_event (h : InState g .spoiled w) (e : Event) : InState g .spoiled (e.apply w) := by
  have hl : Lists g w := h.phase
  cases e with
  | evict n => exact h.still (still_mem Mem.keeps_evict)
  | prefetch n => exact h.still (still_mem Mem.keeps_fill)
  | interrupt v => exact h.still (still_interrupt w v)
  | write m =>
    rw [Event.apply, World.written]
    split
    · refine ⟨?_, hl.rx, hl.tx⟩
      refine (replay_log _).trans ?_
      rw [h.trace]
      rfl
    · exact ⟨h.trace, hl.rx, hl.tx⟩

/-- Whatever happens below the driver, the mailbox stays as it is or is filled. -/
theorem event_state {q : RxState} (h : InState g q w) (e : Event) :
    ∃ q', Advance q q' ∧ InState g q' (e.apply w) := by
  have hstay (hl : Lists g w) (hr : w.bus.receiving = false) :
      ∃ q', Advance q q' ∧ InState g q' (e.apply w) :=
    ⟨q, Or.inl rfl, h.still (event_still hl hr e)⟩
  cases q with
  | unarmed => exact hstay h.phase.1.lists h.phase.1.inert.not_receiving
  | waiting frames late => exact hstay h.phase.1.lists h.phase.1.inert.not_receiving
  | holding => exact hstay (Holding.lists h.phase) (Holding.inert h.phase).not_receiving
  | armed => exact armed_event h e
  | spoiled => exact ⟨.spoiled, Or.inl rfl, spoiled_event h e⟩

/-- The same of all that happens before one access. -/
theorem before_state {q : RxState} (h : InState g q w) :
    ∃ q', Advance q q' ∧ InState g q' (w.before H) := by
  have hfoldl (l : List Event) {q : RxState} {w : World} (h : InState g q w) :
      ∃ q', Advance q q' ∧ InState g q' (l.foldl Event.apply w) := by
    induction l generalizing q w with
    | nil => exact ⟨q, Or.inl rfl, h⟩
    | cons e l ih =>
      obtain ⟨q₁, h₁, hs⟩ := event_state h e
      obtain ⟨q₂, h₂, hs'⟩ := ih hs
      exact ⟨q₂, h₁.trans h₂, hs'⟩
  exact hfoldl _ (h.still (still_accesses w))

end EmacDriver.Dma
