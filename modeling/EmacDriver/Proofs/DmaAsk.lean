import EmacDriver.Proofs.DmaReceive

namespace EmacDriver.Dma
open Bytes CacheMem Triples

variable {H : Machine} {g : Layout}

inductive RxState.Open : RxState → Prop where
  | unarmed : Open .unarmed
  | armed : Open .armed
  | waiting (frames : List (List UInt8 × Int)) (late : Bool) : Open (.waiting frames late)

/-- The MAC leaves an open mailbox open. -/
theorem RxState.Open.advance {q q' : RxState} (h : q.Open) (ha : Advance q q') : q'.Open := by
  rcases ha with rfl | ⟨-, frames, rfl⟩
  · exact h
  · exact .waiting frames true

def StaleOwn (g : Layout) (w : World) : Prop :=
  ∃ l, w.mem.lines (g.dmaDescRx.toNat / 64) = some l ∧ 128 ≤ (l.data (g.dmaDescRx.toNat + 3)).toNat

structure Asking (g : Layout) (q : RxState) (w : World) : Prop where
  state : InState g q w
  opened : q.Open
  look : FreshOn g.InDesc w ∨ (∃ frames, q = .waiting frames true) ∧ StaleOwn g w

theorem Asking.clean {q : RxState} {w : World} (h : Asking g q w) (a : Nat) (ha : g.Shared a) :
    w.mem.Clean (a / 64) := by
  have hp := h.state.phase
  cases h.opened with
  | unarmed => exact hp.1.clean a ha
  | armed => exact Armed.clean hp a ha
  | waiting frames late => exact hp.1.clean a ha

theorem own_bit (b : Buf) (o : Nat) :
    (Desc0.mk (load32 b o).toBitVec).own = decide (128 ≤ (b (o + 3)).toNat) := by
  have h0 := (b o).toNat_lt
  have h1 := (b (o + 1)).toNat_lt
  have h2 := (b (o + 2)).toNat_lt
  have h3 := (b (o + 3)).toNat_lt
  have hval : (load32 b o).toNat = (b o).toNat + 256 * (b (o + 1)).toNat +
      65536 * (b (o + 2)).toNat + 16777216 * (b (o + 3)).toNat := by
    rw [load32, UInt32.toNat_ofNat']
    omega
  have hbit : (Desc0.mk (load32 b o).toBitVec).own = (load32 b o).toNat.testBit 31 := rfl
  rw [hbit, hval, Nat.testBit_eq_decide_div_mod_eq, decide_eq_decide]
  omega

theorem Lists.own_byte {w : World} (h : Lists g w) :
    w.rxDesc0.own = decide (128 ≤ (w.mem.ram (g.dmaDescRx.toNat + 3)).toNat) := by
  rw [World.rxDesc0, desc0, h.rx, g.rxList_toNat, own_bit]

theorem desc_line {a : Nat} (h : g.InDesc a) : a / 64 = g.dmaDescRx.toNat / 64 :=
  g.inDesc_line.mp h

theorem fresh_of_none {w : World} (h : w.mem.lines (g.dmaDescRx.toNat / 64) = none) :
    FreshOn g.InDesc w := by
  intro a ha
  apply Mem.owned_of_none
  rw [desc_line ha]
  exact h

theorem FreshOn.withRam {S : Nat → Prop} {w : World} (h : FreshOn S w) {ram : Buf}
    (hram : ∀ a, S a → ram a = w.mem.ram a) :
    FreshOn S { w with mem := w.mem.withRam ram } := by
  intro a ha
  have hown := (h a ha).withRam (hram a ha)
  rw [← hram a ha] at hown
  exact hown

theorem FreshOn.write {w : World} (h : FreshOn g.InDesc w) {ram : Buf}
    (ho : (desc0 ram w.rxDescList).own = true) (hram : ∀ a, g.InDesc a → ram a = w.mem.ram a) :
    FreshOn g.InDesc (w.written ram) := by
  rw [written_same fun hc => by rw [ho] at hc; exact Bool.noConfusion hc.2]
  exact h.withRam hram

/-- The cache may drop the old line, and does not change it. -/
theorem stale_event {w : World} (h : StaleOwn g w) (e : Event) (hr : w.bus.receiving = false) :
    FreshOn g.InDesc (e.apply w) ∨ StaleOwn g (e.apply w) := by
  obtain ⟨l, hl, hown⟩ := h
  cases e with
  | evict n =>
    by_cases hn : g.dmaDescRx.toNat / 64 = n
    · left
      apply fresh_of_none
      exact Mem.evict_lines.trans (if_pos hn)
    · right
      exact ⟨l, Mem.evict_lines.trans ((if_neg hn).trans hl), hown⟩
  | prefetch n => exact Or.inr ⟨l, Mem.fill_lines_some hl, hown⟩
  | write m =>
    right
    rw [Event.apply, written_same fun hc => by rw [hr] at hc; exact Bool.false_ne_true hc.1]
    exact ⟨l, hl, hown⟩
  | interrupt v => exact Or.inr ⟨l, hl, hown⟩

/-- Once the MAC has given the descriptor back, a cached line shows it as the MAC's. -/
theorem stale_complete {w : World} (harmed : Armed g w) (h : FreshOn g.InDesc w) {ram : Buf}
    (ho : (desc0 ram w.rxDescList).own = false) :
    FreshOn g.InDesc (w.written ram) ∨ StaleOwn g (w.written ram) := by
  rw [World.written, if_pos ⟨harmed.receiving, ho⟩]
  cases hl : w.mem.lines (g.dmaDescRx.toNat / 64) with
  | none =>
    left
    exact fresh_of_none hl
  | some l =>
    refine Or.inr ⟨l, hl, ?_⟩
    have hin : g.InDesc (g.dmaDescRx.toNat + 3) := g.inDesc_of_lt (by decide)
    have hseen := (h _ hin).seen
    rw [Mem.view_some (l := l) (by rw [desc_line hin]; exact hl)] at hseen
    have hown := harmed.own
    rw [harmed.lists.own_byte, ← hseen] at hown
    exact of_decide_eq_true hown

/-- While the driver asks, the MAC may complete the frame; the old line is not changed by it. -/
theorem asking_event {q : RxState} {w : World} (h : Asking g q w) (e : Event) :
    ∃ q', Advance q q' ∧ Asking g q' (e.apply w) := by
  have hcalm (hr : w.bus.receiving = false) : ∃ q', Advance q q' ∧ Asking g q' (e.apply w) := by
    have hs := event_still h.state.phase.lists hr e
    refine ⟨q, Or.inl rfl, h.state.still hs, h.opened, ?_⟩
    rcases h.look with hfresh | ⟨hwait, hstale⟩
    · exact Or.inl (hfresh.still h.clean (fun _ ha => Or.inl ha) hs)
    · exact (stale_event hstale e hr).imp id fun hst => ⟨hwait, hst⟩
  have hopen := h.opened
  cases hopen with
  | unarmed => exact hcalm h.state.phase.1.inert.not_receiving
  | waiting frames late => exact hcalm h.state.phase.1.inert.not_receiving
  | armed =>
    have harmed : Armed g w := h.state.phase
    have hfresh : FreshOn g.InDesc w := by
      rcases h.look with hfresh | ⟨⟨frames, hq⟩, -⟩
      · exact hfresh
      · cases hq
    have hstay (hs : Still g w (e.apply w)) : ∃ q', Advance .armed q' ∧ Asking g q' (e.apply w) :=
      ⟨.armed, Or.inl rfl, h.state.still hs, h.opened,
        Or.inl (hfresh.still harmed.clean (fun _ ha => Or.inl ha) hs)⟩
    cases e with
    | evict n => exact hstay (still_mem Mem.keeps_evict)
    | prefetch n => exact hstay (still_mem Mem.keeps_fill)
    | interrupt v => exact hstay (still_interrupt w v)
    | write m =>
      cases ho : (desc0 (m.ram w.bus) w.rxDescList).own with
      | true =>
        obtain ⟨q', hadv, hstate⟩ := armed_event h.state (.write m)
        exact ⟨q', hadv, hstate, h.opened.advance hadv,
          Or.inl (hfresh.write ho fun a ha => harmed.kept m ho ha)⟩
      | false =>
        obtain ⟨frames, hwait⟩ := armed_complete h.state ho
        exact ⟨_, Or.inr ⟨rfl, frames, rfl⟩, hwait, .waiting frames true,
          (stale_complete harmed hfresh ho).imp id fun hst => ⟨⟨frames, rfl⟩, hst⟩⟩

theorem asking_before {q : RxState} {w : World} (h : Asking g q w) :
    ∃ q', Asking g q' (w.before H) := by
  have hfoldl (l : List Event) {q : RxState} {w : World} (h : Asking g q w) :
      ∃ q', Asking g q' (l.foldl Event.apply w) := by
    induction l generalizing q w with
    | nil => exact ⟨q, h⟩
    | cons e l ih =>
      obtain ⟨q₁, -, h₁⟩ := asking_event h e
      exact ih h₁
  exact hfoldl _ ⟨h.state.still (still_accesses w), h.opened, h.look⟩

theorem Asking.fill {q : RxState} {w : World} (h : Asking g q w) (n : Nat) :
    Asking g q { w with mem := w.mem.fill n } := by
  refine ⟨h.state.still (still_fill w n), h.opened, ?_⟩
  rcases h.look with hfresh | ⟨hwait, l, hl, hown⟩
  · exact Or.inl (hfresh.still h.clean (fun _ ha => Or.inl ha) (still_fill w n))
  · exact Or.inr ⟨hwait, l, Mem.fill_lines_some hl, hown⟩

/-- A byte of the descriptor is read, and more may happen before. -/
theorem ends_askByte (a : Nat) :
    Ends (fun w => ∃ q, Asking g q w) (loadByte H a) fun _ w => ∃ q, Asking g q w := by
  rintro w ⟨q, h⟩
  obtain ⟨q', h'⟩ := asking_before (H := H) h
  exact ⟨_, _, rfl, q', h'.fill _⟩

def Answered (g : Layout) (own : Bool) (w : World) : Prop :=
  ∃ q, InState g q w ∧
    if own then q = .armed ∨ ∃ frames, q = .waiting frames true else q.Found ∧ Asked g q w

theorem Asking.answered {q : RxState} {w : World} (h : Asking g q w) :
    Answered g (decide (128 ≤ (w.mem.view 64 (g.dmaDescRx.toNat + 3)).toNat)) w := by
  have hin : g.InDesc (g.dmaDescRx.toNat + 3) := g.inDesc_of_lt (by decide)
  refine ⟨q, h.state, ?_⟩
  rcases h.look with hfresh | ⟨hwait, l, hl, hown⟩
  · have hseen := (hfresh _ hin).seen
    rw [hseen, ← h.state.phase.lists.own_byte]
    have hopen := h.opened
    cases hopen with
    | unarmed =>
      have hmine := h.state.phase.1
      rw [hmine.own]
      exact ⟨.unarmed, h.state, hmine, hfresh⟩
    | armed =>
      have harmed : Armed g w := h.state.phase
      rw [harmed.own]
      exact Or.inl rfl
    | waiting frames late =>
      have hmine := h.state.phase.1
      rw [hmine.own]
      exact ⟨.waiting frames late, h.state, hmine, hfresh⟩
  · rw [Mem.view_some (l := l) (by rw [desc_line hin]; exact hl), decide_eq_true hown]
    exact Or.inr hwait

theorem Answered.fill {b : Bool} {w : World} (h : Answered g b w) (n : Nat) :
    Answered g b { w with mem := w.mem.fill n } := by
  obtain ⟨q, hq, hb⟩ := h
  refine ⟨q, hq.still (still_fill w n), ?_⟩
  cases b with
  | true => exact hb
  | false => exact ⟨hb.1, hb.2.still (still_fill w n)⟩

/-- Of the word read only bit 31 counts here. -/
theorem ends_askWord :
    Ends (fun w => ∃ q, Asking g q w) (loadWord H g.dmaDescRx.toNat)
      fun d => Answered g (Desc0.mk d.toBitVec).own := by
  rw [loadWord]
  refine (ends_askByte _).bind fun b0 => (ends_askByte _).bind fun b1 =>
    (ends_askByte _).bind fun b2 => ?_
  rintro w ⟨q, h⟩
  obtain ⟨q', h'⟩ := asking_before (H := H) h
  have hans := h'.answered.fill ((g.dmaDescRx.toNat + 3) / 64)
  have hbit : (Desc0.mk (load32 (ofList [b0, b1, b2,
      (w.before H).mem.view 64 (g.dmaDescRx.toNat + 3)]) 0).toBitVec).own =
      decide (128 ≤ ((w.before H).mem.view 64 (g.dmaDescRx.toNat + 3)).toNat) := own_bit _ 0
  rw [← hbit] at hans
  exact ⟨_, _, rfl, hans⟩

theorem enter_state {q : RxState} {w : World} (hq : q.Open) (h : InState g q w) :
    ∃ q', q'.Open ∧ InState g q' (w.log .enter) := by
  have htrace {q' : RxState} (hnext : q.next .enter = some q') :
      replay .unarmed (w.log .enter).trace = some q' := by
    refine (replay_log _).trans ?_
    rw [h.trace]
    exact hnext
  have hp := h.phase
  cases hq with
  | unarmed =>
    exact ⟨_, .unarmed, htrace rfl,
      ⟨⟨hp.1.lists.rx, hp.1.lists.tx⟩, hp.1.clean, hp.1.own⟩, hp.2⟩
  | armed =>
    have ha : Armed g w := hp
    exact ⟨_, .armed, htrace rfl,
      ⟨ha.lists.rx, ha.lists.tx⟩, ha.clean, ha.enabled, ha.own, ha.size, ha.buf⟩
  | waiting frames late =>
    exact ⟨_, .waiting frames false, htrace rfl,
      ⟨⟨hp.1.lists.rx, hp.1.lists.tx⟩, hp.1.clean, hp.1.own⟩, hp.2⟩

/-- The line is dropped, so that the look is not at an older one. -/
theorem ends_lookUp :
    Ends (fun w => ∃ q, q.Open ∧ InState g q w)
      (invalidateDcacheRange H g.dmaDescRx (g.dmaDescRx + 64)) fun _ w => ∃ q, Asking g q w := by
  rw [invalidateDcacheRange, desc_range]
  have hone : Ends (fun w => ∃ q, q.Open ∧ InState g q w)
      (access H fun w => ((), { w with mem := w.mem.drop (g.dmaDescRx.toNat / 64) }))
      fun _ w => ∃ q, Asking g q w := by
    rintro w ⟨q, hq, h⟩
    obtain ⟨q', hadv, h'⟩ := before_state (H := H) h
    have hopen := hq.advance hadv
    have hfirst : g.Shared g.dmaDescRx.toNat := Or.inl (g.inDesc_of_lt (i := 0) (by decide))
    have hclean : (w.before H).mem.Clean (g.dmaDescRx.toNat / 64) := by
      have hp := h'.phase
      cases hopen with
      | unarmed => exact hp.1.clean _ hfirst
      | armed => exact Armed.clean hp _ hfirst
      | waiting frames late => exact hp.1.clean _ hfirst
    exact ⟨_, _, rfl, q', h'.still (still_drop hclean), hopen,
      Or.inl fun a ha => Mem.owned_drop (desc_line ha)⟩
  exact hone.bind fun _ => ends_pure fun _ h => h

end EmacDriver.Dma
