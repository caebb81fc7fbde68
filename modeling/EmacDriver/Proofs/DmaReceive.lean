import EmacDriver.Proofs.CacheRanges
import EmacDriver.Proofs.DmaMailbox

namespace EmacDriver.Dma
open Bytes CacheMem Triples

variable {H : Machine} {g : Layout} {α : Type}

/-- Facts that hold while the MAC does not receive. -/
structure Quiet (g : Layout) (P : World → Prop) : Prop where
  lists : ∀ w, P w → Lists g w
  inert : ∀ w, P w → Inert g w
  still : ∀ w w', P w → Still g w w' → P w'

/-- One access, while the MAC does not receive. -/
theorem Quiet.access {P : World → Prop} {Q : α → World → Prop} {f : World → α × World}
    (hP : Quiet g P) (h : ∀ w, P w → Q (f w).1 (f w).2) : Ends P (access H f) Q := by
  intro w hw'
  have hs := before_still (H := H) (hP.lists w hw') (hP.inert w hw')
  exact ⟨_, _, rfl, h _ (hP.still w _ hw' hs)⟩

theorem still_fill (w : World) (n : Nat) : Still g w { w with mem := w.mem.fill n } :=
  still_mem Mem.keeps_fill

theorem Quiet.loadByte {P : World → Prop} (hP : Quiet g P) {a : Nat} {v : UInt8}
    (hv : ∀ w, P w → w.mem.Owned 64 a v) :
    Ends P (loadByte H a) fun b w => b = v ∧ P w :=
  hP.access fun w hw' => ⟨(hv w hw').seen, hP.still w _ hw' (still_fill w _)⟩

theorem load32_bytes (b : Buf) (o : Nat) :
    load32 (ofList [b o, b (o + 1), b (o + 2), b (o + 3)]) 0 = load32 b o := rfl

theorem ends_value {P : World → Prop} {c : M α} {v : α} {β : Type} {f : α → M β}
    {Q : β → World → Prop} (hc : Ends P c fun b w => b = v ∧ P w) (hf : Ends P (f v) Q) :
    Ends P (c >>= f) Q := by
  apply hc.bind
  intro b
  apply ends_of_imp
  rintro rfl
  exact hf

theorem Quiet.loadWord {P : World → Prop} (hP : Quiet g P) {a : Nat} {b : Buf}
    (hv : ∀ w, P w → ∀ i < 4, w.mem.Owned 64 (a + i) (b i)) :
    Ends P (loadWord H a) fun v w => v = load32 b 0 ∧ P w := by
  rw [Dma.loadWord]
  have hbyte (i : Nat) (hi : i < 4) := hP.loadByte (H := H) fun w hw' => hv w hw' i hi
  exact ends_value (hbyte 0 (by decide)) (ends_value (hbyte 1 (by decide))
    (ends_value (hbyte 2 (by decide)) (ends_value (hbyte 3 (by decide))
      (ends_pure fun w hw' => ⟨load32_bytes b 0, hw'⟩))))

theorem line_range (op : Nat → M Unit) {p : UInt64} (hline : p.toNat % 64 = 0)
    (hlow : p.toNat + 64 < 4294967296) :
    dcacheRange op (p + 64) lineLimit (p &&& ~~~63) = [p.toNat / 64].forM op := by
  have hstop : (p + 64).toNat = p.toNat + 64 := by
    rw [UInt64.toNat_add]
    exact Nat.mod_eq_of_lt (by simp only [UInt64.reduceToNat]; omega)
  have hcount : (p.toNat + 64 + 63) / 64 - p.toNat / 64 = 1 := by omega
  rw [dcacheRange_start op (by omega) (Nat.le_refl _), hstop, hcount]
  rfl

theorem desc_range (op : Nat → M Unit) :
    dcacheRange op (g.dmaDescRx + 64) lineLimit (g.dmaDescRx &&& ~~~63) =
      [g.dmaDescRx.toNat / 64].forM op := line_range op g.rx_line g.rx_low

theorem packet_range (op : Nat → M Unit) {n : Nat} {size : UInt64} (hsize : size.toNat = 64 * n)
    (hn : n ≤ 32) :
    dcacheRange op (g.rxPacket + size) lineLimit (g.rxPacket &&& ~~~63) =
      (List.range' (g.rxPacket.toNat / 64) n).forM op := by
  have hlow := g.packet_low
  have hline := g.packet_line
  have hstop : (g.rxPacket + size).toNat = g.rxPacket.toNat + 64 * n := by
    rw [UInt64.toNat_add, hsize]
    exact Nat.mod_eq_of_lt (by omega)
  have hcount : (g.rxPacket.toNat + 64 * n + 63) / 64 - g.rxPacket.toNat / 64 = n := by omega
  rw [dcacheRange_start op (by omega) (Nat.le_refl _), hstop, hcount]

theorem packet_line_iff {a n : Nat} (hn : n ≤ 32) :
    a / 64 ∈ List.range' (g.rxPacket.toNat / 64) n ↔
      g.rxPacket.toNat ≤ a ∧ a < g.rxPacket.toNat + 64 * n := by
  have hline := g.packet_line
  rw [List.mem_range'_1]
  omega

theorem shared_line {a b : Nat} (h : a / 64 = b / 64) : g.Shared a ↔ g.Shared b := by
  have hrx := g.rx_line
  have hpacket := g.packet_line
  rw [Layout.Shared, Layout.Shared, Layout.InDesc, Layout.InPacket, Layout.InDesc, Layout.InPacket]
  omega

def FreshOn (S : Nat → Prop) (w : World) : Prop := ∀ a, S a → w.mem.Owned 64 a (w.mem.ram a)

structure Asked (g : Layout) (q : RxState) (w : World) : Prop where
  state : InState g q w
  mine : Mine g w
  desc : FreshOn g.InDesc w

theorem FreshOn.still {S : Nat → Prop} {w w' : World} (h : FreshOn S w)
    (hc : ∀ a, g.Shared a → w.mem.Clean (a / 64)) (hS : ∀ a, S a → g.Shared a)
    (hs : Still g w w') : FreshOn S w' := by
  intro a ha
  rw [hs.mem.ram a (hS a ha) (hc a (hS a ha))]
  exact hs.mem.owned a _ (hS a ha) (h a ha)

theorem Asked.still {q : RxState} {w w' : World} (h : Asked g q w) (hs : Still g w w') :
    Asked g q w' :=
  ⟨h.state.still hs, h.mine.still hs, h.desc.still h.mine.clean (fun _ ha => Or.inl ha) hs⟩

theorem quiet_asked (q : RxState) : Quiet g (Asked g q) :=
  ⟨fun _ h => h.mine.lists, fun _ h => h.mine.inert, fun _ _ h hs => h.still hs⟩

structure Copied (g : Layout) (q : RxState) (n : Nat) (w : World) : Prop where
  asked : Asked g q w
  packet : FreshOn g.InPacket w
  copied : ∀ i < n, w.rxHandleBuf i = w.packet g i

theorem Copied.still {q : RxState} {n : Nat} {w w' : World} (hn : n ≤ 2048)
    (h : Copied g q n w) (hs : Still g w w') : Copied g q n w' := by
  refine ⟨h.asked.still hs, h.packet.still h.asked.mine.clean (fun _ ha => Or.inr ha) hs, ?_⟩
  intro i hi
  rw [hs.rxHandleBuf, packet_still h.asked.mine hs (Nat.lt_of_lt_of_le hi hn)]
  exact h.copied i hi

theorem quiet_copied {q : RxState} {n : Nat} (hn : n ≤ 2048) : Quiet g (Copied g q n) :=
  ⟨fun _ h => h.asked.mine.lists, fun _ h => h.asked.mine.inert, fun _ _ h hs => h.still hn hs⟩

theorem still_drop {w : World} {n : Nat} (h : w.mem.Clean n) :
    Still g w { w with mem := w.mem.drop n } := still_mem (Mem.keeps_drop h)

theorem ends_invalidate (q : RxState) :
    Ends (Asked g q) (invalidateDcacheRange H g.rxPacket (g.rxPacket + 2048))
      fun _ w => Asked g q w ∧ FreshOn g.InPacket w := by
  have hline : ∀ n ∈ List.range' (g.rxPacket.toNat / 64) 32, ∀ w, Asked g q w → w.mem.Clean n := by
    intro n hn w h
    have hdiv : 64 * n / 64 = n := Nat.mul_div_cancel_left n (by decide)
    rw [← hdiv, packet_line_iff (by decide)] at hn
    rw [← hdiv]
    exact h.mine.clean _ (Or.inr hn)
  rw [invalidateDcacheRange, packet_range (n := 32) _ rfl (by decide)]
  have hquiet (k : Nat) : Quiet g fun w => Asked g q w ∧
      FreshOn (fun a => g.Shared a ∧ a / 64 = k) w :=
    ⟨fun _ h => h.1.mine.lists, fun _ h => h.1.mine.inert,
      fun _ _ h hs => ⟨h.1.still hs, h.2.still h.1.mine.clean (fun _ ha => ha.1) hs⟩⟩
  have hall := Ends.forM_all (P := Asked g q)
    (D := fun n w => FreshOn (fun a => g.Shared a ∧ a / 64 = n) w)
    (fun n hn => (quiet_asked q).access (H := H)
      (f := fun w => ((), { w with mem := w.mem.drop n })) fun w h =>
        ⟨h.still (still_drop (hline n hn w h)), fun a ha => Mem.owned_drop ha.2⟩)
    (fun n hn k => (hquiet k).access fun w h =>
      h.2.still h.1.mine.clean (fun _ ha => ha.1) (still_drop (hline n hn w h.1)))
  refine hall.mono (fun _ h => h) fun _ w h => ⟨h.1, fun a ha => ?_⟩
  exact h.2 _ ((packet_line_iff (by decide)).mpr ha) a ⟨Or.inr ha, rfl⟩

theorem Mine.withBuf {w : World} (h : Mine g w) (b : Buf) : Mine g { w with rxHandleBuf := b } :=
  ⟨⟨h.lists.rx, h.lists.tx⟩, h.clean, h.own⟩

theorem InState.withBuf {q : RxState} {w : World} (h : InState g q w) (b : Buf) :
    InState g q { w with rxHandleBuf := b } := by
  refine ⟨h.trace, ?_⟩
  have hp := h.phase
  cases q with
  | unarmed => exact ⟨hp.1.withBuf b, hp.2⟩
  | armed =>
    have ha : Armed g w := hp
    exact ⟨⟨ha.lists.rx, ha.lists.tx⟩, ha.clean, ha.enabled, ha.own, ha.size, ha.buf⟩
  | waiting frames late => exact ⟨hp.1.withBuf b, hp.2⟩
  | holding =>
    have hh : Holding g w := hp
    exact ⟨⟨hh.lists.rx, hh.lists.tx⟩, hh.disabled, hh.desc, hh.clean⟩
  | spoiled =>
    have hl : Lists g w := hp
    exact ⟨hl.rx, hl.tx⟩

/-- The copy is of what the MAC wrote, since no line of the buffer is left. -/
theorem ends_copyPacket (q : RxState) :
    Ends (fun w => Asked g q w ∧ FreshOn g.InPacket w) (copyPacket H g)
      fun _ => Copied g q 2048 := by
  have hloop : Ends (Copied g q 0) (copyPacket H g) fun _ => Copied g q 2048 := by
    apply Ends.upto (I := Copied g q)
    intro i hi
    have hq := quiet_copied (g := g) (q := q) (Nat.le_of_lt hi)
    have hload : Ends (Copied g q i) (loadByte H (g.rxPacket.toNat + i))
        fun b w => b = w.packet g i ∧ Copied g q i w :=
      hq.access fun w h =>
        ⟨(h.packet _ (g.inPacket_of_lt hi)).seen.trans (congrFun Mem.fill_ram.symm _),
          hq.still w _ h (still_fill w _)⟩
    apply hload.bind
    rintro b w ⟨rfl, h⟩
    refine ⟨(), _, rfl, ⟨h.asked.state.withBuf _, h.asked.mine.withBuf _, h.asked.desc⟩,
      h.packet, ?_⟩
    intro j hj
    have hbyte : store8 w.rxHandleBuf i (w.packet g i) j = w.packet g j := by
      by_cases he : j = i
      · subst he
        exact store8_same _ _ _
      · rw [← h.copied j (Nat.lt_of_le_of_ne (Nat.le_of_lt_succ hj) he)]
        exact store8_off he
    exact hbyte
  exact hloop.mono (fun w h => ⟨h.1, h.2, fun i hi => absurd hi (Nat.not_lt_zero i)⟩)
    fun _ _ h => h

theorem Quiet.and {P R : World → Prop} (hP : Quiet g P)
    (hR : ∀ w w', R w → Still g w w' → R w') : Quiet g fun w => P w ∧ R w :=
  ⟨fun w h => hP.lists w h.1, fun w h => hP.inert w h.1,
    fun w w' h hs => ⟨hP.still w w' h.1 hs, hR w w' h.2 hs⟩⟩

def RxState.due : RxState → List (List UInt8 × Int)
  | waiting frames _ => frames
  | _ => []

structure Got (g : Layout) (q : RxState) (w : World) : Prop where
  trace : replay .unarmed w.trace = some q
  mine : Mine g w
  desc : FreshOn g.InDesc w
  packet : FreshOn g.InPacket w
  due : shown (framesOf w.rxDesc0 w.rxHandleBuf) = q.due

theorem Got.still {q : RxState} {w w' : World} (h : Got g q w) (hs : Still g w w') :
    Got g q w' where
  trace := hs.trace.trans h.trace
  mine := h.mine.still hs
  desc := h.desc.still h.mine.clean (fun _ ha => Or.inl ha) hs
  packet := h.packet.still h.mine.clean (fun _ ha => Or.inr ha) hs
  due := by
    rw [hs.rxHandleBuf, rxDesc0_still hs h.mine.lists fun a ha => h.mine.clean a (Or.inl ha)]
    exact h.due

theorem quiet_got (q : RxState) : Quiet g (Got g q) :=
  ⟨fun _ h => h.mine.lists, fun _ h => h.mine.inert, fun _ _ h hs => h.still hs⟩

inductive RxState.Found : RxState → Prop where
  | unarmed : Found .unarmed
  | waiting (frames : List (List UInt8 × Int)) (late : Bool) : Found (.waiting frames late)

theorem framesOf_zero (b : Buf) : framesOf ⟨0⟩ b = [] := by
  have hbad : rxStatus ⟨⟨0⟩, 0, 0⟩ = .discardFrame := by decide
  rw [framesOf, hbad]
  rfl

theorem Copied.got {q : RxState} {w : World} (hq : q.Found) (h : Copied g q 2048 w) :
    Got g q w := by
  refine ⟨h.asked.state.trace, h.asked.mine, h.asked.desc, h.packet, ?_⟩
  have hp := h.asked.state.phase
  rw [shown_congr _ h.copied]
  cases hq with
  | unarmed =>
    obtain ⟨-, -, hzero⟩ := hp
    rw [hzero, framesOf_zero]
    rfl
  | waiting frames late => exact hp.2.symm

def Disabled (w : World) : Prop := w.rxCtl1.getLsbD 30 = false

theorem Disabled.still {w w' : World} (h : Disabled w) (hs : Still g w w') : Disabled w' := by
  rw [Disabled, hs.rxCtl1]
  exact h

structure Taken (g : Layout) (q : RxState) (frames : List Frame) (w : World) : Prop where
  trace : replay .unarmed w.trace = some q
  holding : Holding g w
  due : shown frames = q.due

/-- With the engine off and the descriptor its own, the driver has all of the receive side. -/
theorem got_holding {q : RxState} {w : World} (h : Got g q w) (hd : Disabled w) : Holding g w :=
  ⟨h.mine.lists, hd, fun a ha => ⟨_, h.desc a ha⟩, fun a ha => h.mine.clean a (Or.inr ha)⟩

theorem quiet_readl {P : World → Prop} (hP : Quiet g P) (reg : Nat) :
    Ends P (readl H reg) fun _ => P := hP.access fun _ h => h

theorem ends_dmaRxDisable {q : RxState} :
    Ends (Got g q) (dmaRxEnable H false) fun _ w => Got g q w ∧ Disabled w := by
  apply (quiet_readl (quiet_got q) _).bind
  intro v
  apply (quiet_got q).access
  intro w h
  refine ⟨⟨h.trace, ⟨⟨h.mine.lists.rx, h.mine.lists.tx⟩, h.mine.clean, h.mine.own⟩, h.desc,
    h.packet, h.due⟩, ?_⟩
  have hoff : (v &&& ~~~0x40000000#32).getLsbD 30 = false := by simp
  exact hoff

theorem ends_clearInt {q : RxState} :
    Ends (fun w => Got g q w ∧ Disabled w) (writel H 0x3f00 gethIntSta)
      fun _ w => Got g q w ∧ Disabled w := by
  apply ((quiet_got q).and fun _ _ h hs => h.still hs).access
  rintro w ⟨h, hd⟩
  exact ⟨⟨h.trace, ⟨⟨h.mine.lists.rx, h.mine.lists.tx⟩, h.mine.clean, h.mine.own⟩, h.desc,
    h.packet, h.due⟩, hd⟩

/-- The descriptor's status, read back. -/
theorem ends_status {P : World → Prop} (hP : Quiet g P) (hd : ∀ w, P w → FreshOn g.InDesc w)
    (hc : ∀ w, P w → ∀ a, g.InDesc a → w.mem.Clean (a / 64)) :
    Ends P (loadWord H g.dmaDescRx.toNat)
      fun v w => Desc0.mk v.toBitVec = w.rxDesc0 ∧ P w := by
  intro w hw'
  have hb : Quiet g fun u => P u ∧
      ∀ i < 4, u.mem.ram (g.dmaDescRx.toNat + i) = w.mem.ram (g.dmaDescRx.toNat + i) := by
    refine ⟨fun u h => hP.lists u h.1, fun u h => hP.inert u h.1, ?_⟩
    rintro u u' ⟨h, hram⟩ hs
    refine ⟨hP.still u u' h hs, ?_⟩
    intro i hi
    have hin := g.inDesc_of_lt (i := i) (by omega)
    rw [hs.mem.ram _ (Or.inl hin) (hc u h _ hin)]
    exact hram i hi
  obtain ⟨v, u, hrun, rfl, hu, hram⟩ := hb.loadWord (H := H) (a := g.dmaDescRx.toNat)
    (b := fun i => w.mem.ram (g.dmaDescRx.toNat + i)) (by
      rintro u ⟨h, hram⟩ i hi
      rw [← hram i hi]
      exact hd u h _ (g.inDesc_of_lt (by omega))) w ⟨hw', fun i _ => rfl⟩
  refine ⟨_, u, hrun, ?_, hu⟩
  have hword : load32 u.mem.ram g.dmaDescRx.toNat =
      load32 (fun i => w.mem.ram (g.dmaDescRx.toNat + i)) 0 := by
    rw [load32, load32, ← hram 0 (by decide), ← hram 1 (by decide), ← hram 2 (by decide),
      ← hram 3 (by decide)]
    rfl
  rw [World.rxDesc0, desc0, (hP.lists u hu).rx, g.rxList_toNat, hword]

theorem quiet_clean {P : World → Prop} (hP : Quiet g P) (l : List Nat) :
    Ends P (l.forM fun n => access H fun w => ((), { w with mem := w.mem.clean 64 n }))
      fun _ => P :=
  Ends.forM fun _ _ => hP.access fun w h => hP.still w _ h (still_mem Mem.keeps_clean)

structure Wiping (g : Layout) (q : RxState) (w : World) : Prop where
  trace : replay .unarmed w.trace = some q
  lists : Lists g w
  disabled : Disabled w
  owned : ∀ a, g.Shared a → ∃ v, w.mem.Owned 64 a v
  clean : ∀ a, g.InPacket a → g.rxPacket.toNat + 64 ≤ a → w.mem.Clean (a / 64)

theorem quiet_wiping (q : RxState) : Quiet g (Wiping g q) := by
  refine ⟨fun _ h => h.lists, fun _ h => Or.inl h.disabled, ?_⟩
  intro w w' h hs
  refine ⟨hs.trace.trans h.trace, h.lists.still hs, h.disabled.still hs, ?_,
    fun a ha hfar => hs.mem.clean a (Or.inr ha) (h.clean a ha hfar)⟩
  intro a ha
  obtain ⟨v, hv⟩ := h.owned a ha
  exact ⟨v, hs.mem.owned a v ha hv⟩

theorem ends_wipe (q : RxState) :
    Ends (Wiping g q) (upto (fun i => storeByte H (g.rxPacket.toNat + i) 0) 64)
      fun _ => Wiping g q := by
  apply Ends.upto (I := fun _ => Wiping g q)
  intro i hi
  apply (quiet_wiping q).access
  intro w h
  have hline := g.packet_line
  refine ⟨h.trace, ⟨h.lists.rx, h.lists.tx⟩, h.disabled, ?_, ?_⟩
  · intro a ha
    by_cases he : a = g.rxPacket.toNat + i
    · subst he
      exact ⟨0, Mem.owned_store⟩
    · obtain ⟨v, hv⟩ := h.owned a ha
      exact ⟨v, hv.store he⟩
  · intro a ha hfar
    exact (Mem.store_clean_ne (by omega)).mpr (h.clean a ha hfar)

theorem ends_flushWiped (q : RxState) :
    Ends (Wiping g q) (flushCache H g.rxPacket 64)
      fun _ w => replay .unarmed w.trace = some q ∧ Holding g w := by
  rw [flushCache, flushDcacheRange, packet_range (n := 1) _ rfl (by decide)]
  have hone : Ends (Wiping g q)
      (access H fun w => ((), { w with mem := w.mem.clean 64 (g.rxPacket.toNat / 64) }))
      fun _ w => replay .unarmed w.trace = some q ∧ Holding g w := by
    apply (quiet_wiping q).access
    intro w h
    have hs := (quiet_wiping q).still w _ h
      (still_mem (Mem.keeps_clean (n := g.rxPacket.toNat / 64)))
    refine ⟨hs.trace, hs.lists, hs.disabled, fun a ha => hs.owned a (Or.inl ha), ?_⟩
    intro a ha
    have hline := g.packet_line
    by_cases hfar : g.rxPacket.toNat + 64 ≤ a
    · exact hs.clean a ha hfar
    · have hfirst : a / 64 = g.rxPacket.toNat / 64 := by
        rw [Layout.InPacket] at ha
        omega
      rw [hfirst]
      exact Mem.clean_self
  exact hone.bind fun _ => ends_pure fun _ h => h

theorem Got.wiping {q : RxState} {w : World} (h : Got g q w) (hd : Disabled w) :
    Wiping g q w := by
  refine ⟨h.trace, h.mine.lists, hd, ?_, fun a ha _ => h.mine.clean a (Or.inr ha)⟩
  rintro a (ha | ha)
  · exact ⟨_, h.desc a ha⟩
  · exact ⟨_, h.packet a ha⟩

/-- The frame is taken, and the start of its buffer cleared. -/
theorem ends_gethTake {q : RxState} :
    Ends (fun w => Got g q w ∧ Disabled w) (gethTake H g) (Taken g q) := by
  have hq : Quiet g fun w => Got g q w ∧ Disabled w := (quiet_got q).and fun _ _ h hs => h.still hs
  apply (ends_status hq (fun w h => h.1.desc)
    (fun w h a ha => h.1.mine.clean a (Or.inl ha))).bind
  intro d
  have hdesc : Quiet g fun w => (Got g q w ∧ Disabled w) ∧ Desc0.mk d.toBitVec = w.rxDesc0 := by
    refine ⟨fun w h => hq.lists w h.1, fun w h => hq.inert w h.1, ?_⟩
    rintro w w' ⟨h, hd⟩ hs
    refine ⟨hq.still w w' h hs, ?_⟩
    rw [rxDesc0_still hs h.1.mine.lists fun a ha => h.1.mine.clean a (Or.inl ha)]
    exact hd
  by_cases hgood : rxStatus ⟨⟨d.toBitVec⟩, 0, 0⟩ ≠ .discardFrame
  · simp only [if_pos hgood]
    have hflush : Ends (fun w => (Got g q w ∧ Disabled w) ∧ Desc0.mk d.toBitVec = w.rxDesc0)
        (flushCache H g.rxPacket 2048)
        fun _ w => (Got g q w ∧ Disabled w) ∧ Desc0.mk d.toBitVec = w.rxDesc0 := by
      rw [flushCache, flushDcacheRange, packet_range (n := 32) _ rfl (by decide)]
      exact quiet_clean hdesc _
    refine (hflush.mono (fun w h => ⟨h.2, h.1⟩) fun _ _ h => h).bind fun _ => ?_
    rintro w ⟨⟨h, hd⟩, he⟩
    refine ⟨_, w, rfl, h.trace, got_holding h hd, ?_⟩
    rw [he]
    exact h.due
  · simp only [if_neg hgood]
    have hnone (b : Buf) : framesOf ⟨d.toBitVec⟩ b = [] := if_neg hgood
    rintro w ⟨hd, h, hdis⟩
    have hdue : q.due = [] := by
      rw [← h.due, ← hd, hnone]
      rfl
    have hpass : Ends (fun w => replay .unarmed w.trace = some q ∧ Holding g w)
        (fun w => some (framesOf ⟨d.toBitVec⟩ w.rxHandleBuf, w)) (Taken g q) := by
      rintro w ⟨htrace, hhold⟩
      refine ⟨_, w, rfl, htrace, hhold, ?_⟩
      rw [hnone, hdue]
      rfl
    exact ((ends_wipe q).bind fun _ => (ends_flushWiped q).bind fun _ => hpass)
      w (h.wiping hdis)

structure Written (g : Layout) (f : Buf) (w : World) : Prop where
  trace : replay .unarmed w.trace = some .holding
  holding : Holding g w
  bytes : ∀ i < 64, w.mem.Owned 64 (g.dmaDescRx.toNat + i) (f i)

theorem quiet_written (f : Buf) : Quiet g (Written g f) := by
  refine ⟨fun _ h => h.holding.lists, fun _ h => h.holding.inert, ?_⟩
  intro w w' h hs
  exact ⟨hs.trace.trans h.trace, h.holding.still hs,
    fun i hi => hs.mem.owned _ _ (Or.inl (g.inDesc_of_lt hi)) (h.bytes i hi)⟩

theorem written_some {w : World} (ht : replay .unarmed w.trace = some .holding)
    (h : Holding g w) : ∃ f, Written g f w := by
  refine ⟨fun i => w.mem.view 64 (g.dmaDescRx.toNat + i), ht, h, ?_⟩
  intro i hi
  obtain ⟨v, hv⟩ := h.desc _ (g.inDesc_of_lt hi)
  exact hv.seen.symm ▸ hv

theorem Written.store {f : Buf} {w : World} (h : Written g f w) {i : Nat} (hi : i < 64)
    (v : UInt8) :
    Written g (store8 f i v) { w with mem := w.mem.store 64 (g.dmaDescRx.toNat + i) v } := by
  have hbytes : ∀ j < 64, (w.mem.store 64 (g.dmaDescRx.toNat + i) v).Owned 64
      (g.dmaDescRx.toNat + j) (store8 f i v j) := by
    intro j hj
    by_cases he : j = i
    · subst he
      rw [store8_same]
      exact Mem.owned_store
    · rw [store8_off he]
      exact (h.bytes j hj).store (by omega)
  refine ⟨h.trace, ⟨⟨h.holding.lists.rx, h.holding.lists.tx⟩, h.holding.disabled, ?_, ?_⟩,
    hbytes⟩
  · intro a ha
    have hoff : g.dmaDescRx.toNat + (a - g.dmaDescRx.toNat) = a := Nat.add_sub_cancel' ha.1
    have hown := hbytes (a - g.dmaDescRx.toNat) (by rw [Layout.InDesc] at ha; omega)
    rw [hoff] at hown
    exact ⟨_, hown⟩
  · intro a ha
    have hne : a / 64 ≠ (g.dmaDescRx.toNat + i) / 64 := by
      intro he
      have hin : g.InDesc a := g.inDesc_line.mpr (he.trans (g.inDesc_line.mp (g.inDesc_of_lt hi)))
      exact g.not_packet hin ha
    exact (Mem.store_clean_ne hne).mpr (h.holding.clean a ha)

theorem store8_patch (b : Buf) (o n : Nat) (f : Nat → UInt8) :
    store8 (patch b o n f) (o + n) (f n) = patch b o (n + 1) f := by
  funext i
  by_cases he : i = o + n
  · rw [he, store8_same, patch_on (Nat.lt_succ_self n)]
  · rw [store8_off he, patch, patch]
    exact if_congr (by omega) rfl rfl

theorem ends_stores (f : Buf) {o n : Nat} (ho : o + n ≤ 64) (b : Nat → UInt8) :
    Ends (Written g f) (upto (fun i => storeByte H (g.dmaDescRx.toNat + o + i) (b i)) n)
      fun _ => Written g (patch f o n b) := by
  have hloop : Ends (Written g (patch f o 0 b))
      (upto (fun i => storeByte H (g.dmaDescRx.toNat + o + i) (b i)) n)
      fun _ => Written g (patch f o n b) := by
    apply Ends.upto (I := fun i => Written g (patch f o i b))
    intro i hi
    apply (quiet_written _).access
    intro w h
    have hstore := h.store (i := o + i) (by omega) (b i)
    rw [store8_patch, ← Nat.add_assoc] at hstore
    exact hstore
  rwa [patch_zero] at hloop

def filled (g : Layout) (f : Buf) : Buf :=
  store64 (store32 (store32 (store32 f 0 0x80000000) 4 0x81000000) 4 0x810007ff) 8 g.rxPacket

theorem filled_own (f : Buf) : load32 (filled g f) 0 = 0x80000000 := by
  rw [filled, load32_patch_off (by omega), load32_patch_off (by omega),
    load32_patch_off (by omega), load32_store32]

theorem filled_size (f : Buf) : load32 (filled g f) 4 = 0x810007ff := by
  rw [filled, load32_patch_off (by omega), load32_store32]

theorem filled_buf (f : Buf) : (load32 (filled g f) 8).toNat = g.rxPacket.toNat := by
  have hlow := g.packet_low
  rw [filled]
  generalize store32 _ 4 _ = b
  simp [load32, patch, bytes64]
  omega

theorem ends_writeDesc (f : Buf) {α : Type} {c : M α} {Q : α → World → Prop}
    (hc : Ends (Written g (filled g f)) c Q) :
    Ends (Written g f) (do
      storeWord H g.dmaDescRx.toNat 0x80000000
      storeWord H (g.dmaDescRx.toNat + 4) 0x81000000
      let desc1 ← loadWord H (g.dmaDescRx.toNat + 4)
      storeWord H (g.dmaDescRx.toNat + 4) (desc1 ||| (((1 : UInt32) <<< 11) - 1))
      storeLong H (g.dmaDescRx.toNat + 8) g.rxPacket
      c) Q := by
  apply (ends_stores f (o := 0) (n := 4) (by decide) (bytes32 0x80000000)).bind
  intro _
  apply (ends_stores _ (o := 4) (n := 4) (by decide) (bytes32 0x81000000)).bind
  intro _
  have hload := (quiet_written (g := g) (store32 (store32 f 0 0x80000000) 4 0x81000000)).loadWord
    (H := H) (a := g.dmaDescRx.toNat + 4) (b := bytes32 0x81000000) (by
      intro w h i hi
      have hbyte := h.bytes (4 + i) (by omega)
      have hval : store32 (store32 f 0 0x80000000) 4 0x81000000 (4 + i) =
          bytes32 0x81000000 i := patch_on hi
      rw [hval, ← Nat.add_assoc] at hbyte
      exact hbyte)
  apply ends_value hload
  have hsize : load32 (bytes32 0x81000000) 0 ||| (((1 : UInt32) <<< 11) - 1) = 0x810007ff := by
    decide
  rw [hsize]
  apply (ends_stores _ (o := 4) (n := 4) (by decide) (bytes32 0x810007ff)).bind
  intro _
  exact (ends_stores _ (o := 8) (n := 8) (by decide) (bytes64 g.rxPacket)).bind fun _ => hc

def Flushed (g : Layout) (f : Buf) (w : World) : Prop :=
  Written g f w ∧ w.mem.Clean (g.dmaDescRx.toNat / 64)

theorem quiet_flushed (f : Buf) : Quiet g (Flushed g f) := by
  refine ⟨fun w h => (quiet_written f).lists w h.1, fun w h => (quiet_written f).inert w h.1, ?_⟩
  intro w w' h hs
  exact ⟨(quiet_written f).still w w' h.1 hs,
    hs.mem.clean g.dmaDescRx.toNat (Or.inl (g.inDesc_of_lt (i := 0) (by decide))) h.2⟩

/-- The line of the descriptor goes to memory, with all of its words. -/
theorem ends_flushDesc (f : Buf) :
    Ends (Written g f) (flushCache H g.dmaDescRx 64) fun _ => Flushed g f := by
  rw [flushCache, flushDcacheRange, desc_range]
  have hone : Ends (Written g f)
      (access H fun w => ((), { w with mem := w.mem.clean 64 (g.dmaDescRx.toNat / 64) }))
      fun _ => Flushed g f :=
    (quiet_written f).access fun w h =>
      ⟨(quiet_written f).still w _ h (still_mem Mem.keeps_clean), Mem.clean_self⟩
  exact hone.bind fun _ => ends_pure fun _ h => h

theorem Flushed.word {f : Buf} {w : World} (h : Flushed g f w) {k : Nat} (hk : k + 4 ≤ 64) :
    load32 w.mem.ram (w.rxDescList.toNat + k) = load32 f k := by
  rw [h.1.holding.lists.rx, g.rxList_toNat]
  apply load32_congr
  intro i hi
  have hown := h.1.bytes (k + i) (by omega)
  rw [← Nat.add_assoc] at hown
  have hin : g.InDesc (g.dmaDescRx.toNat + k + i) := by
    rw [Nat.add_assoc]
    exact g.inDesc_of_lt (by omega)
  apply hown.back
  rw [g.inDesc_line.mp hin]
  exact h.2

/-- All that `Armed` asks for, but the engine. -/
theorem Flushed.armed {f : Buf} {w : World} (h : Flushed g (filled g f) w) (v : BitVec 32)
    (hv : v.getLsbD 30 = true) : Armed g { w with rxCtl1 := v } := by
  have hown : w.rxDesc0 = ⟨0x80000000⟩ := by
    have hword := h.word (k := 0) (by decide)
    rw [filled_own] at hword
    exact congrArg (fun v : UInt32 => Desc0.mk v.toBitVec) hword
  have hsize : descSize w.mem.ram w.rxDescList = 2047 := by
    rw [descSize, h.word (by decide), filled_size]
    rfl
  have hbuf : descBuf w.mem.ram w.rxDescList = g.rxPacket.toNat := by
    rw [descBuf, h.word (by decide), filled_buf]
  refine ⟨⟨h.1.holding.lists.rx, h.1.holding.lists.tx⟩, ?_, hv,
    (congrArg Desc0.own hown).trans (by decide), hsize, hbuf⟩
  rintro a (ha | ha)
  · rw [g.inDesc_line.mp ha]
    exact h.2
  · exact h.1.holding.clean a ha

/-- From the write of `GETH_RX_CTL1` on, the MAC receives again. -/
theorem ends_armRx (f : Buf) :
    Ends (Flushed g (filled g f)) (do
      writel H (g.dmaDescRx.toBitVec.setWidth 32) gethRxDescList
      dmaRxEnable H true)
      fun _ w => replay .unarmed w.trace = some .holding ∧ Armed g w := by
  have hq := quiet_flushed (g := g) (filled g f)
  have hlist : Ends (Flushed g (filled g f))
      (writel H (g.dmaDescRx.toBitVec.setWidth 32) gethRxDescList)
      fun _ => Flushed g (filled g f) := by
    apply hq.access
    intro w h
    have hsame : w.rxDescList = g.dmaDescRx.toBitVec.setWidth 32 := h.1.holding.lists.rx
    have hnone : { w with rxDescList := g.dmaDescRx.toBitVec.setWidth 32 } = w := by
      rw [← hsame]
    exact hnone.symm ▸ h
  apply hlist.bind
  intro _
  apply (quiet_readl hq _).bind
  intro v
  apply hq.access
  intro w h
  have hon : (v ||| 0x40000000#32).getLsbD 30 = true := by simp
  exact ⟨h.1.trace, h.armed _ hon⟩

/-- The label `fill`, to the end of `geth_recv`. -/
theorem ends_gethFill :
    Ends (InState g .holding) (do
      gethFill H g
      mark fun _ => .fill) fun _ => InState g .armed := by
  rintro w ⟨htrace, hphase⟩
  obtain ⟨f, hf⟩ := written_some htrace hphase
  have hmark : Ends (fun w => replay .unarmed w.trace = some .holding ∧ Armed g w)
      (mark fun _ => .fill) fun _ => InState g .armed := by
    rintro w ⟨ht, ha⟩
    refine ⟨(), _, rfl, ?_, ?_⟩
    · exact (replay_log _).trans (by rw [ht]; rfl)
    · exact ⟨⟨ha.lists.rx, ha.lists.tx⟩, ha.clean, ha.enabled, ha.own, ha.size, ha.buf⟩
  have hfill : Ends (Written g f) (gethFill H g)
      fun _ w => replay .unarmed w.trace = some .holding ∧ Armed g w :=
    ends_writeDesc f ((ends_flushDesc _).bind fun _ => ends_armRx f)
  exact (hfill.bind fun _ => hmark) w hf

end EmacDriver.Dma
