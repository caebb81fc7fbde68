import EmacDriver.Alloc

namespace EmacDriver

def alignUp (alignment addr : Nat) : Nat :=
  if addr % alignment = 0 then addr else addr + (alignment - addr % alignment)

theorem alignUp_spec {alignment : Nat} (addr : Nat) (h : 0 < alignment) :
    addr ≤ alignUp alignment addr ∧ alignment ∣ alignUp alignment addr := by
  unfold alignUp
  split
  · rename_i hz
    exact ⟨Nat.le_refl _, Nat.dvd_of_mod_eq_zero hz⟩
  · have hlt := Nat.mod_lt addr h
    refine ⟨Nat.le_add_right _ _, addr / alignment + 1, ?_⟩
    have hdiv := Nat.div_add_mod addr alignment
    rw [Nat.mul_add, Nat.mul_one]
    omega

/-- Rounding up wraps only where the multiple itself is out of reach. -/
theorem memalignRoundup_toNat {alignment : UInt64} (addr : UInt64) (h0 : 0 < alignment.toNat)
    (h : alignUp alignment.toNat addr.toNat < 18446744073709551616) :
    (memalignRoundup alignment addr).toNat = alignUp alignment.toNat addr.toNat := by
  have hmod : (addr % alignment).toNat = addr.toNat % alignment.toNat := UInt64.toNat_mod _ _
  unfold memalignRoundup
  unfold alignUp at h ⊢
  by_cases hz : addr.toNat % alignment.toNat = 0
  · have hz' : addr % alignment = 0 := UInt64.toNat_inj.mp (hmod.trans hz)
    simp [hz, hz']
  · have hz' : addr % alignment ≠ 0 := by
      intro hc
      rw [hc] at hmod
      exact hz hmod.symm
    rw [if_neg hz] at h ⊢
    rw [if_pos hz', UInt64.toNat_sub, UInt64.toNat_add, hmod]
    have hlt := Nat.mod_lt addr.toNat h0
    have hle := Nat.mod_le addr.toNat alignment.toNat
    have ha := addr.toNat_lt
    omega

namespace AllocCall

def Fits (a : Arena) : AllocCall → Prop
  | malloc size => a.sz.toNat + size.toNat ≤ 16384
  | calloc nelem elsize => a.sz.toNat + nelem.toNat * elsize.toNat ≤ 16384
  | memalign alignment size =>
    alignUp alignment.toNat (a.buf.toNat + a.sz.toNat) + size.toNat ≤ a.buf.toNat + 16384

def Alignable : AllocCall → Prop
  | memalign alignment _ => 0 < alignment.toNat
  | _ => True

def Aligned (p : UInt64) : AllocCall → Prop
  | memalign alignment _ => alignment.toNat ∣ p.toNat
  | _ => True

end AllocCall

/-- The array is an object of the address space: the pointer behind it is one too. -/
def Arena.InSpace (a : Arena) : Prop := a.buf.toNat + 16384 < 18446744073709551616

/-- What a call that fits does: its block starts behind all earlier ones and the
counter moves to the block's end. -/
structure Placed (a : Arena) (c : AllocCall) (r : UInt64 × Arena) : Prop where
  buf : r.2.buf = a.buf
  above : a.buf.toNat + a.sz.toNat ≤ r.1.toNat
  top : r.1.toNat + c.bytes = a.buf.toNat + r.2.sz.toNat
  room : r.2.sz.toNat ≤ 16384
  aligned : c.Aligned r.1

theorem malloc_placed {a : Arena} {size : UInt64} (hs : a.InSpace)
    (hf : (AllocCall.malloc size).Fits a) : Placed a (.malloc size) (malloc a size) := by
  simp only [AllocCall.Fits] at hf
  unfold Arena.InSpace at hs
  have hsz : (a.sz.toUInt64 + size).toUInt32.toNat = a.sz.toNat + size.toNat := by
    rw [UInt64.toNat_toUInt32, UInt64.toNat_add, UInt32.toNat_toUInt64]
    omega
  have hp : (a.buf + (a.sz.toUInt64 + size).toUInt32.toUInt64 - size).toNat =
      a.buf.toNat + a.sz.toNat := by
    rw [UInt64.toNat_sub, UInt64.toNat_add, UInt32.toNat_toUInt64, hsz]
    omega
  refine ⟨rfl, Nat.le_of_eq hp.symm, ?_, ?_, trivial⟩
  · simp only [malloc, AllocCall.bytes, hp, hsz]
    omega
  · simp only [malloc, hsz]
    exact hf

theorem calloc_placed {a : Arena} {nelem elsize : UInt64} (hs : a.InSpace)
    (hf : (AllocCall.calloc nelem elsize).Fits a) :
    Placed a (.calloc nelem elsize) (calloc a nelem elsize) := by
  simp only [AllocCall.Fits] at hf
  unfold Arena.InSpace at hs
  have hp : (a.buf + a.sz.toUInt64).toNat = a.buf.toNat + a.sz.toNat := by
    rw [UInt64.toNat_add, UInt32.toNat_toUInt64]
    omega
  have hsz : (a.sz.toUInt64 + nelem * elsize).toUInt32.toNat =
      a.sz.toNat + nelem.toNat * elsize.toNat := by
    rw [UInt64.toNat_toUInt32, UInt64.toNat_add, UInt64.toNat_mul, UInt32.toNat_toUInt64]
    omega
  refine ⟨rfl, Nat.le_of_eq hp.symm, ?_, ?_, trivial⟩
  · simp only [calloc, AllocCall.bytes, hp, hsz]
    omega
  · simp only [calloc, hsz]
    exact hf

/-- The block is behind the padding, which counts too. -/
theorem memalign_placed {a : Arena} {alignment size : UInt64} (hs : a.InSpace)
    (ha : (AllocCall.memalign alignment size).Alignable)
    (hf : (AllocCall.memalign alignment size).Fits a) :
    Placed a (.memalign alignment size) (memalign a alignment size) := by
  simp only [AllocCall.Fits] at hf
  simp only [AllocCall.Alignable] at ha
  unfold Arena.InSpace at hs
  obtain ⟨hle, hdvd⟩ := alignUp_spec (a.buf.toNat + a.sz.toNat) ha
  have hbuf : (a.buf + a.sz.toUInt64).toNat = a.buf.toNat + a.sz.toNat := by
    rw [UInt64.toNat_add, UInt32.toNat_toUInt64]
    omega
  have hup := memalignRoundup_toNat (a.buf + a.sz.toUInt64) ha (by rw [hbuf]; omega)
  rw [hbuf] at hup
  revert hf hle hdvd hup
  generalize alignUp alignment.toNat (a.buf.toNat + a.sz.toNat) = up
  intro hf hle hdvd hup
  have hsz : (memalignRoundup alignment (a.buf + a.sz.toUInt64) - a.buf + size).toUInt32.toNat =
      up - a.buf.toNat + size.toNat := by
    rw [UInt64.toNat_toUInt32, UInt64.toNat_add, UInt64.toNat_sub, hup]
    omega
  have hp : (memalign a alignment size).1.toNat = up := by
    simp only [memalign]
    rw [UInt64.toNat_sub, UInt64.toNat_add, UInt32.toNat_toUInt64, hsz]
    omega
  refine ⟨rfl, hp ▸ hle, ?_, ?_, ?_⟩
  · rw [hp]
    simp only [memalign, AllocCall.bytes, hsz]
    omega
  · simp only [memalign, hsz]
    omega
  · simp only [AllocCall.Aligned, hp]
    exact hdvd

/-- Each of the three allocators places its block. -/
theorem run_placed {a : Arena} {c : AllocCall} (hs : a.InSpace) (ha : c.Alignable)
    (hf : c.Fits a) : Placed a c (c.run a) := by
  cases c with
  | malloc size => exact malloc_placed hs hf
  | calloc nelem elsize => exact calloc_placed hs hf
  | memalign alignment size => exact memalign_placed hs ha hf

@[simp] theorem Heap.call_addr (h : Heap) (c : AllocCall) :
    (h.call c).1 = (c.run (h c.allocator)).1 := rfl

@[simp] theorem Heap.call_same (h : Heap) (c : AllocCall) :
    (h.call c).2 c.allocator = (c.run (h c.allocator)).2 := by
  simp [Heap.call]

@[simp] theorem Heap.call_other (h : Heap) (c : AllocCall) (x : Allocator)
    (hx : x ≠ c.allocator) : (h.call c).2 x = h x := by
  simp [Heap.call, hx]

def FitsRun : Heap → List AllocCall → Prop
  | _, [] => True
  | h, c :: calls => c.Fits (h c.allocator) ∧ FitsRun (h.call c).2 calls

structure Free (h : Heap) (r : Returned) : Prop where
  above : (h r.call.allocator).buf.toNat + (h r.call.allocator).sz.toNat ≤ r.addr.toNat
  inside : r.addr.toNat + r.call.bytes ≤ (h r.call.allocator).buf.toNat + 16384
  aligned : r.call.Aligned r.addr

/-- A call only moves counters up, so what is free later was free before. -/
theorem Free.of_call {h : Heap} {c : AllocCall} {r : Returned}
    (hp : Placed (h c.allocator) c (c.run (h c.allocator))) (hf : Free (h.call c).2 r) :
    Free h r ∧ (r.call.allocator = c.allocator →
      (h.call c).1.toNat + c.bytes ≤ r.addr.toNat) := by
  obtain ⟨habove, hinside, haligned⟩ := hf
  by_cases hx : r.call.allocator = c.allocator
  · rw [hx, Heap.call_same] at habove hinside
    have hbuf := congrArg UInt64.toNat hp.buf
    have htop := hp.top
    have hlow := hp.above
    refine ⟨⟨?_, ?_, haligned⟩, fun _ => ?_⟩
    · rw [hx]
      omega
    · rw [hx]
      omega
    · rw [Heap.call_addr]
      omega
  · rw [Heap.call_other h c _ hx] at habove hinside
    exact ⟨⟨habove, hinside, haligned⟩, fun hc => absurd hc hx⟩

theorem inSpace_call {h : Heap} {c : AllocCall} (hs : ∀ x, (h x).InSpace)
    (hp : Placed (h c.allocator) c (c.run (h c.allocator))) : ∀ x, ((h.call c).2 x).InSpace := by
  intro x
  by_cases hx : x = c.allocator
  · have hc := hs c.allocator
    rw [hx, Heap.call_same]
    unfold Arena.InSpace at hc ⊢
    rw [hp.buf]
    exact hc
  · rw [Heap.call_other h c x hx]
    exact hs x

def NoOverlap (r r' : Returned) : Prop :=
  r.call.allocator = r'.call.allocator → r.addr = 0 ∨ r'.addr = 0 ∨
    r.addr.toNat + r.call.bytes ≤ r'.addr.toNat ∨ r'.addr.toNat + r'.call.bytes ≤ r.addr.toNat

/-- A run whose calls fit takes its blocks from the free part, one behind the
other. -/
theorem run_free {h : Heap} {calls : List AllocCall} (hs : ∀ x, (h x).InSpace)
    (ha : ∀ c ∈ calls, c.Alignable) (hf : FitsRun h calls) :
    (∀ r ∈ h.run calls, Free h r) ∧ (h.run calls).Pairwise NoOverlap := by
  induction calls generalizing h with
  | nil => exact ⟨by simp [Heap.run], List.Pairwise.nil⟩
  | cons c calls ih =>
    obtain ⟨hfit, hrest⟩ := hf
    have hp := run_placed (hs c.allocator) (ha c List.mem_cons_self) hfit
    obtain ⟨hfree, hapart⟩ := ih (inSpace_call hs hp)
      (fun d hd => ha d (List.mem_cons_of_mem _ hd)) hrest
    constructor
    · intro r hr
      rcases List.mem_cons.mp hr with rfl | hr
      · have htop := hp.top
        have hroom := hp.room
        exact ⟨hp.above, by dsimp only [Heap.call_addr]; omega, hp.aligned⟩
      · exact (Free.of_call hp (hfree r hr)).1
    · apply List.Pairwise.cons
      · intro r hr hx
        exact Or.inr (Or.inr (Or.inl ((Free.of_call hp (hfree r hr)).2 hx.symm)))
      · exact hapart

/-- What the callers rely on: null, or a block of one's own inside the array. -/
structure AllocSound (buf : Allocator → UInt64) (rs : List Returned) : Prop where
  inside : ∀ r ∈ rs, r.addr = 0 ∨ (buf r.call.allocator).toNat ≤ r.addr.toNat ∧
    r.addr.toNat + r.call.bytes ≤ (buf r.call.allocator).toNat + 16384
  apart : rs.Pairwise NoOverlap
  aligned : ∀ r ∈ rs, r.addr = 0 ∨ r.call.Aligned r.addr

/-- The allocators are sound while their arrays last. -/
theorem alloc_sound_while_fits (buf : Allocator → UInt64) (calls : List AllocCall)
    (hs : ∀ x, (buf x).toNat + 16384 < 18446744073709551616) (ha : ∀ c ∈ calls, c.Alignable)
    (hf : FitsRun (.fresh buf) calls) : AllocSound buf ((Heap.fresh buf).run calls) := by
  obtain ⟨hfree, hapart⟩ := run_free (h := .fresh buf) hs ha hf
  refine ⟨?_, hapart, ?_⟩
  · intro r hr
    have hr := hfree r hr
    exact Or.inr ⟨Nat.le_trans (Nat.le_add_right _ _) hr.above, hr.inside⟩
  · intro r hr
    exact Or.inr (hfree r hr).aligned

def sampleBuf : Allocator → UInt64
  | .malloc => 0x42000000
  | .calloc => 0x42004000
  | .memalign => 0x42008000

theorem alloc_sound_while_fits_some :
    AllocSound sampleBuf ((Heap.fresh sampleBuf).run
      [.malloc 100, .memalign 64 2048, .malloc 24, .memalign 64 4096]) := by
  apply alloc_sound_while_fits
  · intro x
    cases x <;> decide
  · simp only [List.mem_cons, List.not_mem_nil, or_false]
    rintro c (rfl | rfl | rfl | rfl)
    all_goals simp [AllocCall.Alignable]
  · simp only [FitsRun, AllocCall.Fits]
    decide +kernel

/-- The array used up, the next block lies behind it, and no call returns null. -/
theorem alloc_exhausted :
    ¬ ∀ (buf : Allocator → UInt64) (calls : List AllocCall),
      (∀ x, (buf x).toNat + 16384 < 18446744073709551616) → (∀ c ∈ calls, c.Alignable) →
      AllocSound buf ((Heap.fresh buf).run calls) := by
  intro h
  have hin := (h sampleBuf [.malloc 16384, .malloc 1] (fun x => by cases x <;> decide)
    (by simp [AllocCall.Alignable])).inside ⟨.malloc 1, 0x42004000⟩ (by decide +kernel)
  revert hin
  decide

end EmacDriver
