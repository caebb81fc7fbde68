import EmacDriver.Proofs.MiiRegistry

namespace EmacDriver
open DoublyLinked

variable {σ : Type}

/-- What is stored of a name. -/
theorem legacyBus_name {name : CStr} (ldev : LegacyMiiDev σ) (h : 0 ∉ name) :
    (legacyBus name ldev).name.takeWhile (· ≠ 0) = name.take 31 := by
  have hlen : (strncpy name 32).length = 32 := by
    simp only [strncpy, List.length_append, List.length_take, List.length_replicate]
    omega
  have htake : (strncpy name 32).take 31 = name.take 31 ++ List.replicate (31 - name.length) 0 := by
    rw [strncpy, List.take_append, List.take_take, List.length_take, List.take_replicate]
    congr 2
    omega
  have hzeros (k : Nat) (r : List UInt8) :
      (List.replicate k (0 : UInt8) ++ 0 :: r).takeWhile (· ≠ 0) = [] := by
    cases k <;> simp [List.replicate_succ]
  have hall : ∀ c ∈ name.take 31, decide (c ≠ 0) = true := by
    intro c hc
    simp only [decide_eq_true_eq]
    rintro rfl
    exact h (List.mem_of_mem_take hc)
  have hset : (legacyBus name ldev).name = (strncpy name 32).set 31 0 := rfl
  rw [hset, List.set_eq_take_append_cons_drop, if_pos (by omega), htake, List.append_assoc,
    List.takeWhile_append_of_pos hall, hzeros, List.append_nil]

structure Tracked (r : MiiRun σ) (l : List Nat) : Prop where
  orderly : Orderly r.mii l
  accepted : ∀ a ∈ r.accepted, a.2 ∈ l ∧ r.mii.name a.2 = a.1

structure Coherent (r : MiiRun σ) : Prop where
  linked : Ring r.mii.links.next r.mii.links.prev .miiDevs (r.mii.buses.map .bus)
  nodup : r.mii.buses.Nodup
  distinct : (r.mii.buses.map r.mii.name).Nodup
  found : ∀ a ∈ r.accepted, miiphyGetDevByName r.mii (some a.1) = some (some a.2)
  current : ∀ p, r.mii.currentMii = some p → p ∈ r.mii.buses
  active : ∀ name, 0 ∉ name → ∃ dev m, miiphyGetDevByName r.mii (some name) = some dev ∧
    miiphyGetActiveDev r.mii name = some (dev, m)

theorem Tracked.coherent {r : MiiRun σ} {l : List Nat} (h : Tracked r l) : Coherent r := by
  have hl := h.orderly.buses_eq
  refine ⟨?_, ?_, ?_, ?_, ?_, ?_⟩
  · rw [hl]
    exact h.orderly.ring
  · rw [hl]
    exact h.orderly.nodup
  · rw [hl]
    exact h.orderly.distinct
  · intro a ha
    obtain ⟨hmem, hname⟩ := h.accepted a ha
    rw [← hname]
    exact h.orderly.get_some hmem
  · rw [hl]
    exact h.orderly.current
  · intro name hn
    obtain ⟨dev, m, hget, hactive, -, -⟩ := h.orderly.activeDev hn
    exact ⟨dev, m, hget, hactive⟩

def MiiOp.Fits : MiiOp σ → Prop
  | miiphyRegister name _ newDev hasLdev =>
    newDev.isSome → hasLdev = true → name.length < 32
  | _ => True

def Keeps (m m' : Mii σ) (l l' : List Nat) (gone : Option Nat) : Prop :=
  ∀ q ∈ l, some q ≠ gone → q ∈ l' ∧ m'.name q = m.name q

theorem Keeps.of_mem {m m' : Mii σ} {l : List Nat} {gone : Option Nat} (h : m'.mem = m.mem) :
    Keeps m m' l l gone := by
  intro q hq _
  refine ⟨hq, ?_⟩
  rw [Mii.name, h]
  rfl

def registered (m : Mii σ) (name : CStr) (ldev : LegacyMiiDev σ) (p : Nat) : Mii σ :=
  addBus (setBus (mdioAlloc m (some p)) p (legacyBus name ldev)) p

theorem registered_name {m : Mii σ} {name : CStr} {ldev : LegacyMiiDev σ} {p : Nat}
    (h : 0 ∉ name) : (registered m name ldev p).name p = name.take 31 := by
  have hmem : (registered m name ldev p).mem p = legacyBus name ldev := Function.update_self ..
  rw [Mii.name, hmem]
  exact legacyBus_name ldev h

theorem registered_name_ne {m : Mii σ} {name : CStr} {ldev : LegacyMiiDev σ} {p q : Nat}
    (h : q ≠ p) : (registered m name ldev p).name q = m.name q :=
  (setBus_name (m := mdioAlloc m (some p)) (legacyBus name ldev) h).trans (setBus_name _ h)

theorem Orderly.registered {m : Mii σ} {l : List Nat} (h : Orderly m l) {name : CStr}
    {ldev : LegacyMiiDev σ} {p : Nat} (hname : 0 ∉ name) (hshort : name.length < 32)
    (hget : miiphyGetDevByName m (some name) = some none) (hp : p ∉ l) :
    Orderly (registered m name ldev p) (l ++ [p]) := by
  have hwhole : name.take 31 = name := List.take_of_length_le (by omega)
  have hset := (h.mdioAlloc (some p) (fun q hq => by cases hq; exact hp)).setBus hp
    (legacyBus name ldev)
  have hstored : (EmacDriver.registered m name ldev p).name p = name :=
    (registered_name hname).trans hwhole
  refine hset.addBus hp ?_ ?_
  · intro hin
    obtain ⟨q, hq, he⟩ := List.mem_map.mp hin
    have hne : q ≠ p := fun hqp => hp (hqp ▸ hq)
    have hold : m.name q = name := (registered_name_ne hne).symm.trans (he.trans hstored)
    have hfound := h.get_some hq
    rw [hold, hget] at hfound
    cases hfound
  · exact (congrArg List.length hstored).trans_lt hshort

theorem miiphyRegister_taken {m : Mii σ} {name : CStr} {ldev : LegacyMiiDev σ}
    {newDev : Option Nat} {hasLdev : Bool} {q : Nat}
    (hget : miiphyGetDevByName m (some name) = some (some q)) :
    miiphyRegister m name ldev newDev hasLdev = some m := by
  rw [miiphyRegister, hget]
  rfl

theorem miiphyRegister_new {m : Mii σ} {name : CStr} {ldev : LegacyMiiDev σ} {p : Nat}
    (hget : miiphyGetDevByName m (some name) = some none) :
    miiphyRegister m name ldev (some p) true = some (registered m name ldev p) := by
  rw [miiphyRegister, hget]
  rfl

/-- Without the memory, at most a bus was cleared. -/
theorem miiphyRegister_short {m : Mii σ} {name : CStr} {ldev : LegacyMiiDev σ}
    {newDev : Option Nat} {hasLdev : Bool}
    (hget : miiphyGetDevByName m (some name) = some none)
    (hno : ∀ p, newDev = some p → hasLdev = false) :
    miiphyRegister m name ldev newDev hasLdev = some (mdioAlloc m newDev) := by
  rw [miiphyRegister, hget]
  cases newDev with
  | none => rfl
  | some p =>
    rw [hno p rfl]
    rfl

/-- One operation keeps the order and the names of the buses that stay, and a bus
it adds has the name it was given. -/
def Steps (op : MiiOp σ) (m : Mii σ) (l : List Nat) : Prop :=
  ∃ m' l', op.apply m = some m' ∧ Orderly m' l' ∧ Keeps m m' l l' op.dropped ∧
    ∀ a, op.added m = some a → a.2 ∈ l' ∧ m'.name a.2 = a.1

theorem steps_miiphyRegister {m : Mii σ} {l : List Nat} (h : Orderly m l) {name : CStr}
    (ldev : LegacyMiiDev σ) {newDev : Option Nat} {hasLdev : Bool} (hname : 0 ∉ name)
    (hfresh : ∀ p, newDev = some p → p ∉ l)
    (hfits : newDev.isSome → hasLdev = true → name.length < 32) :
    Steps (.miiphyRegister name ldev newDev hasLdev) m l := by
  obtain ⟨dev, hget, -⟩ := h.get hname
  cases dev with
  | some q =>
    refine ⟨m, l, miiphyRegister_taken hget, h, Keeps.of_mem rfl, ?_⟩
    intro a ha
    cases newDev <;> cases hasLdev <;> simp [MiiOp.added, hget] at ha
  | none =>
    by_cases hboth : ∃ p, newDev = some p ∧ hasLdev = true
    · obtain ⟨p, rfl, rfl⟩ := hboth
      have hp := hfresh p rfl
      have hshort := hfits rfl rfl
      refine ⟨_, _, miiphyRegister_new hget, h.registered hname hshort hget hp, ?_, ?_⟩
      · intro q hq _
        refine ⟨List.mem_append_left _ hq, registered_name_ne fun he => hp (he ▸ hq)⟩
      · intro a ha
        have he : (name, p) = a := by simpa [MiiOp.added, hget] using ha
        rw [← he]
        refine ⟨List.mem_append_right l (List.mem_singleton.mpr rfl), ?_⟩
        exact (registered_name hname).trans (List.take_of_length_le (by omega))
    · have hno : ∀ p, newDev = some p → hasLdev = false := by
        intro p hp
        exact Bool.eq_false_iff.mpr fun ht => hboth ⟨p, hp, ht⟩
      refine ⟨_, l, miiphyRegister_short hget hno, h.mdioAlloc newDev hfresh, ?_, ?_⟩
      · intro q hq _
        refine ⟨hq, ?_⟩
        cases newDev with
        | none => rfl
        | some p => exact setBus_name _ fun he => hfresh p rfl (he ▸ hq)
      · intro a ha
        cases newDev with
        | none => simp [MiiOp.added] at ha
        | some p => simp [MiiOp.added, hno p rfl] at ha

theorem steps_mdioRegister {m : Mii σ} {l : List Nat} (h : Orderly m l) {bus : Option Nat}
    (hshort : ∀ p, bus = some p → (m.name p).length < 32) : Steps (.mdioRegister bus) m l := by
  have hsame (ret : Int) (hret : mdioRegister m bus = some (ret, m)) :
      Steps (.mdioRegister bus) m l := by
    refine ⟨m, l, ?_, h, Keeps.of_mem rfl, fun a ha => by cases ha⟩
    rw [MiiOp.apply, hret]
    rfl
  cases bus with
  | none => exact hsame (-1) rfl
  | some p =>
    by_cases hfns : (m.mem p).read.isNone ∨ (m.mem p).write.isNone
    · exact hsame (-1) (if_pos hfns)
    · obtain ⟨dev, hget, hdev⟩ := h.get (name_no_nul m p)
      cases dev with
      | some q =>
        refine hsame (-1) ?_
        rw [mdioRegister, if_neg hfns, hget]
        rfl
      | none =>
        have hfree : ∀ q ∈ l, m.name q ≠ m.name p := by
          intro q hq he
          cases (hdev q).mpr ⟨hq, he⟩
        refine ⟨addBus m p, l ++ [p], ?_, h.addBus ?_ ?_ (hshort p rfl), ?_, ?_⟩
        · rw [MiiOp.apply, mdioRegister, if_neg hfns, hget]
          rfl
        · exact fun hp => hfree p hp rfl
        · rw [List.mem_map]
          rintro ⟨q, hq, he⟩
          exact hfree q hq he
        · exact fun q hq _ => ⟨List.mem_append_left _ hq, rfl⟩
        · intro a ha
          cases ha

theorem steps_mdioUnregister {m : Mii σ} {l : List Nat} (h : Orderly m l) {bus : Option Nat}
    (hon : ∀ p, bus = some p → p ∈ l) : Steps (.mdioUnregister bus) m l := by
  cases bus with
  | none => exact ⟨m, l, rfl, h, Keeps.of_mem rfl, fun a ha => by cases ha⟩
  | some p =>
    obtain ⟨l₁, l₂, rfl⟩ := List.append_of_mem (hon p rfl)
    refine ⟨_, l₁ ++ l₂, rfl, h.unregister, ?_, fun a ha => by cases ha⟩
    intro q hq hne
    refine ⟨?_, rfl⟩
    simp only [List.mem_append, List.mem_cons] at hq ⊢
    rcases hq with hl | rfl | hr
    · exact Or.inl hl
    · exact absurd rfl hne
    · exact Or.inr hr

theorem steps_of_promised {m : Mii σ} {l : List Nat} (h : Orderly m l) {op : MiiOp σ}
    (hp : op.Promised m) (hf : op.Fits) : Steps op m l := by
  have hl := h.buses_eq
  cases op with
  | miiphyRegister name ldev newDev hasLdev =>
    exact steps_miiphyRegister h ldev hp.1 (fun p hnew => hl ▸ hp.2 p hnew) hf
  | setBus p dev =>
    have hoff : p ∉ l := hl ▸ hp
    refine ⟨_, l, rfl, h.setBus hoff dev, ?_, fun a ha => by cases ha⟩
    exact fun q hq _ => ⟨hq, setBus_name dev fun he => hoff (he ▸ hq)⟩
  | mdioRegister bus => exact steps_mdioRegister h hp
  | mdioUnregister bus => exact steps_mdioUnregister h fun p hbus => hl ▸ hp p hbus
  | miiphySetCurrentDev devname =>
    obtain ⟨dev, m', -, hset, hm', hmem, -⟩ := h.setCurrentDev devname hp
    refine ⟨m', l, ?_, hm', Keeps.of_mem hmem, fun a ha => by cases ha⟩
    rw [MiiOp.apply, hset]
    rfl
  | miiphyGetActiveDev devname =>
    obtain ⟨dev, m', -, hactive, hm', hmem⟩ := h.activeDev hp
    refine ⟨m', l, ?_, hm', Keeps.of_mem hmem, fun a ha => by cases ha⟩
    rw [MiiOp.apply, hactive]
    rfl

theorem MiiOp.run_eq {r : MiiRun σ} {op : MiiOp σ} {m' : Mii σ} (h : op.apply r.mii = some m') :
    op.run r = some ⟨m', (op.added r.mii).toList ++
      r.accepted.filter (fun a => some a.2 ≠ op.dropped)⟩ := by
  rw [MiiOp.run, h]
  rfl

theorem Tracked.run {r : MiiRun σ} {l : List Nat} (h : Tracked r l) {op : MiiOp σ}
    (hp : op.Promised r.mii) (hf : op.Fits) : ∃ r' l', op.run r = some r' ∧ Tracked r' l' := by
  obtain ⟨m', l', happly, hm', hkeeps, hadded⟩ := steps_of_promised h.orderly hp hf
  refine ⟨_, l', MiiOp.run_eq happly, hm', ?_⟩
  intro a ha
  rcases List.mem_append.mp ha with hnew | hold
  · exact hadded a (by simpa using hnew)
  · obtain ⟨hacc, hgone⟩ := List.mem_filter.mp hold
    obtain ⟨hmem, hname⟩ := h.accepted a hacc
    obtain ⟨hmem', hname'⟩ := hkeeps a.2 hmem (by simpa using hgone)
    exact ⟨hmem', hname'.trans hname⟩

/-- A name too long for its array is accepted, and not found. -/
theorem Tracked.run_unfit {r : MiiRun σ} {l : List Nat} (h : Tracked r l) {op : MiiOp σ}
    (hp : op.Promised r.mii) (hf : ¬ op.Fits) : ∃ r', op.run r = some r' ∧ ¬ Coherent r' := by
  cases op with
  | miiphyRegister name ldev newDev hasLdev =>
    have hparts : newDev.isSome ∧ hasLdev = true ∧ 32 ≤ name.length := by
      by_contra hno
      refine hf fun hnew hldev => ?_
      by_contra hlong
      exact hno ⟨hnew, hldev, Nat.le_of_not_lt hlong⟩
    obtain ⟨hnew, rfl, hlong⟩ := hparts
    obtain ⟨p, rfl⟩ := Option.isSome_iff_exists.mp hnew
    have hget : miiphyGetDevByName r.mii (some name) = some none := by
      refine h.orderly.get_none hp.1 ?_
      intro hin
      obtain ⟨q, hq, rfl⟩ := List.mem_map.mp hin
      exact absurd (h.orderly.short q hq) (Nat.not_lt.mpr hlong)
    refine ⟨_, MiiOp.run_eq (miiphyRegister_new hget), ?_⟩
    intro hc
    have hadded : (name, p) ∈
        (MiiOp.added r.mii (.miiphyRegister name ldev (some p) true)).toList := by
      simp [MiiOp.added, hget]
    have hfound := hc.found (name, p) (List.mem_append_left _ hadded)
    have hname := findByName_name hfound
    rw [strcmp_eq (name_no_nul _ p) hp.1, registered_name hp.1] at hname
    have hlen := congrArg List.length hname
    rw [List.length_take] at hlen
    omega
  | setBus | mdioRegister | mdioUnregister | miiphySetCurrentDev | miiphyGetActiveDev =>
    exact absurd trivial hf

theorem miiRun_cons {r r' : MiiRun σ} {op : MiiOp σ} (h : op.run r = some r')
    (ops : List (MiiOp σ)) : miiRun r (op :: ops) = miiRun r' ops := by
  rw [miiRun, List.foldlM_cons, h]
  rfl

theorem miiRun_coherent {r : MiiRun σ} {l : List Nat} (h : Tracked r l) {ops : List (MiiOp σ)}
    (hp : Promised r ops) :
    (∀ pre, pre <+: ops → ∃ r', miiRun r pre = some r' ∧ Coherent r') ↔
      ∀ op ∈ ops, op.Fits := by
  induction ops generalizing r l with
  | nil =>
    refine ⟨fun _ op hop => (List.not_mem_nil hop).elim, fun _ pre hpre => ?_⟩
    rw [List.prefix_nil.mp hpre]
    exact ⟨r, rfl, h.coherent⟩
  | cons op ops ih =>
    by_cases hf : op.Fits
    · obtain ⟨r', l', hrun, hr'⟩ := h.run hp.1 hf
      have hrest := ih hr' (hp.2 r' hrun)
      constructor
      · intro hall op' hop
        rcases List.mem_cons.mp hop with rfl | hop
        · exact hf
        · refine hrest.mp (fun pre hpre => ?_) op' hop
          rw [← miiRun_cons hrun]
          exact hall (op :: pre) ((List.prefix_cons_inj op).mpr hpre)
      · intro hall pre hpre
        rcases List.prefix_cons_iff.mp hpre with rfl | ⟨pre', rfl, hpre'⟩
        · exact ⟨r, rfl, h.coherent⟩
        · rw [miiRun_cons hrun]
          exact hrest.mpr (fun op' hop => hall op' (List.mem_cons_of_mem op hop)) pre' hpre'
    · refine ⟨fun hall => ?_, fun hall => absurd (hall op List.mem_cons_self) hf⟩
      obtain ⟨r', hrun, hbad⟩ := h.run_unfit hp.1 hf
      obtain ⟨r₁, hr₁, hc⟩ := hall [op] (by simp)
      rw [miiRun_cons hrun] at hr₁
      cases hr₁
      exact absurd hc hbad

def initialRun (m : Mii σ) : MiiRun σ := ⟨miiphyInit m, []⟩

theorem tracked_init (m : Mii σ) : Tracked (initialRun m) [] := by
  have hself (f : Link → Link) : Function.update f .miiDevs .miiDevs .miiDevs = .miiDevs :=
    Function.update_self ..
  refine ⟨⟨?_, List.nodup_nil, List.nodup_nil, ?_, ?_, Nat.one_pos⟩, ?_⟩
  · exact ⟨hself m.links.prev, hself m.links.next, trivial⟩
  · exact fun p hp => (List.not_mem_nil hp).elim
  · intro p hp
    cases hp
  · exact fun a ha => (List.not_mem_nil ha).elim

/-- The registry keeps its property throughout when every name fits its array. -/
theorem mii_registry (m : Mii σ) (ops : List (MiiOp σ)) (hp : Promised (initialRun m) ops) :
    (∀ pre, pre <+: ops → ∃ r, miiRun (initialRun m) pre = some r ∧ Coherent r) ↔
      ∀ op ∈ ops, op.Fits :=
  miiRun_coherent (tracked_init m) hp

def blankMii : Mii Unit where
  mem := fun _ => ⟨List.replicate 32 0, none, none⟩
  links := ⟨fun _ => .null, fun _ => .null⟩
  currentMii := none
  steps := 0

def zeroMiiDev : LegacyMiiDev Unit where
  read := fun _ _ _ s => ((0, 0), s)
  write := fun _ _ _ _ s => (0, s)

theorem mii_registry_geth :
    let ops := [.miiphyRegister (cstr "geth") zeroMiiDev (some 0) true, .mdioUnregister (some 0)]
    Promised (initialRun blankMii) ops ∧
      ∀ pre, pre <+: ops → ∃ r, miiRun (initialRun blankMii) pre = some r ∧ Coherent r := by
  intro ops
  have hp : Promised (initialRun blankMii) ops := by
    refine ⟨⟨by decide, ?_⟩, ?_⟩
    · intro p _ hp
      cases hp
    · intro r' hr
      obtain rfl := Option.some.inj (hr.symm.trans (MiiOp.run_eq (miiphyRegister_new rfl)))
      refine ⟨?_, fun _ _ => trivial⟩
      intro p hp
      cases hp
      decide +kernel
  refine ⟨hp, (mii_registry blankMii ops hp).mpr ?_⟩
  intro op hop
  rcases List.mem_cons.mp hop with rfl | hop
  · exact fun _ _ => by decide
  · rw [List.mem_singleton.mp hop]
    trivial

/-- A name of 32 characters is accepted, and not found. -/
theorem mii_registry_truncates :
    let op := MiiOp.miiphyRegister (List.replicate 32 97) zeroMiiDev (some 0) true
    Promised (initialRun blankMii) [op] ∧
      ¬ ∀ pre, pre <+: [op] → ∃ r, miiRun (initialRun blankMii) pre = some r ∧ Coherent r := by
  intro op
  have hp : Promised (initialRun blankMii) [op] := by
    refine ⟨⟨by decide, ?_⟩, fun _ _ => trivial⟩
    intro p _ hp
    cases hp
  refine ⟨hp, fun h => ?_⟩
  have hfits := (miiRun_coherent (tracked_init blankMii) hp).mp h op List.mem_cons_self
  exact absurd (hfits rfl rfl) (by decide)

end EmacDriver
