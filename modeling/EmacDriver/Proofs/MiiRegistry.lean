import Mathlib.Data.List.Nodup
import Mathlib.Data.List.TakeWhile
import EmacDriver.Lib.DoublyLinked
import EmacDriver.Mdio
import EmacDriver.Proofs.EnvMap

namespace EmacDriver
open DoublyLinked

variable {σ : Type} {m : Mii σ} {l : List Nat} {p : Nat} {s : CStr}

theorem name_no_nul (m : Mii σ) (p : Nat) : 0 ∉ m.name p := by
  intro h
  simpa using List.mem_takeWhile_imp h

structure Orderly (m : Mii σ) (l : List Nat) : Prop where
  ring : Ring m.links.next m.links.prev .miiDevs (l.map .bus)
  nodup : l.Nodup
  distinct : (l.map m.name).Nodup
  short : ∀ p ∈ l, (m.name p).length < 32
  current : ∀ p, m.currentMii = some p → p ∈ l
  steps : l.length < m.steps

theorem busesFrom_eq {n : Nat} {q : Link}
    (h : Seg m.links.next m.links.prev q (l.map .bus) .miiDevs) (hn : l.length < n) :
    busesFrom m n ((l.map .bus).headD .miiDevs) = l := by
  induction l generalizing q n with
  | nil =>
    cases n with
    | zero => exact absurd hn (Nat.not_lt_zero _)
    | succ n => rfl
  | cons p l ih =>
    cases n with
    | zero => exact absurd hn (Nat.not_lt_zero _)
    | succ n =>
      obtain ⟨-, hnext, hrest⟩ := h
      have hp : busesFrom m n (m.links.next (.bus p)) = l := by
        rw [hnext]
        exact ih hrest (Nat.lt_of_succ_lt_succ hn)
      exact congrArg (List.cons p) hp

theorem Orderly.buses_eq (h : Orderly m l) : m.buses = l := by
  rw [Mii.buses, h.ring.next_head]
  exact busesFrom_eq h.ring.seg h.steps

theorem findByName_name {n : Nat} {e : Link}
    (h : findByName m s n e = some (some p)) : strcmp (m.name p) s = 0 := by
  induction n generalizing e with
  | zero => cases h
  | succ n ih =>
    cases e with
    | null => cases h
    | miiDevs => cases h
    | bus q =>
      rw [findByName] at h
      by_cases hq : strcmp (m.name q) s = 0
      · rw [if_pos hq] at h
        cases h
        exact hq
      · rw [if_neg hq] at h
        exact ih h

/-- The walk finds the first bus of that name. -/
theorem findByName_eq {n : Nat} {q : Link}
    (h : Seg m.links.next m.links.prev q (l.map .bus) .miiDevs) (hn : l.length < n) :
    findByName m s n ((l.map .bus).headD .miiDevs) =
      some (l.find? fun p => strcmp (m.name p) s = 0) := by
  induction l generalizing q n with
  | nil =>
    cases n with
    | zero => exact absurd hn (Nat.not_lt_zero _)
    | succ n => rfl
  | cons p l ih =>
    cases n with
    | zero => exact absurd hn (Nat.not_lt_zero _)
    | succ n =>
      obtain ⟨-, hnext, hrest⟩ := h
      rw [List.map_cons, List.headD_cons, findByName, hnext,
        ih hrest (Nat.lt_of_succ_lt_succ hn), List.find?_cons]
      by_cases hp : strcmp (m.name p) s = 0
      · rw [if_pos hp, decide_eq_true hp]
      · rw [if_neg hp, decide_eq_false hp]

/-- A bus is found exactly under its name. -/
theorem Orderly.get (h : Orderly m l) (hs : 0 ∉ s) :
    ∃ dev, miiphyGetDevByName m (some s) = some dev ∧
      ∀ p, dev = some p ↔ p ∈ l ∧ m.name p = s := by
  refine ⟨l.find? fun p => strcmp (m.name p) s = 0, ?_, ?_⟩
  · show findByName m s m.steps (m.links.next .miiDevs) = _
    rw [h.ring.next_head]
    exact findByName_eq h.ring.seg h.steps
  · intro p
    constructor
    · intro hf
      have hp := List.find?_some hf
      rw [decide_eq_true_eq, strcmp_eq (name_no_nul m p) hs] at hp
      exact ⟨List.mem_of_find?_eq_some hf, hp⟩
    · rintro ⟨hp, rfl⟩
      cases hf : l.find? (fun q => strcmp (m.name q) (m.name p) = 0) with
      | none =>
        have hnone := List.find?_eq_none.mp hf p hp
        simp [strcmp_self] at hnone
      | some q =>
        have hq := List.find?_some hf
        rw [decide_eq_true_eq, strcmp_eq (name_no_nul m q) hs] at hq
        rw [List.inj_on_of_nodup_map h.distinct (List.mem_of_find?_eq_some hf) hp hq]

theorem Orderly.get_none (h : Orderly m l) (hs : 0 ∉ s) (hfree : s ∉ l.map m.name) :
    miiphyGetDevByName m (some s) = some none := by
  obtain ⟨dev, hget, hdev⟩ := h.get hs
  cases dev with
  | none => exact hget
  | some p =>
    obtain ⟨hp, hname⟩ := (hdev p).mp rfl
    exact absurd (List.mem_map.mpr ⟨p, hp, hname⟩) hfree

theorem Orderly.get_some (h : Orderly m l) (hp : p ∈ l) :
    miiphyGetDevByName m (some (m.name p)) = some (some p) := by
  obtain ⟨dev, hget, hdev⟩ := h.get (name_no_nul m p)
  rw [hget, (hdev p).mpr ⟨hp, rfl⟩]

theorem setBus_name {q : Nat} (dev : MiiDev σ) (h : q ≠ p) : (setBus m p dev).name q = m.name q := by
  have hmem : (setBus m p dev).mem q = m.mem q := Function.update_of_ne h ..
  rw [Mii.name, hmem]
  rfl

theorem Orderly.setBus (h : Orderly m l) (hp : p ∉ l) (dev : MiiDev σ) :
    Orderly (setBus m p dev) l := by
  have hname : ∀ q ∈ l, (EmacDriver.setBus m p dev).name q = m.name q := by
    intro q hq
    exact setBus_name dev fun he => hp (he ▸ hq)
  refine ⟨h.ring, h.nodup, ?_, ?_, h.current, h.steps⟩
  · rw [List.map_congr_left hname]
    exact h.distinct
  · intro q hq
    rw [hname q hq]
    exact h.short q hq

/-- The links of a bus off the list may change. -/
theorem Orderly.relink (h : Orderly m l) (hp : p ∉ l) (x y : Link) :
    Orderly { m with links := ⟨Function.update m.links.next (.bus p) x,
      Function.update m.links.prev (.bus p) y⟩ } l := by
  have hoff : Link.bus p ∉ Link.miiDevs :: l.map Link.bus := by
    simpa using hp
  exact ⟨(h.ring.updateNext hoff).updatePrev hoff, h.nodup, h.distinct, h.short, h.current, h.steps⟩

theorem Orderly.mdioAlloc (h : Orderly m l) (bus : Option Nat) (hp : ∀ p, bus = some p → p ∉ l) :
    Orderly (mdioAlloc m bus) l := by
  cases bus with
  | none => exact h
  | some p => exact (h.setBus (hp p rfl) _).relink (hp p rfl) _ _

theorem nodup_link (h : l.Nodup) : (Link.miiDevs :: l.map Link.bus).Nodup := by
  refine List.nodup_cons.mpr ⟨by simp, List.Nodup.map ?_ h⟩
  intro p q he
  exact Link.bus.inj he

theorem Orderly.addBus (h : Orderly m l) (hp : p ∉ l) (hname : m.name p ∉ l.map m.name)
    (hshort : (m.name p).length < 32) : Orderly (addBus m p) (l ++ [p]) := by
  have hoff : Link.bus p ∉ Link.miiDevs :: l.map Link.bus := by
    simpa using hp
  have hsame : (EmacDriver.addBus m p).name = m.name := rfl
  refine ⟨?_, ?_, ?_, ?_, ?_, ?_⟩
  · rw [List.map_append]
    exact h.ring.insert (nodup_link h.nodup) hoff
  · exact List.Nodup.append h.nodup (List.nodup_singleton p) (by simpa using hp)
  · rw [hsame, List.map_append]
    exact List.Nodup.append h.distinct (List.nodup_singleton _) (by simpa using hname)
  · intro q hq
    rcases List.mem_append.mp hq with hq | hq
    · exact h.short q hq
    · rw [List.mem_singleton.mp hq]
      exact hshort
  · intro q hq
    cases hc : m.currentMii with
    | none =>
      have he : some p = some q := by simpa [EmacDriver.addBus, hc] using hq
      rw [← Option.some.inj he]
      exact List.mem_append_right l (List.mem_singleton.mpr rfl)
    | some c =>
      have he : some c = some q := by simpa [EmacDriver.addBus, hc] using hq
      rw [← Option.some.inj he]
      exact List.mem_append_left _ (h.current c hc)
  · rw [List.length_append]
    exact Nat.succ_lt_succ h.steps

theorem Orderly.unregister {r : List Nat} (h : Orderly m (l ++ p :: r)) :
    Orderly (mdioUnregister m (some p)).2 (l ++ r) := by
  have hsub : (l ++ r).Sublist (l ++ p :: r) := (List.sublist_cons_self p r).append_left l
  have hp : p ∉ l ++ r := (List.nodup_middle.mp h.nodup).notMem
  have hlinks := nodup_link h.nodup
  refine ⟨?_, h.nodup.sublist hsub, h.distinct.sublist (hsub.map _), ?_, ?_, ?_⟩
  · have hring := h.ring
    rw [List.map_append, List.map_cons] at hring hlinks
    have hoff : Link.bus p ∉ Link.miiDevs :: (l ++ r).map Link.bus := by
      simpa using hp
    rw [List.map_append] at hoff ⊢
    exact ((hring.remove hlinks).updateNext hoff).updatePrev hoff
  · exact fun q hq => h.short q (hsub.subset hq)
  · intro q hq
    by_cases hc : m.currentMii = some p
    · simp [mdioUnregister, hc] at hq
    · have hq' : m.currentMii = some q := by simpa [mdioUnregister, hc] using hq
      have hne : q ≠ p := by
        rintro rfl
        exact hc hq'
      have hmem := h.current q hq'
      simp only [List.mem_append, List.mem_cons] at hmem ⊢
      rcases hmem with hl | he | hr
      · exact Or.inl hl
      · exact absurd he hne
      · exact Or.inr hr
  · exact Nat.lt_of_le_of_lt hsub.length_le h.steps

theorem Orderly.setCurrent (h : Orderly m l) (hp : p ∈ l) :
    Orderly { m with currentMii := some p } l := by
  refine ⟨h.ring, h.nodup, h.distinct, h.short, ?_, h.steps⟩
  intro q hq
  rw [← Option.some.inj hq]
  exact hp

theorem Orderly.setCurrentDev (h : Orderly m l) (devname : Option CStr)
    (hs : ∀ s, devname = some s → 0 ∉ s) :
    ∃ dev m', miiphyGetDevByName m devname = some dev ∧
      miiphySetCurrentDev m devname = some (if dev.isSome then 0 else 1, m') ∧ Orderly m' l ∧
      m'.mem = m.mem ∧ m'.currentMii = dev.or m.currentMii := by
  cases devname with
  | none => exact ⟨none, m, rfl, rfl, h, rfl, rfl⟩
  | some s =>
    obtain ⟨dev, hget, hdev⟩ := h.get (hs s rfl)
    cases dev with
    | none => exact ⟨none, m, hget, by rw [miiphySetCurrentDev, hget]; rfl, h, rfl, rfl⟩
    | some p =>
      refine ⟨some p, { m with currentMii := some p }, hget, ?_, ?_, rfl, rfl⟩
      · rw [miiphySetCurrentDev, hget]
        rfl
      · exact h.setCurrent ((hdev p).mp rfl).1

/-- The active bus of a name is the bus of that name. -/
theorem Orderly.activeDev (h : Orderly m l) (hs : 0 ∉ s) :
    ∃ dev m', miiphyGetDevByName m (some s) = some dev ∧
      miiphyGetActiveDev m s = some (dev, m') ∧ Orderly m' l ∧ m'.mem = m.mem := by
  obtain ⟨dev, m', hget, hset, hm', hmem, hcur⟩ := h.setCurrentDev (some s)
    (fun t ht => by cases ht; exact hs)
  have hactive : miiphyGetActiveDev.setActive m s = some (dev, m') := by
    rw [miiphyGetActiveDev.setActive, hset]
    cases dev with
    | none => rfl
    | some p =>
      show some (m'.currentMii, m') = _
      rw [hcur]
      rfl
  cases hc : m.currentMii with
  | none => exact ⟨dev, m', hget, by rw [miiphyGetActiveDev, hc]; exact hactive, hm', hmem⟩
  | some p =>
    by_cases hp : strcmp (m.name p) s = 0
    · have hname := (strcmp_eq (name_no_nul m p) hs).mp hp
      have hfound := h.get_some (h.current p hc)
      rw [hname] at hfound
      refine ⟨some p, m, hfound, ?_, h, rfl⟩
      rw [miiphyGetActiveDev, hc]
      exact if_pos hp
    · refine ⟨dev, m', hget, ?_, hm', hmem⟩
      rw [miiphyGetActiveDev, hc]
      exact (if_neg hp).trans hactive

end EmacDriver
