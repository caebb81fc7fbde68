import Mathlib.Data.Nat.Notation
import Mathlib.Tactic.Common

namespace CacheMem

variable {β : Type}

/-- `B` addresses of the cache. The part of `data` in the line counts. -/
structure Line (β : Type) where
  data : Nat → β
  dirty : Bool

structure Mem (β : Type) where
  ram : Nat → β
  lines : Nat → Option (Line β)

namespace Mem

def setLine (m : Mem β) (n : Nat) (o : Option (Line β)) : Mem β :=
  { m with lines := fun k => if k = n then o else m.lines k }

def fill (m : Mem β) (n : Nat) : Mem β :=
  match m.lines n with
  | none => m.setLine n (some ⟨m.ram, false⟩)
  | some _ => m

def drop (m : Mem β) (n : Nat) : Mem β := m.setLine n none

def withRam (m : Mem β) (ram : Nat → β) : Mem β := { m with ram := ram }

variable (B : Nat)

def view (m : Mem β) (a : Nat) : β :=
  match m.lines (a / B) with
  | none => m.ram a
  | some l => l.data a

def store (m : Mem β) (a : Nat) (v : β) : Mem β :=
  let l := (m.lines (a / B)).getD ⟨m.ram, false⟩
  m.setLine (a / B) (some ⟨fun b => if b = a then v else l.data b, true⟩)

def writeBack (m : Mem β) (n : Nat) (data : Nat → β) : Mem β where
  ram a := if a / B = n then data a else m.ram a
  lines k := if k = n then some ⟨data, false⟩ else m.lines k

def clean (m : Mem β) (n : Nat) : Mem β :=
  match m.lines n with
  | none => m
  | some l => if l.dirty then m.writeBack B n l.data else m

def evict (m : Mem β) (n : Nat) : Mem β := (m.clean B n).drop n

def Clean (m : Mem β) (n : Nat) : Prop := ∀ l, m.lines n = some l → l.dirty = false

/-- The processor sees `v` at `a`, whatever the cache does. -/
structure Owned (m : Mem β) (a : Nat) (v : β) : Prop where
  seen : m.view B a = v
  back : m.Clean (a / B) → m.ram a = v

variable {B : Nat} {m : Mem β} {a b n k : Nat} {v w : β}

theorem setLine_ne (o : Option (Line β)) (h : k ≠ n) : (m.setLine n o).lines k = m.lines k :=
  if_neg h

theorem setLine_self (o : Option (Line β)) : (m.setLine n o).lines n = o := if_pos rfl

theorem view_none (h : m.lines (a / B) = none) : m.view B a = m.ram a := by
  rw [view, h]

theorem view_some {l : Line β} (h : m.lines (a / B) = some l) : m.view B a = l.data a := by
  rw [view, h]

theorem clean_none (h : m.lines n = none) : m.Clean n := by
  intro l hl
  rw [h] at hl
  cases hl

theorem clean_some {l : Line β} (h : m.lines n = some l) : m.Clean n ↔ l.dirty = false := by
  constructor
  · exact fun hc => hc l h
  · intro hd l' hl
    rw [h] at hl
    cases hl
    exact hd

theorem view_congr {m' : Mem β} (hl : m'.lines (a / B) = m.lines (a / B))
    (hr : m'.ram a = m.ram a) : m'.view B a = m.view B a := by
  rw [view, view, hl, hr]

theorem clean_congr {m' : Mem β} (hl : m'.lines n = m.lines n) : m'.Clean n ↔ m.Clean n := by
  rw [Clean, Clean, hl]

theorem fill_ram : (m.fill n).ram = m.ram := by
  rw [fill]
  cases m.lines n with
  | none => rfl
  | some l => rfl

theorem fill_clean : (m.fill n).Clean k ↔ m.Clean k := by
  rw [fill]
  cases h : m.lines n with
  | some l => rfl
  | none =>
    by_cases hk : k = n
    · subst hk
      exact iff_of_true ((clean_some (setLine_self _)).mpr rfl) (clean_none h)
    · exact clean_congr (setLine_ne _ hk)

theorem fill_view : (m.fill n).view B a = m.view B a := by
  rw [fill]
  cases h : m.lines n with
  | some l => rfl
  | none =>
    by_cases hk : a / B = n
    · subst hk
      exact (view_some (setLine_self _)).trans (view_none h).symm
    · exact view_congr (setLine_ne _ hk) rfl

theorem Owned.fill (h : Owned B m a v) : Owned B (m.fill n) a v where
  seen := fill_view.trans h.seen
  back hc := by
    rw [fill_ram]
    exact h.back (fill_clean.mp hc)

theorem clean_cases : (m.Clean n ∧ m.clean B n = m) ∨
    ∃ l, m.lines n = some l ∧ l.dirty = true ∧ m.clean B n = m.writeBack B n l.data := by
  rw [clean]
  cases h : m.lines n with
  | none => exact Or.inl ⟨clean_none h, rfl⟩
  | some l =>
    cases hd : l.dirty with
    | false => exact Or.inl ⟨(clean_some h).mpr hd, if_neg (hd ▸ Bool.false_ne_true)⟩
    | true => exact Or.inr ⟨l, rfl, hd, if_pos hd⟩

theorem clean_self : (m.clean B n).Clean n := by
  rcases clean_cases (B := B) (m := m) (n := n) with ⟨hc, he⟩ | ⟨l, -, -, he⟩
  · rw [he]
    exact hc
  · rw [he]
    exact (clean_some (if_pos rfl)).mpr rfl

theorem clean_ne (h : k ≠ n) : (m.clean B n).Clean k ↔ m.Clean k := by
  rcases clean_cases (B := B) (m := m) (n := n) with ⟨-, he⟩ | ⟨l, -, -, he⟩
  · rw [he]
  · rw [he]
    exact clean_congr (if_neg h)

theorem Clean.clean (h : m.Clean k) : (m.clean B n).Clean k := by
  by_cases hk : k = n
  · subst hk
    exact clean_self
  · exact (clean_ne hk).mpr h

/-- Writing back changes nothing for the processor. -/
theorem clean_view : (m.clean B n).view B a = m.view B a := by
  rcases clean_cases (B := B) (m := m) (n := n) with ⟨-, he⟩ | ⟨l, hl, -, he⟩
  · rw [he]
  · rw [he]
    by_cases hk : a / B = n
    · subst hk
      exact (view_some (l := ⟨l.data, false⟩) (if_pos rfl)).trans (view_some hl).symm
    · exact view_congr (if_neg hk) (if_neg hk)

theorem clean_ram_ne (h : a / B ≠ n) : (m.clean B n).ram a = m.ram a := by
  rcases clean_cases (B := B) (m := m) (n := n) with ⟨-, he⟩ | ⟨l, -, -, he⟩
  · rw [he]
  · rw [he]
    exact if_neg h

theorem clean_ram (h : m.Clean (a / B)) : (m.clean B n).ram a = m.ram a := by
  rcases clean_cases (B := B) (m := m) (n := n) with ⟨-, he⟩ | ⟨l, hl, hd, he⟩
  · rw [he]
  · apply clean_ram_ne
    rintro rfl
    rw [(clean_some hl).mp h] at hd
    cases hd

/-- What is written back is what the processor saw. -/
theorem Owned.clean (h : Owned B m a v) : Owned B (m.clean B n) a v where
  seen := clean_view.trans h.seen
  back hc := by
    by_cases hk : a / B = n
    · rcases clean_cases (B := B) (m := m) (n := n) with ⟨hn, he⟩ | ⟨l, hl, -, he⟩
      · rw [he]
        exact h.back (hk ▸ hn)
      · have hline : m.lines (a / B) = some l := hk ▸ hl
        rw [he, ← h.seen, view_some hline]
        exact if_pos hk
    · rw [clean_ram_ne hk]
      exact h.back ((clean_ne hk).mp hc)

theorem Clean.drop (h : m.Clean k) : (m.drop n).Clean k := by
  by_cases hk : k = n
  · subst hk
    exact clean_none (setLine_self _)
  · exact (clean_congr (setLine_ne _ hk)).mpr h

/-- What is dropped clean comes back from memory. -/
theorem owned_drop (h : a / B = n) : Owned B (m.drop n) a (m.ram a) where
  seen := view_none (h ▸ setLine_self _)
  back _ := rfl

theorem Owned.drop (h : Owned B m a v) (hc : a / B = n → m.Clean n) : Owned B (m.drop n) a v := by
  by_cases hk : a / B = n
  · have hv : m.ram a = v := h.back (hk ▸ hc hk)
    exact hv ▸ owned_drop hk
  · exact ⟨(view_congr (setLine_ne _ hk) rfl).trans h.seen,
      fun hn => h.back ((clean_congr (setLine_ne _ hk)).mp hn)⟩

theorem Clean.evict (h : m.Clean k) : (m.evict B n).Clean k := h.clean.drop

/-- What is written back is what the processor saw, so a line may go at any time. -/
theorem Owned.evict (h : Owned B m a v) : Owned B (m.evict B n) a v :=
  h.clean.drop fun _ => clean_self

theorem evict_ram (h : m.Clean (a / B)) : (m.evict B n).ram a = m.ram a := clean_ram h

/-- A line that is not cached. -/
theorem owned_of_none (h : m.lines (a / B) = none) : Owned B m a (m.ram a) where
  seen := view_none h
  back _ := rfl

theorem evict_lines : (m.evict B n).lines k = if k = n then none else m.lines k := by
  by_cases hk : k = n
  · rw [if_pos hk]
    exact if_pos hk
  · rw [if_neg hk]
    have hdrop : (m.evict B n).lines k = (m.clean B n).lines k := if_neg hk
    rw [hdrop]
    rcases clean_cases (B := B) (m := m) (n := n) with ⟨-, he⟩ | ⟨l, -, -, he⟩
    · rw [he]
    · rw [he]
      exact if_neg hk

/-- A line that is cached stays as it is. -/
theorem fill_lines_some {l : Line β} (h : m.lines k = some l) : (m.fill n).lines k = some l := by
  rw [fill]
  cases hn : m.lines n with
  | some l' => exact h
  | none =>
    have hne : k ≠ n := by
      rintro rfl
      rw [hn] at h
      cases h
    exact (setLine_ne _ hne).trans h

theorem store_clean_ne (h : k ≠ a / B) : (m.store B a v).Clean k ↔ m.Clean k :=
  clean_congr (setLine_ne _ h)

theorem store_not_clean : ¬(m.store B a v).Clean (a / B) := by
  intro h
  have hdirty := h _ (setLine_self _)
  cases hdirty

theorem owned_store : Owned B (m.store B a v) a v where
  seen := (view_some (setLine_self _)).trans (if_pos rfl)
  back hc := absurd hc store_not_clean

theorem store_view_ne (h : b ≠ a) : (m.store B a v).view B b = m.view B b := by
  by_cases hk : b / B = a / B
  · have hline : (m.store B a v).lines (b / B) = some ⟨fun b => if b = a then v else
        ((m.lines (a / B)).getD ⟨m.ram, false⟩).data b, true⟩ := if_pos hk
    rw [view_some hline, view, hk]
    cases m.lines (a / B) with
    | none => exact if_neg h
    | some l => exact if_neg h
  · exact view_congr (setLine_ne _ hk) rfl

/-- A store beside the address, in its line or not. -/
theorem Owned.store (h : Owned B m b w) (hne : b ≠ a) : Owned B (m.store B a v) b w where
  seen := (store_view_ne hne).trans h.seen
  back hc := by
    by_cases hk : b / B = a / B
    · rw [hk] at hc
      exact absurd hc store_not_clean
    · exact h.back ((store_clean_ne hk).mp hc)

/-- The other device writes elsewhere. -/
theorem Owned.withRam {ram : Nat → β} (h : Owned B m a v) (hr : ram a = m.ram a) :
    Owned B (m.withRam ram) a v where
  seen := by
    have hview : (m.withRam ram).view B a = m.view B a := view_congr rfl hr
    exact hview.trans h.seen
  back hc := hr.trans (h.back hc)

/-- What is known of the addresses in `S` is still so. -/
structure Keeps (B : Nat) (S : Nat → Prop) (m m' : Mem β) : Prop where
  clean : ∀ a, S a → m.Clean (a / B) → m'.Clean (a / B)
  ram : ∀ a, S a → m.Clean (a / B) → m'.ram a = m.ram a
  owned : ∀ a v, S a → Owned B m a v → Owned B m' a v

variable {S : Nat → Prop} {m' m'' : Mem β}

theorem keeps_refl : Keeps B S m m := ⟨fun _ _ h => h, fun _ _ _ => rfl, fun _ _ _ h => h⟩

theorem Keeps.trans (h : Keeps B S m m') (h' : Keeps B S m' m'') : Keeps B S m m'' where
  clean a ha hc := h'.clean a ha (h.clean a ha hc)
  ram a ha hc := (h'.ram a ha (h.clean a ha hc)).trans (h.ram a ha hc)
  owned a v ha ho := h'.owned a v ha (h.owned a v ha ho)

theorem keeps_fill : Keeps B S m (m.fill n) :=
  ⟨fun _ _ h => fill_clean.mpr h, fun _ _ _ => by rw [fill_ram], fun _ _ _ h => h.fill⟩

theorem keeps_clean : Keeps B S m (m.clean B n) :=
  ⟨fun _ _ h => h.clean, fun _ _ h => clean_ram h, fun _ _ _ h => h.clean⟩

theorem keeps_evict : Keeps B S m (m.evict B n) :=
  ⟨fun _ _ h => h.evict, fun _ _ h => evict_ram h, fun _ _ _ h => h.evict⟩

theorem keeps_drop (h : m.Clean n) : Keeps B S m (m.drop n) :=
  ⟨fun _ _ h => h.drop, fun _ _ _ => rfl, fun _ _ _ ho => ho.drop fun _ => h⟩

/-- Only the lines of `S` are of interest. -/
theorem keeps_store (h : ∀ b, S b → b / B ≠ a / B) : Keeps B S m (m.store B a v) where
  clean b hb hc := (store_clean_ne (h b hb)).mpr hc
  ram _ _ _ := rfl
  owned b _ hb ho := ho.store fun he => h b hb (congrArg (· / B) he)

theorem keeps_withRam {ram : Nat → β} (h : ∀ a, S a → ram a = m.ram a) :
    Keeps B S m (m.withRam ram) :=
  ⟨fun _ _ hc => hc, fun a ha _ => h a ha, fun a _ ha ho => ho.withRam (h a ha)⟩

end Mem

end CacheMem
