import Mathlib.Algebra.Ring.Nat
import Mathlib.Data.List.Nodup

namespace LinkedRing

variable {α : Type}

/-- Each element of the list links to the one behind it, the last one to `e`. -/
def Linked (next : α → Option α) : List α → Option α → Prop
  | [], _ => True
  | a :: l, e => next a = l.head?.or e ∧ Linked next l e

/-- `for (a = ..; !stop(a); a = a->next)`, given up after `n` elements. -/
def walk (next : α → Option α) (stop : α → Bool) : Nat → α → Option α
  | 0, _ => none
  | n + 1, a =>
    if stop a then some a
    else
      match next a with
      | some b => walk next stop n b
      | none => none

variable {next next' : α → Option α} {l m : List α} {e : Option α}

theorem Linked.congr (h : Linked next l e) (hn : ∀ a ∈ l, next' a = next a) :
    Linked next' l e := by
  induction l with
  | nil => trivial
  | cons a l ih =>
    refine ⟨(hn a List.mem_cons_self).trans h.1, ih h.2 ?_⟩
    intro b hb
    exact hn b (List.mem_cons_of_mem _ hb)

theorem linked_append :
    Linked next (l ++ m) e ↔ Linked next l (m.head?.or e) ∧ Linked next m e := by
  induction l with
  | nil => simp [Linked]
  | cons a l ih => simp [Linked, ih, and_assoc, Option.or_assoc]

theorem head_append_cons (pre post : List α) (a : α) :
    ∃ b ∈ pre ++ [a], (pre ++ a :: post).head? = some b ∧ (pre ++ [a]).head? = some b := by
  cases pre with
  | nil => exact ⟨a, by simp⟩
  | cons b pre => exact ⟨b, by simp⟩

/-- The walk stops at the first element that says so. -/
theorem walk_linked {pre post : List α} {a x : α} {stop : α → Bool} {n : Nat}
    (h : Linked next (pre ++ a :: post) e) (hx : (pre ++ [a]).head? = some x)
    (hpre : ∀ b ∈ pre, stop b = false) (ha : stop a = true) (hn : pre.length < n) :
    walk next stop n x = some a := by
  induction pre generalizing n x with
  | nil =>
    cases n with
    | zero => cases hn
    | succ n =>
      cases hx
      simp [walk, ha]
  | cons b pre ih =>
    cases n with
    | zero => cases hn
    | succ n =>
      cases hx
      obtain ⟨hb, hrest⟩ := h
      obtain ⟨y, -, hy, hy'⟩ := head_append_cons pre post a
      have hb : next b = some y := by
        rw [hb]
        exact congrArg (fun o => Option.or o e) hy
      simp only [walk, hpre b List.mem_cons_self, Bool.false_eq_true, if_false, hb]
      apply ih hrest hy'
      · intro c hc
        exact hpre c (List.mem_cons_of_mem _ hc)
      · exact Nat.lt_of_succ_lt_succ hn

/-- A link out of the list leads into it or to its end. -/
theorem Linked.next_mem {a : α} (h : Linked next l e) (ha : a ∈ l) :
    next a = e ∨ ∃ b ∈ l, next a = some b := by
  induction l with
  | nil => cases ha
  | cons c l ih =>
    rcases List.mem_cons.mp ha with rfl | ha
    · cases l with
      | nil => exact Or.inl h.1
      | cons b l => exact Or.inr ⟨b, by simp, h.1⟩
    · rcases ih h.2 ha with he | ⟨b, hb, he⟩
      · exact Or.inl he
      · exact Or.inr ⟨b, List.mem_cons_of_mem _ hb, he⟩

/-- In front of `c` links lead to later elements, up to `c`. -/
theorem Linked.next_before {pre post : List α} {b c : α} (h : Linked next (pre ++ c :: post) e)
    (hb : b ∈ pre) : ∃ y ∈ (pre ++ [c]).tail, next b = some y := by
  induction pre with
  | nil => cases hb
  | cons a pre ih =>
    obtain ⟨ha, hrest⟩ := h
    rcases List.mem_cons.mp hb with rfl | hb
    · obtain ⟨y, hmem, hy, -⟩ := head_append_cons pre post c
      exact ⟨y, hmem, ha.trans (congrArg (fun o => Option.or o e) hy)⟩
    · obtain ⟨y, hmem, hy⟩ := ih hrest hb
      exact ⟨y, List.mem_of_mem_tail hmem, hy⟩

/-- A walk stops at `c` if no link in front of it lets it stop. -/
theorem Linked.walk_eq {pre post : List α} {c x : α} {stop : α → Bool} {n : Nat}
    (h : Linked next (pre ++ c :: post) e) (hx : (pre ++ c :: post).head? = some x)
    (hpre : ∀ b y, next b = some y → y ∈ (pre ++ [c]).tail → stop b = false) (hc : stop c = true)
    (hn : (pre ++ c :: post).length ≤ n) : walk next stop n x = some c := by
  obtain ⟨y, -, hy, hy'⟩ := head_append_cons pre post c
  rw [hy] at hx
  cases hx
  apply walk_linked h hy' _ hc
  · rw [List.length_append, List.length_cons] at hn
    omega
  · intro b hb
    obtain ⟨y, hmem, hby⟩ := h.next_before hb
    exact hpre b y hby hmem

theorem head_not_mem_tail {x : α} (hx : l.head? = some x) (hnd : l.Nodup) : x ∉ l.tail := by
  cases l with
  | nil => cases hx
  | cons a l =>
    cases hx
    exact (List.nodup_cons.mp hnd).1

/-- The last link led elsewhere. -/
theorem Linked.relink {pre : List α} {z : α} {e' : Option α} (h : Linked next (pre ++ [z]) e)
    (hn : ∀ a ∈ pre, next' a = next a) (hz : next' z = e') :
    Linked next' (pre ++ [z]) e' := by
  rw [linked_append] at h ⊢
  exact ⟨h.1.congr hn, hz, trivial⟩

/-- A new last element. -/
theorem Linked.snoc {pre : List α} {z d : α} {e' : Option α} (h : Linked next (pre ++ [z]) e)
    (hn : ∀ a ∈ pre, next' a = next a) (hz : next' z = some d) (hd : next' d = e') :
    Linked next' (pre ++ [z] ++ [d]) e' :=
  linked_append.mpr ⟨h.relink hn hz, hd, trivial⟩

/-- One element bypassed. -/
theorem Linked.bypass {pre post : List α} {c d : α} (h : Linked next (pre ++ c :: d :: post) e)
    (hn : ∀ a ∈ pre ++ post, next' a = next a) (hc : next' c = next d) :
    Linked next' (pre ++ c :: post) e := by
  rw [linked_append] at h ⊢
  obtain ⟨hpre, -, hd, hpost⟩ := h
  refine ⟨hpre.congr ?_, hc.trans hd, hpost.congr ?_⟩
  · intro a ha
    exact hn a (List.mem_append_left _ ha)
  · intro a ha
    exact hn a (List.mem_append_right _ ha)

/-- A ring begins anywhere. -/
theorem Linked.rotate {pre post : List α} (h : Linked next (pre ++ post) (pre ++ post).head?) :
    Linked next (post ++ pre) (post ++ pre).head? := by
  rw [linked_append, List.head?_append] at h ⊢
  have hpost : (post.head?.or (pre.head?.or post.head?)) = post.head?.or pre.head? := by
    cases post <;> cases pre <;> rfl
  have hpre : pre.head?.or (post.head?.or pre.head?) = pre.head?.or post.head? := by
    cases post <;> cases pre <;> rfl
  rw [hpost] at h
  rw [hpre]
  exact ⟨h.2, h.1⟩

end LinkedRing
