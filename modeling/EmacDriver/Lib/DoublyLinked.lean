import Mathlib.Data.List.Basic
import Mathlib.Logic.Function.Basic

namespace DoublyLinked

variable {α : Type} {next prev : α → α} {p n : α} {l r : List α}

def Seg (next prev : α → α) : α → List α → α → Prop
  | _, [], _ => True
  | p, x :: l, n => prev x = p ∧ next x = l.headD n ∧ Seg next prev x l n

theorem Seg.congr (next' prev' : α → α) (h : Seg next prev p l n)
    (hn : ∀ x ∈ l, next' x = next x) (hp : ∀ x ∈ l, prev' x = prev x) :
    Seg next' prev' p l n := by
  induction l generalizing p with
  | nil => trivial
  | cons x l ih =>
    obtain ⟨hprev, hnext, hrest⟩ := h
    refine ⟨(hp x List.mem_cons_self).trans hprev, (hn x List.mem_cons_self).trans hnext, ?_⟩
    exact ih hrest (fun y hy => hn y (List.mem_cons_of_mem x hy))
      (fun y hy => hp y (List.mem_cons_of_mem x hy))

/-- A node, between what is in front of it and what is behind. -/
theorem seg_append {x : α} : Seg next prev p (l ++ x :: r) n ↔
    Seg next prev p l x ∧ prev x = l.getLastD p ∧ next x = r.headD n ∧ Seg next prev x r n := by
  induction l generalizing p with
  | nil => simp [Seg]
  | cons y l ih =>
    have hhead : (l ++ x :: r).headD n = l.headD x := by cases l <;> rfl
    rw [List.cons_append, Seg, Seg, ih, hhead, List.getLastD_cons]
    constructor
    · rintro ⟨hprev, hnext, hseg, hrest⟩
      exact ⟨⟨hprev, hnext, hseg⟩, hrest⟩
    · rintro ⟨⟨hprev, hnext, hseg⟩, hrest⟩
      exact ⟨hprev, hnext, hseg, hrest⟩

/-- The head `h` and the nodes of `l` behind it, closed to a ring. -/
def Ring (next prev : α → α) (h : α) (l : List α) : Prop :=
  Seg next prev (l.getLastD h) (h :: l) h

theorem Ring.prev_head {h : α} (hr : Ring next prev h l) : prev h = l.getLastD h := hr.1

theorem Ring.next_head {h : α} (hr : Ring next prev h l) : next h = l.headD h := hr.2.1

/-- A ring, opened at its head. -/
theorem Ring.seg {h : α} (hr : Ring next prev h l) : Seg next prev h l h := hr.2.2

variable [DecidableEq α]

/-- The last node is made to point to `m`. -/
theorem Seg.setNext {m : α} (h : Seg next prev p l n) (hl : l ≠ []) (hd : l.Nodup) :
    Seg (Function.update next (l.getLastD p) m) prev p l m := by
  induction l generalizing p with
  | nil => exact absurd rfl hl
  | cons x l ih =>
    obtain ⟨hprev, hnext, hrest⟩ := h
    obtain ⟨hx, hd⟩ := List.nodup_cons.mp hd
    cases l with
    | nil => exact ⟨hprev, Function.update_self .., trivial⟩
    | cons y l =>
      have hne : x ≠ (y :: l).getLastD x := by
        intro he
        apply hx
        rw [he, List.getLastD_cons]
        exact List.getLastD_mem_cons ..
      rw [List.getLastD_cons]
      exact ⟨hprev, (Function.update_of_ne hne ..).trans hnext, ih hrest (by simp) hd⟩

/-- The first node is made to point back to `m`. -/
theorem Seg.setPrev {m x : α} (h : Seg next prev p (x :: l) n) (hx : x ∉ l) :
    Seg next (Function.update prev x m) m (x :: l) n := by
  obtain ⟨_, hnext, hrest⟩ := h
  refine ⟨Function.update_self .., hnext, ?_⟩
  apply hrest.congr _ _ (fun _ _ => rfl)
  intro y hy
  have hne : y ≠ x := fun he => hx (he ▸ hy)
  exact Function.update_of_ne hne ..

section Null
variable (z : α)

/-- `if (p) next[p] = x`, `p` being the last node of `l` and `z` null. -/
def frontNext (next : α → α) (l : List α) (x : α) : α → α :=
  if l.getLastD z = z then next else Function.update next (l.getLastD z) x

/-- `if (n) prev[n] = x`, `n` being the first node of `l`. -/
def backPrev (prev : α → α) : List α → α → α → α
  | [], _ => prev
  | n :: _, x => Function.update prev n x

/-- What stays linked in front, where a node with the name of null is not seen. -/
def kept (l : List α) : List α := if l.getLastD z = z then [] else l

variable {z}

theorem kept_subset {x : α} (h : x ∈ kept z l) : x ∈ l := by
  rw [kept] at h
  split at h
  · cases h
  · exact h

theorem getLastD_kept : (kept z l).getLastD z = l.getLastD z := by
  rw [kept]
  split
  · rename_i h
    exact h.symm
  · rfl

/-- The last link of the front part redirected. -/
theorem Seg.front {m : α} (h : Seg next prev z l n) (hd : l.Nodup) :
    Seg (frontNext z next l m) prev z (kept z l) m := by
  by_cases hz : l.getLastD z = z
  · rw [kept, if_pos hz]
    trivial
  · have hne : l ≠ [] := by
      rintro rfl
      exact hz rfl
    rw [kept, if_neg hz, frontNext, if_neg hz]
    exact h.setNext hne hd

/-- The first back link of the back part redirected. -/
theorem Seg.back {m : α} (h : Seg next prev p r n) (hd : r.Nodup) :
    Seg next (backPrev prev r m) m r n := by
  cases r with
  | nil => trivial
  | cons x r => exact h.setPrev (List.nodup_cons.mp hd).1

theorem frontNext_of_not_mem {m x : α} (hx : x ∉ l) : frontNext z next l m x = next x := by
  rw [frontNext]
  split
  · rfl
  · rename_i hz
    apply Function.update_of_ne
    intro he
    apply hx
    cases l with
    | nil => exact absurd rfl hz
    | cons y l =>
      rw [he, List.getLastD_cons]
      exact List.getLastD_mem_cons

theorem backPrev_of_not_mem {m x : α} (hx : x ∉ r) : backPrev prev r m x = prev x := by
  cases r with
  | nil => rfl
  | cons y r =>
    have hne : x ≠ y := by
      rintro rfl
      exact hx List.mem_cons_self
    exact Function.update_of_ne hne ..

/-- Two parts, whatever was between them, linked to each other. -/
theorem Seg.joined {m : α} (hf : Seg next prev z l m) (hb : Seg next prev p r z)
    (hd : (l ++ r).Nodup) :
    Seg (frontNext z next l (r.headD z)) (backPrev prev r (l.getLastD z)) z (kept z l ++ r) z := by
  obtain ⟨hdl, hdr, hcross⟩ := List.nodup_append.mp hd
  have hl : ∀ x ∈ l, x ∉ r := fun x hx hr => hcross x hx x hr rfl
  have hr : ∀ x ∈ r, x ∉ l := fun x hx hl => hcross x hl x hx rfl
  have hfront := (hf.front (m := r.headD z) hdl).congr _ (backPrev prev r (l.getLastD z))
    (fun _ _ => rfl) (fun x hx => backPrev_of_not_mem (hl x (kept_subset hx)))
  have hback := (hb.back (m := l.getLastD z) hdr).congr (frontNext z next l (r.headD z)) _
    (fun x hx => frontNext_of_not_mem (hr x hx)) (fun _ _ => rfl)
  cases r with
  | nil =>
    rw [List.append_nil]
    exact hfront
  | cons x r =>
    obtain ⟨hprev, hnext, hrest⟩ := hback
    exact seg_append.mpr ⟨hfront, hprev.trans getLastD_kept.symm, hnext, hrest⟩

end Null

theorem Seg.updateNext {x y : α} (hs : Seg next prev p l n) (hx : x ∉ l) :
    Seg (Function.update next x y) prev p l n := by
  apply hs.congr _ _ _ (fun _ _ => rfl)
  intro a ha
  have hne : a ≠ x := fun he => hx (he ▸ ha)
  exact Function.update_of_ne hne ..

theorem Seg.updatePrev {x y : α} (hs : Seg next prev p l n) (hx : x ∉ l) :
    Seg next (Function.update prev x y) p l n := by
  apply hs.congr _ _ (fun _ _ => rfl)
  intro a ha
  have hne : a ≠ x := fun he => hx (he ▸ ha)
  exact Function.update_of_ne hne ..

/-- A node put in front of the head, behind the last one. -/
theorem Ring.insert {h x : α} (hr : Ring next prev h l) (hd : (h :: l).Nodup) (hx : x ∉ h :: l) :
    Ring (Function.update (Function.update next x h) (prev h) x)
      (Function.update (Function.update prev h x) x (prev h)) h (l ++ [x]) := by
  have hlast : prev h = (h :: l).getLastD x := by
    rw [hr.prev_head, List.getLastD_cons]
  have hne : prev h ≠ x := by
    rw [hlast, List.getLastD_cons]
    intro he
    exact hx (he ▸ List.getLastD_mem_cons ..)
  have hfront := hr.setPrev (m := x) (List.nodup_cons.mp hd).1
  have hfront := (hfront.updateNext (y := h) hx).updatePrev (y := prev h) hx
  have hfront := hfront.setNext (m := x) (by simp) hd
  rw [← hlast] at hfront
  rw [Ring, List.getLastD_concat, ← List.cons_append]
  refine seg_append.mpr ⟨hfront, (Function.update_self ..).trans hlast, ?_, trivial⟩
  exact (Function.update_of_ne hne.symm ..).trans (Function.update_self ..)

/-- A node taken out, its neighbours pointing to each other. -/
theorem Ring.remove {h x : α} (hr : Ring next prev h (l ++ x :: r))
    (hd : (h :: (l ++ x :: r)).Nodup) :
    Ring (Function.update next (prev x) (next x)) (Function.update prev (next x) (prev x)) h
      (l ++ r) := by
  rw [Ring, ← List.cons_append, seg_append] at hr
  obtain ⟨hfront, hprev, hnext, hback⟩ := hr
  rw [List.getLastD_cons] at hprev
  rw [← List.cons_append] at hd
  obtain ⟨hdl, hdr, hcross⟩ := List.nodup_append.mp hd
  have hhead : h ∉ l := (List.nodup_cons.mp hdl).1
  rw [hprev, hnext]
  cases r with
  | nil =>
    have hpart := (hfront.setPrev (m := l.getLastD h) hhead).setNext (m := h) (by simp) hdl
    rw [List.getLastD_cons] at hpart
    rw [List.append_nil]
    exact hpart
  | cons y r =>
    have hy : y ∉ h :: l := fun hm => hcross y hm y (by simp) rfl
    have hlast : l.getLastD h ∉ y :: r := fun hm =>
      hcross _ List.getLastD_mem_cons _ (List.mem_cons_of_mem x hm) rfl
    have hsame : (l ++ x :: y :: r).getLastD h = (l ++ y :: r).getLastD h := by simp
    have hpart := (hfront.setNext (m := y) (by simp) hdl).updatePrev (y := l.getLastD h) hy
    rw [List.getLastD_cons, hsame] at hpart
    have hdy := (List.nodup_cons.mp hdr).2
    have hrest := hback.setPrev (m := l.getLastD h) (List.nodup_cons.mp hdy).1
    have hrest := hrest.updateNext (y := y) hlast
    rw [Ring, ← List.cons_append, seg_append, List.getLastD_cons]
    exact ⟨hpart, hrest.1, hrest.2.1, hrest.2.2⟩

end DoublyLinked
