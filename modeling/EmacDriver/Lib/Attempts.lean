import Mathlib.Data.List.Basic

namespace Attempts

variable {ι τ β : Type} {f : ι → τ → Option β × τ}

def first (f : ι → τ → Option β × τ) : List ι → τ → Option β × τ
  | [], s => (none, s)
  | x :: l, s =>
    match f x s with
    | (some r, s) => (some r, s)
    | (none, s) => first f l s

/-- Attempts that all fail and change nothing. -/
theorem first_idle (h : ∀ x s, f x s = (none, s)) (l : List ι) (s : τ) :
    first f l s = (none, s) := by
  induction l with
  | nil => rfl
  | cons x l ih => simp only [first, h, ih]

/-- All of these attempts fail, one after the other; each may change the state. -/
inductive Fail (f : ι → τ → Option β × τ) : List ι → τ → τ → Prop
  | nil (s : τ) : Fail f [] s s
  | cons {x : ι} {l : List ι} {s t u : τ} : f x s = (none, t) → Fail f l t u → Fail f (x :: l) s u

/-- The attempt on `x` is the first of `l` to succeed: it leads from `t` to `u`. -/
structure Hit (f : ι → τ → Option β × τ) (l : List ι) (s : τ) (x : ι) (t : τ) (r : β) (u : τ) :
    Prop where
  before : ∃ pre post, l = pre ++ x :: post ∧ Fail f pre s t
  hit : f x t = (some r, u)

theorem Fail.append {l l' : List ι} {s t u : τ} (h : Fail f l s t) (h' : Fail f l' t u) :
    Fail f (l ++ l') s u := by
  induction h with
  | nil s => exact h'
  | cons hx _ ih => exact .cons hx (ih h')

theorem Hit.here {x : ι} {l : List ι} {s u : τ} {r : β} (h : f x s = (some r, u)) :
    Hit f (x :: l) s x s r u :=
  ⟨⟨[], l, rfl, .nil s⟩, h⟩

theorem Hit.cons {x y : ι} {l : List ι} {s s' t u : τ} {r : β} (hy : f y s = (none, s'))
    (h : Hit f l s' x t r u) : Hit f (y :: l) s x t r u := by
  obtain ⟨pre, post, hl, hpre⟩ := h.before
  exact ⟨⟨y :: pre, post, by rw [hl, List.cons_append], .cons hy hpre⟩, h.hit⟩

theorem Hit.append_right {l l' : List ι} {s t u : τ} {x : ι} {r : β} (h : Hit f l s x t r u) :
    Hit f (l ++ l') s x t r u := by
  obtain ⟨pre, post, hl, hpre⟩ := h.before
  refine ⟨⟨pre, post ++ l', ?_, hpre⟩, h.hit⟩
  rw [hl, List.append_assoc, List.cons_append]

theorem Hit.append_left {l l' : List ι} {s s' t u : τ} {x : ι} {r : β} (hl : Fail f l s s')
    (h : Hit f l' s' x t r u) : Hit f (l ++ l') s x t r u := by
  obtain ⟨pre, post, hl', hpre⟩ := h.before
  refine ⟨⟨l ++ pre, post, ?_, hl.append hpre⟩, h.hit⟩
  rw [hl', List.append_assoc]

/-- Either all fail, or one is the first to succeed. -/
theorem first_cases (f : ι → τ → Option β × τ) (l : List ι) (s : τ) :
    (∃ u, first f l s = (none, u) ∧ Fail f l s u) ∨
      ∃ x t r u, first f l s = (some r, u) ∧ Hit f l s x t r u := by
  induction l generalizing s with
  | nil => exact .inl ⟨s, rfl, .nil s⟩
  | cons x l ih =>
    match hx : f x s with
    | (some r, u) => exact .inr ⟨x, s, r, u, by simp only [first, hx], .here hx⟩
    | (none, s') =>
      have hfirst : first f (x :: l) s = first f l s' := by simp only [first, hx]
      rw [hfirst]
      obtain ⟨u, hu, hfail⟩ | ⟨y, t, r, u, hu, hhit⟩ := ih s'
      · exact .inl ⟨u, hu, .cons hx hfail⟩
      · exact .inr ⟨y, t, r, u, hu, hhit.cons hx⟩

/-- Attempts that simulate others, on a state that holds theirs. -/
theorem first_sim {κ τ' γ : Type} {g : κ → τ' → Option γ × τ'} (at' : ι → κ)
    (Rel : τ → τ' → Prop) (Out : ι → τ' → γ → β → τ → Prop)
    (hnone : ∀ x s s' u', Rel s s' → g (at' x) s' = (none, u') →
      ∃ u, f x s = (none, u) ∧ Rel u u')
    (hsome : ∀ x s s' r' u', Rel s s' → g (at' x) s' = (some r', u') →
      ∃ r u, f x s = (some r, u) ∧ Out x u' r' r u)
    (l : List ι) (s : τ) (s' : τ') (h : Rel s s') :
    (∃ u u', first f l s = (none, u) ∧ Fail g (l.map at') s' u' ∧ Rel u u') ∨
      ∃ x t' r' u' r u, first f l s = (some r, u) ∧ Hit g (l.map at') s' (at' x) t' r' u' ∧
        Out x u' r' r u := by
  induction l generalizing s s' with
  | nil => exact .inl ⟨s, s', rfl, .nil s', h⟩
  | cons x l ih =>
    match hx : g (at' x) s' with
    | (some r', u') =>
      obtain ⟨r, u, hf, hout⟩ := hsome x s s' r' u' h hx
      exact .inr ⟨x, s', r', u', r, u, by simp only [first, hf], .here hx, hout⟩
    | (none, t') =>
      obtain ⟨t, hf, ht⟩ := hnone x s s' t' h hx
      have hfirst : first f (x :: l) s = first f l t := by simp only [first, hf]
      rw [hfirst]
      obtain ⟨u, u', hu, hfail, hrel⟩ | ⟨y, v', r', u', r, u, hu, hhit, hout⟩ := ih t t' ht
      · exact .inl ⟨u, u', hu, .cons hx hfail, hrel⟩
      · exact .inr ⟨y, v', r', u', r, u, hu, hhit.cons hx, hout⟩

end Attempts
