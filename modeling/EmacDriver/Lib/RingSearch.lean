namespace RingSearch

variable {α : Type}

/-- Trying `a` as the `k`th of all, the search lands on the elements `l` and
stops at the last: a good one, or `old` again. -/
inductive Search (next : α → Option α) (good : Nat → α → Prop) (old : α) :
    Nat → α → List α → Bool → Prop where
  | found {k : Nat} {a : α} (here : good k a) : Search next good old k a [a] true
  | around {k : Nat} {a : α} (bad : ¬ good k a) (link : next a = some old) :
      Search next good old k a [a, old] false
  | skip {k : Nat} {a c : α} {l : List α} {b : Bool} (bad : ¬ good k a) (link : next a = some c)
      (other : c ≠ old) (rest : Search next good old (k + 1) c l b) :
      Search next good old k a (a :: l) b

variable {next : α → Option α} {good : Nat → α → Prop} {old a : α} {k : Nat} {l : List α} {b : Bool}

/-- The search has one outcome. -/
theorem Search.unique {l' : List α} {b' : Bool} (h : Search next good old k a l b)
    (h' : Search next good old k a l' b') : l = l' ∧ b = b' := by
  induction h generalizing l' b' with
  | found here =>
    cases h' with
    | found => exact ⟨rfl, rfl⟩
    | around bad => exact absurd here bad
    | skip bad => exact absurd here bad
  | around bad link =>
    cases h' with
    | found here => exact absurd here bad
    | around => exact ⟨rfl, rfl⟩
    | skip _ link' other =>
      rw [link] at link'
      cases link'
      exact absurd rfl other
  | skip bad link other _ ih =>
    cases h' with
    | found here => exact absurd here bad
    | around _ link' =>
      rw [link] at link'
      cases link'
      exact absurd rfl other
    | skip _ link' _ rest =>
      rw [link] at link'
      cases link'
      obtain ⟨rfl, rfl⟩ := ih rest
      exact ⟨rfl, rfl⟩

/-- The search begins where it is told to. -/
theorem Search.head (h : Search next good old k a l b) : ∃ t, l = a :: t := by
  cases h <;> exact ⟨_, rfl⟩

theorem Search.stop_skip {c : α} (h : Search next good old k c l b) :
    (a :: l).getLast? = l.getLast? := by
  obtain ⟨t, rfl⟩ := h.head
  exact List.getLast?_cons_cons

/-- Without a good element it ends where it began. -/
theorem Search.stop_old (h : Search next good old k a l false) : l.getLast? = some old := by
  generalize hb : false = b at h
  induction h with
  | found => cases hb
  | around => rfl
  | skip _ _ _ rest ih => rw [rest.stop_skip, ih hb]

end RingSearch
