namespace Simulation

variable {σ π α β : Type} {R : σ → π → Prop}

/-- From related states `c` returns what `a` does, and the states are related again. Both may not
return: a program that does is followed by the one below it. -/
def Sim (R : σ → π → Prop) (c : StateT σ Option α) (a : StateT π Option α) : Prop :=
  ∀ s p v p', R s p → a.run p = some (v, p') → ∃ s', c.run s = some (v, s') ∧ R s' p'

theorem sim_pure (v : α) : Sim R (pure v) (pure v) := by
  intro s p w p' hR ha
  cases ha
  exact ⟨s, rfl, hR⟩

theorem run_bind_some {c : StateT σ Option α} (f : α → StateT σ Option β) {s t : σ} {v : α}
    (h : c.run s = some (v, t)) : (c >>= f).run s = (f v).run t := by
  rw [StateT.run_bind, h]
  rfl

theorem run_bind_eq_some {c : StateT σ Option α} {f : α → StateT σ Option β} {s s' : σ} {w : β} :
    (c >>= f).run s = some (w, s') ↔ ∃ v t, c.run s = some (v, t) ∧ (f v).run t = some (w, s') := by
  rw [StateT.run_bind]
  cases c.run s with
  | none =>
    constructor
    · intro h
      cases h
    · rintro ⟨v, t, hr, h⟩
      cases hr
  | some r =>
    constructor
    · exact fun h => ⟨r.1, r.2, rfl, h⟩
    · rintro ⟨v, t, hr, h⟩
      cases hr
      exact h

/-- Simulations go on one behind the other. -/
theorem Sim.bind {c : StateT σ Option α} {a : StateT π Option α} {f : α → StateT σ Option β}
    {g : α → StateT π Option β} (hc : Sim R c a) (hf : ∀ v, Sim R (f v) (g v)) :
    Sim R (c >>= f) (a >>= g) := by
  intro s p w p' hR ha
  obtain ⟨v, q, hv, hw⟩ := run_bind_eq_some.mp ha
  obtain ⟨t, ht, hR'⟩ := hc s p v q hR hv
  obtain ⟨s', hs', hR''⟩ := hf v t q w p' hR' hw
  exact ⟨s', run_bind_eq_some.mpr ⟨v, t, ht, hs'⟩, hR''⟩

/-- `while (test);`, with at most `n` tests. -/
def waitWhile (test : StateT σ Option Bool) : Nat → StateT σ Option Unit
  | 0 => failure
  | n + 1 => do
    if ← test then waitWhile test n else pure ()

/-- A wait whose test holds as long as there is something left of `rank`. -/
theorem waitWhile_ends {test : StateT σ Option Bool} {P : σ → Prop} {rank : σ → Nat}
    (h : ∀ s, P s →
      ∃ t, test.run s = some (decide (0 < rank s), t) ∧ P t ∧ rank t = rank s - 1)
    {n : Nat} {s : σ} (hn : rank s < n) (hs : P s) :
    ∃ t, (waitWhile test n).run s = some ((), t) ∧ P t ∧ rank t = 0 := by
  induction n generalizing s with
  | zero => exact absurd hn (Nat.not_lt_zero _)
  | succ n ih =>
    obtain ⟨t, ht, hP, hrank⟩ := h s hs
    have hrun := run_bind_some (fun b => if b = true then waitWhile test n else pure ()) ht
    by_cases hpos : 0 < rank s
    · rw [decide_eq_true hpos, if_pos rfl] at hrun
      obtain ⟨t', ht', hP', hzero⟩ := ih (s := t) (by omega) hP
      exact ⟨t', hrun.trans ht', hP', hzero⟩
    · rw [decide_eq_false hpos] at hrun
      exact ⟨t, hrun, hP, by omega⟩

theorem Sim.mapM {ι : Type} {f : ι → StateT σ Option β} {g : ι → StateT π Option β}
    {l : List ι} (h : ∀ i ∈ l, Sim R (f i) (g i)) : Sim R (l.mapM f) (l.mapM g) := by
  induction l with
  | nil => exact sim_pure []
  | cons i l ih =>
    rw [List.mapM_cons, List.mapM_cons]
    have hrest := ih fun j hj => h j (List.mem_cons_of_mem i hj)
    exact (h i List.mem_cons_self).bind fun v => hrest.bind fun vs => sim_pure (v :: vs)

end Simulation
