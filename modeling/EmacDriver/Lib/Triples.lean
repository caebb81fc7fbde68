import EmacDriver.Lib.Simulation

namespace Triples
open Simulation

variable {σ α β : Type} {P P' M : σ → Prop} {Q Q' : α → σ → Prop}

/-- From a state in `P` the program returns, with a value and a state in `Q`. -/
def Ends (P : σ → Prop) (c : StateT σ Option α) (Q : α → σ → Prop) : Prop :=
  ∀ s, P s → ∃ v t, c.run s = some (v, t) ∧ Q v t

theorem ends_pure {v : α} (h : ∀ s, P s → Q v s) : Ends P (pure v) Q :=
  fun s hs => ⟨v, s, rfl, h s hs⟩

/-- What the first part leaves is what the second begins with. -/
theorem Ends.bind {c : StateT σ Option α} {f : α → StateT σ Option β} {N : α → σ → Prop}
    {R : β → σ → Prop} (hc : Ends P c N) (hf : ∀ v, Ends (N v) (f v) R) :
    Ends P (c >>= f) R := by
  intro s hs
  obtain ⟨v, t, ht, hv⟩ := hc s hs
  obtain ⟨w, u, hu, hw⟩ := hf v t hv
  exact ⟨w, u, (run_bind_some f ht).trans hu, hw⟩

theorem Ends.mono {c : StateT σ Option α} (h : Ends P c Q) (hP : ∀ s, P' s → P s)
    (hQ : ∀ v s, Q v s → Q' v s) : Ends P' c Q' := by
  intro s hs
  obtain ⟨v, t, ht, hv⟩ := h s (hP s hs)
  exact ⟨v, t, ht, hQ v t hv⟩

theorem Ends.ite {c d : StateT σ Option α} (C : Prop) [Decidable C]
    (hc : C → Ends P c Q) (hd : ¬C → Ends P d Q) : Ends P (if C then c else d) Q := by
  by_cases h : C
  · rw [if_pos h]
    exact hc h
  · rw [if_neg h]
    exact hd h

/-- What is known besides the state. -/
theorem ends_of_imp {c : StateT σ Option α} {C : Prop} (h : C → Ends P c Q) :
    Ends (fun s => C ∧ P s) c Q := by
  rintro s ⟨hC, hs⟩
  exact h hC s hs

def upto (body : Nat → StateT σ Option Unit) : Nat → StateT σ Option Unit
  | 0 => pure ()
  | n + 1 => do
    upto body n
    body n

/-- An invariant that counts the rounds. -/
theorem Ends.upto {body : Nat → StateT σ Option Unit} {I : Nat → σ → Prop} {n : Nat}
    (h : ∀ i < n, Ends (I i) (body i) fun _ => I (i + 1)) :
    Ends (I 0) (Triples.upto body n) fun _ => I n := by
  induction n with
  | zero => exact ends_pure fun _ hs => hs
  | succ n ih =>
    have hprev := ih fun i hi => h i (Nat.lt_succ_of_lt hi)
    exact hprev.bind fun _ => h n (Nat.lt_succ_self n)

theorem Ends.forM {ι : Type} {l : List ι} {f : ι → StateT σ Option Unit}
    (h : ∀ i ∈ l, Ends P (f i) fun _ => P) : Ends P (l.forM f) fun _ => P := by
  induction l with
  | nil => exact ends_pure fun _ hs => hs
  | cons i l ih =>
    exact (h i List.mem_cons_self).bind fun _ => ih fun j hj => h j (List.mem_cons_of_mem i hj)

/-- One more thing is done with every element. -/
theorem Ends.forM_count {ι : Type} {l : List ι} {f : ι → StateT σ Option Unit}
    {I : Nat → σ → Prop} {n : Nat}
    (h : ∀ i ∈ l, ∀ k, n ≤ k → k < n + l.length → Ends (I k) (f i) fun _ => I (k + 1)) :
    Ends (I n) (l.forM f) fun _ => I (n + l.length) := by
  induction l generalizing n with
  | nil => exact ends_pure fun _ hs => hs
  | cons i l ih =>
    rw [List.length_cons] at h ⊢
    have hfirst := h i List.mem_cons_self n (Nat.le_refl n) (by omega)
    have hrest : Ends (I (n + 1)) (l.forM f) fun _ => I (n + 1 + l.length) :=
      ih fun j hj k hk hlt => h j (List.mem_cons_of_mem i hj) k (by omega) (by omega)
    rw [show n + 1 + l.length = n + (l.length + 1) by omega] at hrest
    exact hfirst.bind fun _ => hrest

/-- A loop that does `D i` for each `i`, and undoes none of it. -/
theorem Ends.forM_all {ι : Type} {l : List ι} {f : ι → StateT σ Option Unit}
    {D : ι → σ → Prop} (hdo : ∀ i ∈ l, Ends P (f i) fun _ s => P s ∧ D i s)
    (hkeep : ∀ i ∈ l, ∀ j, Ends (fun s => P s ∧ D j s) (f i) fun _ => D j) :
    Ends P (l.forM f) fun _ s => P s ∧ ∀ i ∈ l, D i s := by
  have hall : ∀ done : List ι, Ends (fun s => P s ∧ ∀ j ∈ done, D j s) (l.forM f)
      fun _ s => P s ∧ (∀ i ∈ l, D i s) ∧ ∀ j ∈ done, D j s := by
    induction l with
    | nil => exact fun done => ends_pure fun s hs => ⟨hs.1, List.forall_mem_nil _, hs.2⟩
    | cons i l ih =>
      intro done
      have hstep : Ends (fun s => P s ∧ ∀ j ∈ done, D j s) (f i)
          fun _ s => P s ∧ ∀ j ∈ i :: done, D j s := by
        intro s hs
        obtain ⟨v, t, ht, hP, hi⟩ := hdo i List.mem_cons_self s hs.1
        refine ⟨v, t, ht, hP, ?_⟩
        intro j hj
        rcases List.mem_cons.mp hj with rfl | hj
        · exact hi
        · obtain ⟨v', t', ht', hd⟩ := hkeep i List.mem_cons_self j s ⟨hs.1, hs.2 j hj⟩
          cases Option.some.inj (ht.symm.trans ht')
          exact hd
      have hrest := ih (fun j hj => hdo j (List.mem_cons_of_mem i hj))
        (fun j hj => hkeep j (List.mem_cons_of_mem i hj)) (i :: done)
      refine hstep.bind fun _ => hrest.mono (fun _ hs => hs) fun _ s hs => ⟨hs.1, ?_, ?_⟩
      · intro j hj
        rcases List.mem_cons.mp hj with rfl | hj
        · exact hs.2.2 _ List.mem_cons_self
        · exact hs.2.1 j hj
      · exact fun j hj => hs.2.2 j (List.mem_cons_of_mem i hj)
  exact (hall []).mono (fun s hs => ⟨hs, List.forall_mem_nil _⟩) fun _ s hs => ⟨hs.1, hs.2.1⟩

/-- If the program returns from a state in `P`, then with a value and a state in `Q`. -/
def Yields (P : σ → Prop) (c : StateT σ Option α) (Q : α → σ → Prop) : Prop :=
  ∀ s v t, P s → c.run s = some (v, t) → Q v t

theorem yields_pure {v : α} (h : ∀ s, P s → Q v s) : Yields P (pure v) Q := by
  intro s u t hs ht
  cases ht
  exact h s hs

/-- A program that does not return leaves nothing behind. -/
theorem yields_failure : Yields P (failure : StateT σ Option α) Q := by
  intro s v t _ ht
  cases ht

theorem Yields.bind {c : StateT σ Option α} {f : α → StateT σ Option β} {N : α → σ → Prop}
    {R : β → σ → Prop} (hc : Yields P c N) (hf : ∀ v, Yields (N v) (f v) R) :
    Yields P (c >>= f) R := by
  intro s w u hs hu
  obtain ⟨v, t, ht, hrest⟩ := run_bind_eq_some.mp hu
  exact hf v t w u (hc s v t hs ht) hrest

theorem Yields.mono {c : StateT σ Option α} (h : Yields P c Q) (hP : ∀ s, P' s → P s)
    (hQ : ∀ v s, Q v s → Q' v s) : Yields P' c Q' :=
  fun s v t hs ht => hQ v t (h s v t (hP s hs) ht)

theorem Yields.ite {c d : StateT σ Option α} (C : Prop) [Decidable C]
    (hc : C → Yields P c Q) (hd : ¬C → Yields P d Q) : Yields P (if C then c else d) Q := by
  by_cases h : C
  · rw [if_pos h]
    exact hc h
  · rw [if_neg h]
    exact hd h

theorem Yields.upto {body : Nat → StateT σ Option Unit} {n : Nat}
    (h : ∀ i, Yields P (body i) fun _ => P) : Yields P (Triples.upto body n) fun _ => P := by
  induction n with
  | zero => exact yields_pure fun _ hs => hs
  | succ n ih => exact ih.bind fun _ => h n

theorem Yields.forM {ι : Type} {l : List ι} {f : ι → StateT σ Option Unit}
    (h : ∀ i, Yields P (f i) fun _ => P) : Yields P (l.forM f) fun _ => P := by
  induction l with
  | nil => exact yields_pure fun _ hs => hs
  | cons i l ih => exact (h i).bind fun _ => ih

/-- What is known if it returns, when it does. -/
theorem Ends.both {c : StateT σ Option α} {R : α → σ → Prop} (h : Ends P c Q)
    (h' : Yields P' c R) : Ends (fun s => P s ∧ P' s) c fun v s => Q v s ∧ R v s := by
  rintro s ⟨hs, hs'⟩
  obtain ⟨v, t, ht, hv⟩ := h s hs
  exact ⟨v, t, ht, hv, h' s v t hs' ht⟩

end Triples
