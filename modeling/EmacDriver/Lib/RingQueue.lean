import Mathlib.Data.Nat.ModEq

namespace RingQueue

variable {σ α : Type}

/-- The slots from `cur` round to `last` show the elements of `l`, each by the relation `R`. Where
the two meet there is none, so that one of the `N` slots stays free. -/
structure Holds (R : σ → α → Prop) (N : Nat) (slots : Nat → σ) (cur last : Nat) (l : List α) :
    Prop where
  room : l.length < N
  front : cur < N
  back : last = (cur + l.length) % N
  shows : ∀ i (hi : i < l.length), R (slots ((cur + i) % N)) l[i]

variable {R : σ → α → Prop} {N cur last : Nat} {slots slots' : Nat → σ} {l : List α} {x : α}

theorem add_mod_inj {c i j : Nat} (hi : i < N) (hj : j < N) (h : (c + i) % N = (c + j) % N) :
    i = j := by
  have hmod : i % N = j % N := Nat.ModEq.add_left_cancel' c h
  rwa [Nat.mod_eq_of_lt hi, Nat.mod_eq_of_lt hj] at hmod

theorem holds_nil (h : cur < N) : Holds R N slots cur cur [] where
  room := Nat.zero_lt_of_lt h
  front := h
  back := (Nat.mod_eq_of_lt h).symm
  shows _ hi := absurd hi (Nat.not_lt_zero _)

/-- The indices meet only when nothing is there. -/
theorem Holds.empty_iff (h : Holds R N slots cur last l) : cur = last ↔ l = [] := by
  have hcur : cur = (cur + 0) % N := (Nat.mod_eq_of_lt h.front).symm
  constructor
  · intro he
    rw [h.back, hcur, Nat.mod_add_mod] at he
    have hlen := add_mod_inj (Nat.zero_lt_of_lt h.room) h.room he
    exact List.length_eq_zero_iff.mp hlen.symm
  · rintro rfl
    exact hcur.trans h.back.symm

/-- One slot short of meeting again, the queue is full. -/
theorem Holds.full_iff (h : Holds R N slots cur last l) :
    (last + 1) % N = cur ↔ l.length + 1 = N := by
  rw [h.back, Nat.mod_add_mod, Nat.add_assoc]
  constructor
  · intro he
    by_contra hne
    have hlt : l.length + 1 < N := Nat.lt_of_le_of_ne h.room hne
    have hcur : (cur + (l.length + 1)) % N = (cur + 0) % N :=
      he.trans (Nat.mod_eq_of_lt h.front).symm
    exact absurd (add_mod_inj hlt (Nat.zero_lt_of_lt hlt) hcur) (Nat.succ_ne_zero _)
  · intro he
    rw [he, Nat.add_mod_right, Nat.mod_eq_of_lt h.front]

/-- A slot written behind the last element. -/
theorem Holds.push (h : Holds R N slots cur last l) (hroom : l.length + 1 < N)
    (hx : R (slots' last) x) (hkeep : ∀ j, j ≠ last → slots' j = slots j) :
    Holds R N slots' cur ((last + 1) % N) (l ++ [x]) where
  room := by
    rw [List.length_append]
    exact hroom
  front := h.front
  back := by rw [h.back, Nat.mod_add_mod, Nat.add_assoc, List.length_append, List.length_singleton]
  shows i hi := by
    rw [List.length_append, List.length_singleton] at hi
    by_cases hlast : i = l.length
    · subst hlast
      rw [List.getElem_concat_length rfl, ← h.back]
      exact hx
    · have hlt : i < l.length := Nat.lt_of_le_of_ne (Nat.le_of_lt_succ hi) hlast
      have hne : (cur + i) % N ≠ last := by
        rw [h.back]
        exact fun he => hlast (add_mod_inj (Nat.lt_trans hlt h.room) h.room he)
      rw [List.getElem_append_left hlt, hkeep _ hne]
      exact h.shows i hlt

theorem Holds.front_shows (h : Holds R N slots cur last (x :: l)) : R (slots cur) x := by
  have hfirst := h.shows 0 (Nat.zero_lt_succ _)
  rwa [Nat.add_zero, Nat.mod_eq_of_lt h.front] at hfirst

/-- The front slot is given up, whatever is still in it. -/
theorem Holds.pop (h : Holds R N slots cur last (x :: l)) :
    Holds R N slots ((cur + 1) % N) last l where
  room := Nat.lt_of_succ_lt h.room
  front := Nat.mod_lt _ (Nat.zero_lt_of_lt h.front)
  back := by rw [h.back, Nat.mod_add_mod, Nat.add_assoc, Nat.add_comm 1, List.length_cons]
  shows i hi := by
    rw [Nat.mod_add_mod, Nat.add_assoc, Nat.add_comm 1]
    exact h.shows (i + 1) (Nat.succ_lt_succ hi)

end RingQueue
