import EmacDriver.NetLoop

namespace EmacDriver

theorem strcmp_self (s : CStr) : strcmp s s = 0 := by
  induction s with
  | nil => rfl
  | cons c s ih => simp [strcmp, ih]

/-- A string without a NUL that compares equal is a prefix: where the other list
goes on, it goes on behind its own NUL. -/
theorem prefix_of_strcmp {a k : CStr} (h0 : 0 ∉ a) (h : strcmp a k = 0) : a <+: k := by
  induction a generalizing k with
  | nil => exact List.nil_prefix
  | cons c a ih =>
    have hc : c.toNat ≠ 0 := by
      intro hz
      have hnul : c = 0 := UInt8.toNat_inj.mp hz
      exact h0 (hnul ▸ List.mem_cons_self)
    cases k with
    | nil =>
      simp [strcmp] at h
      omega
    | cons d k =>
      unfold strcmp at h
      split at h
      · rename_i hcd
        rw [hcd]
        exact (List.cons_prefix_cons).mpr ⟨rfl, ih (fun hc => h0 (List.mem_cons_of_mem _ hc)) h⟩
      · rename_i hcd
        exact absurd (UInt8.toNat_inj.mp (by omega)) hcd

/-- No key is taken for both names. -/
def Apart (name m : CStr) : Prop := ∀ k, strcmp name k = 0 → strcmp m k ≠ 0

theorem apart_of_prefix {name m : CStr} (h0 : 0 ∉ name) (hm0 : 0 ∉ m) (h : ¬ name <+: m)
    (h' : ¬ m <+: name) : Apart name m := by
  intro k hk hmk
  exact (List.prefix_or_prefix_of_prefix (prefix_of_strcmp h0 hk) (prefix_of_strcmp hm0 hmk)).elim
    h h'

theorem apart_ethrotate : Apart (cstr "ethact") (cstr "ethrotate") :=
  apart_of_prefix (by decide) (by decide) (by decide) (by decide)

theorem apart_netretry : Apart (cstr "ethact") (cstr "netretry") :=
  apart_of_prefix (by decide) (by decide) (by decide) (by decide)

/-- The first slot that holds the name. -/
theorem envGet_eq_some {e : Env} {m : CStr} {i : Nat} :
    envGet e m = some i ↔ e.holds m i = true ∧ i < 20 ∧ ∀ j < i, e.holds m j = false := by
  simp [envGet, List.find?_range_eq_some]

/-- The slot `env_set` writes: one that holds the name, or else the last. -/
theorem envSet_slot {e e' : Env} {name v : CStr} (h : envSet e name (some v) = some e') :
    ∃ idx, e' = { keys := fun i => if i = idx then name else e.keys i
                  vals := fun i => if i = idx then v else e.vals i } ∧
      (idx < 19 ∧ envGet e name = some idx ∨ idx = 19 ∧ ∀ j < 19, e.holds name j = false) := by
  simp only [envSet] at h
  split at h
  · cases h
    refine ⟨_, rfl, ?_⟩
    cases hf : (List.range 19).find? (e.holds name) with
    | none =>
      rw [List.find?_range_eq_none] at hf
      exact Or.inr ⟨rfl, by simpa using hf⟩
    | some i =>
      rw [List.find?_range_eq_some] at hf
      obtain ⟨hi, hlt, hfirst⟩ := hf
      have hlt : i < 19 := List.mem_range.mp hlt
      exact Or.inl ⟨hlt, envGet_eq_some.mpr ⟨hi, Nat.lt_succ_of_lt hlt, by simpa using hfirst⟩⟩
  · cases h

/-- The variable written is set. -/
theorem envGet_envSet_self {e e' : Env} {name v : CStr} (h : envSet e name (some v) = some e')
    (hn : name ≠ []) : ∃ i, envGet e' name = some i := by
  obtain ⟨idx, rfl, hidx⟩ := envSet_slot h
  have hlt : idx < 20 := by omega
  apply Option.isSome_iff_exists.mp
  rw [envGet, List.find?_isSome]
  exact ⟨idx, List.mem_range.mpr hlt, by simp [Env.holds, hn, strcmp_self]⟩

/-- Losing a slot that is not the one found goes unnoticed. -/
theorem envGet_cleared {e e' : Env} {m : CStr} {idx : Nat}
    (hoff : ∀ i, i ≠ idx → e'.holds m i = e.holds m i) (hat : e'.holds m idx = false)
    (hne : envGet e m ≠ some idx) : envGet e' m = envGet e m := by
  cases hg : envGet e m with
  | none =>
    rw [envGet, List.find?_range_eq_none] at hg ⊢
    intro i hi
    by_cases hidx : i = idx
    · simp [hidx, hat]
    · rw [hoff i hidx]
      exact hg i hi
  | some i =>
    obtain ⟨hholds, hlt, hfirst⟩ := envGet_eq_some.mp hg
    have hidx : i ≠ idx := by
      rintro rfl
      exact hne hg
    refine envGet_eq_some.mpr ⟨(hoff i hidx).trans hholds, hlt, ?_⟩
    intro j hj
    by_cases hjdx : j = idx
    · rw [hjdx, hat]
    · rw [hoff j hjdx]
      exact hfirst j hj

/-- Another variable keeps its slot and value, or is the one lost from the last
slot. -/
theorem envGet_envSet_other {e e' : Env} {name m v : CStr} (ha : Apart name m)
    (h : envSet e name (some v) = some e') :
    (envGet e' m = envGet e m ∧ ∀ i, envGet e m = some i → e'.vals i = e.vals i) ∨
      (envGet e m = some 19 ∧ (∀ j < 19, e.holds name j = false) ∧ envGet e' m = none) := by
  obtain ⟨idx, rfl, hidx⟩ := envSet_slot h
  generalize he' : ({ keys := _, vals := _ } : Env) = e'
  have hat : e'.holds m idx = false := by
    have := ha name (strcmp_self name)
    simp [← he', Env.holds, this]
  have hoff : ∀ i, i ≠ idx → e'.holds m i = e.holds m i := by
    intro i hi
    simp [← he', Env.holds, hi]
  by_cases hg : envGet e m = some idx
  · -- the name was in no slot before the last, which held `m`
    right
    obtain ⟨hm, -, hfirst⟩ := envGet_eq_some.mp hg
    rcases hidx with ⟨-, hname⟩ | ⟨rfl, hfree⟩
    · have hk := (envGet_eq_some.mp hname).1
      simp only [Env.holds, Bool.and_eq_true, beq_iff_eq] at hk hm
      exact absurd hm.2 (ha _ hk.2)
    · refine ⟨hg, hfree, ?_⟩
      rw [envGet, List.find?_range_eq_none]
      intro i hi
      by_cases hi19 : i = 19
      · simp [hi19, hat]
      · simp [hoff i hi19, hfirst i (by omega)]
  · left
    refine ⟨envGet_cleared hoff hat hg, ?_⟩
    intro i hi
    have hne : i ≠ idx := by
      rintro rfl
      exact hg hi
    simp [← he', hne]

/-- Rotation needs `ethact` only once it is on. -/
def ActSet (e : Env) : Prop := rotateOff e = true ∨ ∃ i, envGet e (cstr "ethact") = some i

/-- Writing `ethact` leaves `netretry` where it is: in the last slot it is safe
only while another slot holds `ethact`. -/
def RetryKept (e : Env) : Prop :=
  envGet e (cstr "netretry") = some 19 → ∃ j < 19, e.holds (cstr "ethact") j = true

theorem rotateOff_written {e e' : Env} {v : CStr}
    (h : envSet e (cstr "ethact") (some v) = some e') (hr : rotateOff e = false) :
    rotateOff e' = false := by
  unfold rotateOff at *
  rcases envGet_envSet_other apart_ethrotate h with ⟨hg, hv⟩ | ⟨_, _, hg⟩
  · rw [hg]
    cases hi : envGet e (cstr "ethrotate") with
    | none => rfl
    | some i =>
      rw [hi] at hr
      simpa [hv i hi] using hr
  · rw [hg]

/-- A setting that is kept survives the write, and stays kept. -/
theorem retryKept_written {e e' : Env} {v : CStr}
    (h : envSet e (cstr "ethact") (some v) = some e') (hk : RetryKept e) :
    RetryKept e' ∧ retrySetting e' = retrySetting e := by
  rcases envGet_envSet_other apart_netretry h with ⟨hg, hv⟩ | ⟨hg, hfree, -⟩
  · constructor
    · intro hg'
      obtain ⟨j, hj, hact⟩ := hk (hg ▸ hg')
      refine ⟨j, hj, ?_⟩
      obtain ⟨idx, rfl, -⟩ := envSet_slot h
      by_cases hji : j = idx
      · simp [Env.holds, hji, strcmp_self]
        decide
      · simpa [Env.holds, hji] using hact
    · unfold retrySetting
      rw [hg]
      cases hi : envGet e (cstr "netretry") with
      | none => rfl
      | some i => simp only [hv i hi]
  · obtain ⟨j, hj, hact⟩ := hk hg
    rw [hfree j hj] at hact
    cases hact

/-- Where it is not kept, the first write takes `netretry` away for good. -/
theorem retry_lost {e e' : Env} {v : CStr} (h : envSet e (cstr "ethact") (some v) = some e')
    (hk : ¬ RetryKept e) : RetryKept e' ∧ retrySetting e' = (false, 0) := by
  have hg : envGet e (cstr "netretry") = some 19 := Decidable.byContradiction fun hg =>
    hk fun hg' => absurd hg' hg
  have hfree : ∀ j < 19, e.holds (cstr "ethact") j = false := by
    intro j hj
    simpa using fun hact => hk fun _ => ⟨j, hj, hact⟩
  have hnone : envGet e' (cstr "netretry") = none := by
    rcases envGet_envSet_other apart_netretry h with ⟨hg', -⟩ | ⟨-, -, hg'⟩
    · obtain ⟨idx, rfl, hidx⟩ := envSet_slot h
      have hheld := (envGet_eq_some.mp (hg'.trans hg)).1
      rcases hidx with ⟨hlt, hact⟩ | ⟨rfl, -⟩
      · exact absurd (envGet_eq_some.mp hact).1 (by simp [hfree idx hlt])
      · revert hheld
        simp [Env.holds, apart_netretry _ (strcmp_self _)]
    · exact hg'
  exact ⟨fun hg' => by simp [hnone] at hg', by simp [retrySetting, hnone]⟩

/-- What survives the writes of `ethact` that moving round the ring makes. A
setting that is not kept is gone after the first. -/
structure EnvLater (e e' : Env) : Prop where
  rotate : rotateOff e' = rotateOff e
  act : ActSet e → ActSet e'
  retry : RetryKept e → RetryKept e' ∧ retrySetting e' = retrySetting e
  lost : ¬ RetryKept e → e' = e ∨ RetryKept e' ∧ retrySetting e' = (false, 0)

theorem EnvLater.refl (e : Env) : EnvLater e e := ⟨rfl, id, fun h => ⟨h, rfl⟩, fun _ => Or.inl rfl⟩

theorem EnvLater.trans {e e' e'' : Env} (h : EnvLater e e') (h' : EnvLater e' e'') :
    EnvLater e e'' where
  rotate := h'.rotate.trans h.rotate
  act := h'.act ∘ h.act
  retry := fun hk => by
    obtain ⟨hk', hs⟩ := h.retry hk
    obtain ⟨hk'', hs'⟩ := h'.retry hk'
    exact ⟨hk'', hs'.trans hs⟩
  lost := fun hk => by
    rcases h.lost hk with rfl | ⟨hk', hs⟩
    · exact h'.lost hk
    · obtain ⟨hk'', hs'⟩ := h'.retry hk'
      exact Or.inr ⟨hk'', hs'.trans hs⟩

/-- `ethact` is only written with rotation on. -/
theorem envLater_written {e e' : Env} {v : CStr}
    (h : envSet e (cstr "ethact") (some v) = some e') (hr : rotateOff e = false) :
    EnvLater e e' where
  rotate := by rw [rotateOff_written h hr, hr]
  act := fun _ => Or.inr (envGet_envSet_self h (by decide))
  retry := retryKept_written h
  lost := fun hk => Or.inr (retry_lost h hk)

/-- With `ethact` in a slot, writing it again costs nothing. -/
theorem retryKept_of_actSet {e : Env} (hr : rotateOff e = false) (ha : ActSet e) : RetryKept e := by
  intro hg
  rcases ha with hoff | ⟨i, hi⟩
  · rw [hr] at hoff
    cases hoff
  · obtain ⟨hact, hlt, -⟩ := envGet_eq_some.mp hi
    have hne : i ≠ 19 := by
      rintro rfl
      have hretry := (envGet_eq_some.mp hg).1
      simp only [Env.holds, Bool.and_eq_true, beq_iff_eq] at hact hretry
      exact absurd hretry.2 (apart_netretry _ hact.2)
    exact ⟨i, by omega, hact⟩

end EmacDriver
