import EmacDriver.Proofs.EnvSpec

namespace EmacDriver

structure EnvCall where
  name : CStr
  val : Option CStr
  deriving DecidableEq

def emptyEnv : Env := ⟨fun _ => [], fun _ => []⟩

def envRun (e : Env) (calls : List EnvCall) : Option Env :=
  calls.foldlM (fun e c => envSet e c.name c.val) e

def Env.toMap (e : Env) (name : CStr) : Option CStr := (envGet e name).map e.vals

def mapSet (m : CStr → Option CStr) (c : EnvCall) : CStr → Option CStr :=
  fun name => if name = c.name then c.val else m name

def mapRun (calls : List EnvCall) : CStr → Option CStr := calls.foldl mapSet (fun _ => none)

def IsMap (calls : List EnvCall) : Prop :=
  ∃ e, envRun emptyEnv calls = some e ∧ ∀ name, 0 ∉ name → e.toMap name = mapRun calls name

/-- The arguments of a call: a name that is not empty, both strings shorter than
a slot, and strings at all. -/
structure EnvCall.Fits (c : EnvCall) : Prop where
  named : c.name ≠ []
  nul : 0 ∉ c.name
  name : c.name.length < 20
  val : ∀ v, c.val = some v → v.length < 20

def lastSlot (name v : CStr) : Env where
  keys := fun i => if i = 19 then name else []
  vals := fun i => if i = 19 then v else []

theorem emptyEnv_eq : emptyEnv = lastSlot [] [] := by simp [emptyEnv, lastSlot]

/-- No free slot is looked for, so a new name goes where the last one was. -/
theorem envSet_lastSlot (name v name' v' : CStr) (h : name'.length < 20) (h' : v'.length < 20) :
    envSet (lastSlot name v) name' (some v') = some (lastSlot name' v') := by
  have hfree : (List.range 19).find? ((lastSlot name v).holds name') = none := by
    apply List.find?_range_eq_none.mpr
    intro i hi
    have hne : i ≠ 19 := by omega
    simp [Env.holds, lastSlot, hne]
  simp only [envSet, hfree, Option.getD_none, h, h', and_self, if_true, Option.some.injEq]
  simp only [lastSlot, Env.mk.injEq]
  constructor
  all_goals
    funext i
    by_cases hi : i = 19 <;> simp [hi]

theorem strcmp_eq {a k : CStr} (ha : 0 ∉ a) (hk : 0 ∉ k) : strcmp a k = 0 ↔ a = k := by
  constructor
  · intro h
    induction a generalizing k with
    | nil =>
      cases k with
      | nil => rfl
      | cons d k =>
        simp only [strcmp, List.headD_nil, List.headD_cons] at h
        have hd : d = 0 := UInt8.toNat_inj.mp (by
          have : (0 : UInt8).toNat = 0 := rfl
          omega)
        simp [hd] at hk
    | cons c a ih =>
      obtain ⟨k', rfl⟩ := prefix_of_strcmp ha h
      have ha' : 0 ∉ a := fun hc => ha (List.mem_cons_of_mem _ hc)
      have hk' : 0 ∉ a ++ k' := fun hc => hk (List.mem_cons_of_mem _ hc)
      have := ih ha' hk' (by simpa [strcmp] using h)
      exact congrArg (c :: ·) this
  · rintro rfl
    exact strcmp_self a

/-- It reads as the map with at most that one name. -/
theorem lastSlot_toMap {name v : CStr} (h : name ≠ []) (h0 : 0 ∉ name) (m : CStr) (hm : 0 ∉ m) :
    (lastSlot name v).toMap m = if m = name then some v else none := by
  have hoff : ∀ j < 19, (lastSlot name v).holds m j = false := by
    intro j hj
    have hne : j ≠ 19 := by omega
    simp [Env.holds, lastSlot, hne]
  have hat : (lastSlot name v).holds m 19 = decide (m = name) := by
    simp [Env.holds, lastSlot, h, strcmp_eq hm h0, Bool.beq_eq_decide_eq]
  by_cases hmn : m = name
  · have hg : envGet (lastSlot name v) m = some 19 :=
      envGet_eq_some.mpr ⟨hat.trans (decide_eq_true hmn), by omega, hoff⟩
    rw [Env.toMap, hg, if_pos hmn]
    rfl
  · have hg : envGet (lastSlot name v) m = none := by
      rw [envGet, List.find?_range_eq_none]
      intro i hi
      by_cases hi19 : i = 19
      · simp [hi19, hat, hmn]
      · simp [hoff i (by omega)]
    rw [Env.toMap, hg, if_neg hmn]
    rfl

/-- A null value ends the run. -/
theorem envRun_nonnull {calls : List EnvCall} {e e' : Env} (h : envRun e calls = some e') :
    ∀ c ∈ calls, c.val ≠ none := by
  induction calls generalizing e with
  | nil => simp
  | cons c calls ih =>
    simp only [envRun, List.foldlM_cons] at h
    cases hc : envSet e c.name c.val with
    | none => simp [hc] at h
    | some e1 =>
      rw [hc] at h
      intro d hd
      rcases List.mem_cons.mp hd with rfl | hd
      · intro hnull
        simp [hnull, envSet] at hc
      · exact ih h d hd

/-- Without one, every run ends with the last name alone. -/
theorem envRun_lastSlot (calls : List EnvCall) (name v : CStr) (hf : ∀ c ∈ calls, c.Fits)
    (hn : ∀ c ∈ calls, c.val ≠ none) :
    ∃ name' v', envRun (lastSlot name v) calls = some (lastSlot name' v') ∧
      (calls ≠ [] → ∃ c ∈ calls, c.name = name') := by
  induction calls generalizing name v with
  | nil => exact ⟨name, v, rfl, fun h => absurd rfl h⟩
  | cons c calls ih =>
    obtain ⟨w, hw⟩ := Option.ne_none_iff_exists'.mp (hn c List.mem_cons_self)
    have hc := hf c List.mem_cons_self
    obtain ⟨name', v', hrun, hlast⟩ := ih c.name w
      (fun d hd => hf d (List.mem_cons_of_mem _ hd))
      (fun d hd => hn d (List.mem_cons_of_mem _ hd))
    refine ⟨name', v', ?_, ?_⟩
    · have hset := envSet_lastSlot name v c.name w hc.name (hc.val w hw)
      simp only [envRun, List.foldlM_cons, hw, hset]
      exact hrun
    · intro _
      by_cases hnil : calls = []
      · subst hnil
        simp only [envRun, List.foldlM_nil] at hrun
        have hkeys := congrArg (fun e => e.keys 19) (Option.some.inj hrun)
        exact ⟨c, List.mem_cons_self, hkeys⟩
      · obtain ⟨d, hd, hname⟩ := hlast hnil
        exact ⟨d, List.mem_cons_of_mem _ hd, hname⟩

/-- A name once set stays set. -/
theorem foldl_mapSet_set {calls : List EnvCall} (hn : ∀ c ∈ calls, c.val ≠ none)
    (m : CStr → Option CStr) (name : CStr) (h : m name ≠ none ∨ ∃ c ∈ calls, c.name = name) :
    calls.foldl mapSet m name ≠ none := by
  induction calls generalizing m with
  | nil => simpa using h
  | cons c calls ih =>
    apply ih (fun d hd => hn d (List.mem_cons_of_mem _ hd))
    by_cases hc : name = c.name
    · left
      simpa [mapSet, hc] using hn c List.mem_cons_self
    · rcases h with h | ⟨d, hd, rfl⟩
      · left
        simpa [mapSet, hc] using h
      · rcases List.mem_cons.mp hd with rfl | hd
        · exact absurd rfl hc
        · exact Or.inr ⟨d, hd, rfl⟩

/-- With one name only, array and map move in step. -/
theorem envRun_one_name {calls : List EnvCall} {name : CStr} (hf : ∀ c ∈ calls, c.Fits)
    (hn : ∀ c ∈ calls, c.val ≠ none) (h1 : ∀ c ∈ calls, c.name = name) (v : CStr) :
    ∃ v', envRun (lastSlot name v) calls = some (lastSlot name v') ∧
      calls.foldl mapSet (fun m => if m = name then some v else none) =
        fun m => if m = name then some v' else none := by
  induction calls generalizing v with
  | nil => exact ⟨v, rfl, rfl⟩
  | cons c calls ih =>
    obtain ⟨w, hw⟩ := Option.ne_none_iff_exists'.mp (hn c List.mem_cons_self)
    have hc := hf c List.mem_cons_self
    have hname := h1 c List.mem_cons_self
    obtain ⟨v', hrun, hmap⟩ := ih (fun d hd => hf d (List.mem_cons_of_mem _ hd))
      (fun d hd => hn d (List.mem_cons_of_mem _ hd))
      (fun d hd => h1 d (List.mem_cons_of_mem _ hd)) w
    have hset : mapSet (fun m => if m = name then some v else none) c =
        fun m => if m = name then some w else none := by
      funext m
      by_cases hm : m = name <;> simp [mapSet, hname, hm, hw]
    refine ⟨v', ?_, ?_⟩
    · simp only [envRun, List.foldlM_cons, hw,
        envSet_lastSlot name v c.name w hc.name (hc.val w hw)]
      rw [hname]
      exact hrun
    · rw [List.foldl_cons, hset, hmap]

/-- The store is a map for the histories that set one name and never delete. -/
theorem env_isMap_iff (calls : List EnvCall) (hf : ∀ c ∈ calls, c.Fits) :
    IsMap calls ↔ (∀ c ∈ calls, c.val ≠ none) ∧ ∀ c ∈ calls, ∀ d ∈ calls, c.name = d.name := by
  constructor
  · rintro ⟨e, hrun, hmap⟩
    have hn := envRun_nonnull hrun
    obtain ⟨name, v, hlast, hmem⟩ := envRun_lastSlot calls [] [] hf hn
    rw [← emptyEnv_eq, hrun] at hlast
    have hone : ∀ c ∈ calls, c.name = name := by
      intro c hc
      obtain ⟨d, hd, hname⟩ := hmem (List.ne_nil_of_mem hc)
      have hset := foldl_mapSet_set hn (fun _ => none) c.name (Or.inr ⟨c, hc, rfl⟩)
      have hread := hmap c.name (hf c hc).nul
      rw [Option.some.inj hlast, ← hname,
        lastSlot_toMap (hf d hd).named (hf d hd).nul c.name (hf c hc).nul] at hread
      rw [← hname]
      apply Decidable.byContradiction
      intro hne
      rw [if_neg hne] at hread
      exact hset hread.symm
    exact ⟨hn, fun c hc d hd => (hone c hc).trans (hone d hd).symm⟩
  · rintro ⟨hn, h1⟩
    cases calls with
    | nil => exact ⟨emptyEnv, rfl, fun name _ => rfl⟩
    | cons c calls =>
      obtain ⟨w, hw⟩ := Option.ne_none_iff_exists'.mp (hn c List.mem_cons_self)
      have hc := hf c List.mem_cons_self
      obtain ⟨v', hrun, hmap⟩ := envRun_one_name
        (fun d hd => hf d (List.mem_cons_of_mem _ hd))
        (fun d hd => hn d (List.mem_cons_of_mem _ hd))
        (fun d hd => h1 d (List.mem_cons_of_mem _ hd) c List.mem_cons_self) w
      refine ⟨lastSlot c.name v', ?_, ?_⟩
      · simp only [envRun, List.foldlM_cons, hw, emptyEnv_eq,
          envSet_lastSlot [] [] c.name w hc.name (hc.val w hw)]
        exact hrun
      · intro name h0
        have hset : mapSet (fun _ => none) c = fun m => if m = c.name then some w else none := by
          funext m
          simp [mapSet, hw]
        rw [lastSlot_toMap hc.named hc.nul name h0, mapRun, List.foldl_cons, hset, hmap]

theorem fits_call {name v : String} (h : cstr name ≠ [] ∧ 0 ∉ cstr name ∧ (cstr name).length < 20)
    (hv : (cstr v).length < 20) : EnvCall.Fits ⟨cstr name, some (cstr v)⟩ :=
  ⟨h.1, h.2.1, h.2.2, fun _ hw => Option.some.inj hw ▸ hv⟩

theorem env_isMap_iff_netretry :
    IsMap [⟨cstr "netretry", some (cstr "no")⟩, ⟨cstr "netretry", some (cstr "yes")⟩] := by
  apply (env_isMap_iff _ _).mpr
  · simp
  · intro c hc
    simp only [List.mem_cons, List.not_mem_nil, or_false] at hc
    rcases hc with rfl | rfl
    · exact fits_call (by decide) (by decide)
    · exact fits_call (by decide) (by decide)

/-- Setting `ethact` takes `netretry` away. -/
theorem env_not_map :
    ¬ ∀ calls : List EnvCall, (∀ c ∈ calls, c.Fits) →
      (∃ names : List CStr, names.length ≤ 20 ∧ ∀ c ∈ calls, c.name ∈ names) → IsMap calls := by
  intro h
  obtain ⟨e, hrun, hmap⟩ :=
    h [⟨cstr "netretry", some (cstr "no")⟩, ⟨cstr "ethact", some (cstr "eth0")⟩]
    (by
      intro c hc
      simp only [List.mem_cons, List.not_mem_nil, or_false] at hc
      rcases hc with rfl | rfl
      · exact fits_call (by decide) (by decide)
      · exact fits_call (by decide) (by decide))
    ⟨[cstr "netretry", cstr "ethact"], by decide, by simp⟩
  have hread := hmap (cstr "netretry") (by decide)
  have hlast : e = lastSlot (cstr "ethact") (cstr "eth0") := by
    rw [emptyEnv_eq] at hrun
    simp only [envRun, List.foldlM_cons,
      envSet_lastSlot _ _ (cstr "netretry") (cstr "no") (by decide) (by decide)] at hrun
    have hrun' := (envSet_lastSlot (cstr "netretry") (cstr "no") (cstr "ethact") (cstr "eth0")
      (by decide) (by decide)).symm.trans (by simpa using hrun)
    exact (Option.some.inj hrun').symm
  rw [hlast, lastSlot_toMap (by decide) (by decide) _ (by decide)] at hread
  revert hread
  decide

end EmacDriver
