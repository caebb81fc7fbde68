import EmacDriver.Lib.RingSearch
import EmacDriver.Proofs.EnvSpec

namespace EmacDriver
open RingSearch

/-- Where one move leads: with rotation off, nowhere else. -/
def ringNext (s : Host) (p : Nat) : Option Nat :=
  if rotateOff s.env then some p else (s.eth.mem p).next

def InitOk (s : Host) (k p : Nat) : Prop := 0 ≤ s.hw.init k p

/-- A move onto `first_failed` closes the round, unless rotation is off. -/
def closesRound (s : Host) (failed : Option Nat) (l : List Nat) : Bool :=
  !rotateOff s.env && l.any (fun q => failed == some q)

/-- A current device is always published in `ethact`, if there is rotation. -/
theorem ethCurrentChanged_spec {s s' : Host} {p : Nat} (h : ethCurrentChanged s = some s')
    (hc : s.eth.ethCurrent = some p) :
    ∃ e, s' = { s with env := e } ∧ EnvLater s.env e ∧ ActSet e := by
  unfold ethCurrentChanged at h
  dsimp only at h
  split at h
  · rename_i hr
    cases h
    exact ⟨_, rfl, .refl _, Or.inl hr⟩
  · rename_i hr
    have hr : rotateOff s.env = false := by simpa using hr
    rw [hc] at h
    have hset : ∀ v, (envSet s.env (cstr "ethact") (some v)).map (fun e => { s with env := e }) =
        some s' → ∃ e, s' = { s with env := e } ∧ EnvLater s.env e ∧ ActSet e := by
      intro v hv
      obtain ⟨e, he, rfl⟩ := Option.map_eq_some_iff.mp hv
      exact ⟨e, rfl, envLater_written he hr, Or.inr (envGet_envSet_self he (by decide))⟩
    split at h
    · rename_i act hp hact
      split at h
      · exact hset _ h
      · cases h
        exact ⟨_, rfl, .refl _, Or.inr ⟨act, hact⟩⟩
    · exact hset _ h
    · rename_i hp _
      cases hp
    · rename_i hp _
      cases hp

/-- Strings that fit a slot are always stored. -/
theorem envSet_total (e : Env) (name : CStr) {val : CStr} (hn : name.length < 20)
    (hv : val.length < 20) :
    ∃ e', envSet e name (some val) = some e' := by
  simp only [envSet, hn, hv, and_self, if_true]
  exact ⟨_, rfl⟩

/-- A name that fits a slot of the environment can be published. -/
theorem ethCurrentChanged_total {s : Host} {p : Nat} (hc : s.eth.ethCurrent = some p)
    (hn : (s.eth.mem p).name.length < 20) : ∃ s', ethCurrentChanged s = some s' := by
  have hset : ∃ s', (envSet s.env (cstr "ethact") (some (s.eth.mem p).name)).map
      (fun e => { s with env := e }) = some s' := by
    obtain ⟨e, he⟩ := envSet_total s.env (cstr "ethact") (by decide) hn
    exact ⟨_, by rw [he]; rfl⟩
  unfold ethCurrentChanged
  rw [hc]
  dsimp only
  split
  · exact ⟨s, rfl⟩
  · split
    · rename_i hp _
      cases hp
      split
      · exact hset
      · exact ⟨s, rfl⟩
    · rename_i hp _
      cases hp
      exact hset
    · rename_i hp _
      cases hp
    · rename_i hp _
      cases hp

/-- The move to no device clears `ethact` from a null value. -/
theorem ethCurrentChanged_none {s s' : Host} (h : ethCurrentChanged s = some s')
    (hc : s.eth.ethCurrent = none) : s' = s ∧ (ActSet s.env → rotateOff s.env = true) := by
  unfold ethCurrentChanged at h
  dsimp only at h
  split at h
  · rename_i hr
    cases h
    exact ⟨rfl, fun _ => hr⟩
  · rename_i hr
    rw [hc] at h
    split at h
    · rename_i hp _
      cases hp
    · rename_i hp _
      cases hp
    · simp [envSet] at h
    · rename_i _ hact
      cases h
      refine ⟨rfl, ?_⟩
      rintro (hr' | ⟨i, hi⟩)
      · exact hr'
      · rw [hact] at hi
        cases hi

/-- One move. `first_failed` is set by the first of a run. -/
theorem ethTryAnother_spec {s s' : Host} {p : Nat} {first : Bool}
    (h : ethTryAnother s first = some s') (hc : s.eth.ethCurrent = some p) (ha : ActSet s.env) :
    ∃ q e failed, ringNext s p = some q ∧ EnvLater s.env e ∧
      failed = (if rotateOff s.env then s.eth.firstFailed
        else if first then some p else s.eth.firstFailed) ∧
      s' = { s with
        env := e
        eth := { s.eth with firstFailed := failed, ethCurrent := some q }
        loop := { s.loop with
          netRestartWrap := s.loop.netRestartWrap || closesRound s failed [q] } } := by
  unfold ethTryAnother at h
  split at h
  · rename_i hr
    cases h
    refine ⟨p, s.env, s.eth.firstFailed, by simp [ringNext, hr], .refl _, by simp [hr], ?_⟩
    simp [closesRound, hr, ← hc]
  · rename_i hr
    have hr : rotateOff s.env = false := by simpa using hr
    simp only [hc, bind, Option.bind] at h
    generalize (if first = true then some p else s.eth.firstFailed) = failed at h
    split at h
    · cases h
    · rename_i s1 hs1
      cases hq : (s.eth.mem p).next with
      | none =>
        have := (ethCurrentChanged_none hs1 hq).2 ha
        rw [hr] at this
        cases this
      | some q =>
        obtain ⟨e, rfl, he, -⟩ := ethCurrentChanged_spec hs1 hq
        rw [hq] at h
        refine ⟨q, e, failed, by simp [ringNext, hr, hq], he, by simp [hr], ?_⟩
        by_cases hf : failed = some q
        · simp only [hf, if_true] at h
          cases h
          simp [closesRound, hr, hf]
        · have hb : (failed == some q) = false := by simpa using hf
          simp only [hf, if_false] at h
          cases h
          simp [closesRound, hb]

theorem ringNext_congr {s s' : Host} (hr : rotateOff s'.env = rotateOff s.env)
    (hn : ∀ p, (s'.eth.mem p).next = (s.eth.mem p).next) : ringNext s' = ringNext s := by
  funext p
  simp [ringNext, hr, hn]

/-- `eth_init` searches the ring, from the current device back to it. -/
theorem ethInitLoop_spec {old n : Nat} {s s' : Host} {r : Int} {p : Nat}
    (h : ethInitLoop old n s = some (r, s')) (hc : s.eth.ethCurrent = some p)
    (ha : ActSet s.env) :
    ∃ l b c e m, Search (ringNext s) (InitOk s) old s.eth.inits p l b ∧ l.getLast? = some c ∧
      EnvLater s.env e ∧ r = (if b then 0 else -110) ∧
      s' = { s with
        env := e
        eth := { s.eth with
          ethCurrent := some c
          inits := m
          mem := fun q => if b = true ∧ q = c then { s.eth.mem c with state := .ethStateActive }
            else s.eth.mem q }
        loop := { s.loop with
          netRestartWrap :=
            s.loop.netRestartWrap || closesRound s s.eth.firstFailed l.tail } } := by
  induction n generalizing s p with
  | zero => cases h
  | succ n ih =>
    unfold ethInitLoop at h
    rw [hc] at h
    dsimp only at h
    split at h
    · rename_i hok
      cases h
      exact ⟨[p], true, p, s.env, s.eth.inits + 1, .found hok, rfl, .refl _, rfl, by
        simp [Host.setDevState, closesRound, ← hc]⟩
    · rename_i hbad
      split at h
      · cases h
      · rename_i s1 hs1
        obtain ⟨q, e, failed, hq, he, hfailed, heq⟩ := ethTryAnother_spec hs1 hc ha
        have hfailed : failed = s.eth.firstFailed := by
          rw [hfailed]
          split <;> rfl
        subst hfailed
        have hq : ringNext s p = some q := hq
        have he : EnvLater s.env e := he
        have hcur : s1.eth.ethCurrent = some q := by rw [heq]
        rw [hcur] at h
        split at h
        · rename_i hother
          obtain ⟨l, b, c, e', m, hsearch, hlast, he', hr, hs'⟩ :=
            ih h hcur (by rw [heq]; exact he.act ha)
          have hring : ringNext s1 = ringNext s :=
            ringNext_congr (by rw [heq]; exact he.rotate) (by simp [heq])
          have hok : InitOk s1 = InitOk s := by rw [heq]; rfl
          have hinits : s1.eth.inits = s.eth.inits + 1 := by rw [heq]
          rw [hring, hok, hinits] at hsearch
          have he' : EnvLater s.env e' := he.trans (by rw [heq] at he'; exact he')
          refine ⟨p :: l, b, c, e', m, .skip hbad hq (fun hqo => hother (by rw [hqo])) hsearch,
            by rw [hsearch.stop_skip, hlast], he', hr, ?_⟩
          obtain ⟨t, rfl⟩ := hsearch.head
          rw [hs', heq]
          simp [closesRound, he.rotate, Bool.or_assoc, Bool.and_or_distrib_left]
        · rename_i hback
          have hback : q = old := by simpa using hback
          subst hback
          cases h
          exact ⟨[p, q], false, q, e, s.eth.inits + 1, .around hbad hq, rfl, he, rfl, by
            rw [heq]
            simp [closesRound]⟩

end EmacDriver
