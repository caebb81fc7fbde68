import Mathlib.Dynamics.PeriodicPts.Lemmas
import EmacDriver.Proofs.Alive
import EmacDriver.Proofs.Attempt
import EmacDriver.Proofs.RetrySetting

namespace EmacDriver
open RingSearch

/-- The policy: `k` retries, each on the next device of the ring of `n`, with a
wait after each full cycle. -/
def policyLog (next : Nat → Nat) (n k d0 : Nat) : List Event :=
  (List.range (k + 1)).flatMap fun j =>
    (if 0 < j ∧ n ∣ j then [.startAgain] else []) ++ [.pingStart (some (next^[j] d0))]

theorem ethTryAnother_total {s : Host} {p q : Nat} (first : Bool)
    (hr : rotateOff s.env = false) (hc : s.eth.ethCurrent = some p)
    (hq : (s.eth.mem p).next = some q) (hn : (s.eth.mem q).name.length < 20) :
    ∃ s', ethTryAnother s first = some s' := by
  simp only [ethTryAnother, hr, hc, hq, Bool.false_eq_true, if_false]
  obtain ⟨s1, hs1⟩ := ethCurrentChanged_total (s := { s with eth := { s.eth with
    firstFailed := if first = true then some p else s.eth.firstFailed
    ethCurrent := some q } }) rfl hn
  rw [hs1]
  simp only [Option.bind_eq_bind, Option.bind_some]
  split
  · exact ⟨_, rfl⟩
  · exact ⟨_, rfl⟩

theorem ethInit_total {s : Host} {p : Nat} (hc : s.eth.ethCurrent = some p)
    (hn : 0 < s.eth.count) (hok : 0 ≤ s.hw.init s.eth.inits p) : ∃ v, ethInit s = some v := by
  obtain ⟨n, hn⟩ := Nat.exists_eq_succ_of_ne_zero hn.ne'
  rw [ethInit, hc, hn]
  simp only [ethInitLoop, hc, ge_iff_le, hok, if_true]
  exact ⟨_, rfl⟩

section
variable {s : Host} {next : Nat → Nat} {d0 k j n : Nat}

def Stops (s : Host) (n k j : Nat) : Prop :=
  k ≤ j ∨ (s.loop.netRestartWrap = true ∧ j = 0) ∨ j + 1 = n

theorem Trying.next_eq {s' : Host} {m : Nat} (h : Trying s next d0 k j m s') (hw : Working s n next)
    (hon : OnRing s d0) (i : Nat) : (s'.eth.mem (next^[i] d0)).next = some (next^[i + 1] d0) := by
  rw [next_of_wiring h.wiring, hw.link _ (hon.iterate hw i), Function.iterate_succ_apply']

/-- The test counts the retries made so far. -/
theorem Trying.spent {s' : Host} {m : Nat} (h : Trying s next d0 k j m s') :
    retriesSpent s' = decide (k ≤ j) := by
  simp only [retriesSpent, h.setting.1, h.setting.2, h.tries, Bool.not_false, Bool.true_and,
    Nat.lt_succ_iff]

/-- A retry goes to the next device, which comes up. -/
theorem Trying.walk {s' : Host} {m : Nat} (h : Trying s next d0 k j m s') (hw : Working s n next)
    (hon : OnRing s d0) : RetryWalk s' (next^[j] d0) (next^[j + 1] d0) [next^[j + 1] d0] true := by
  refine ⟨by simp [ringNext, h.rotate, h.next_eq hw hon j], .found ?_⟩
  rw [InitOk, h.hw]
  exact hw.comesUp _ _ (hon.iterate hw _)

theorem Trying.failed_eq {s' : Host} {m : Nat} (h : Trying s next d0 k j m s') :
    retryFailed s' (next^[j] d0) = some d0 := by
  simp only [retryFailed, h.rotate, h.restarted, Bool.false_eq_true, if_false]
  by_cases hj : j = 0
  · simp [hj]
  · simp [h.failed (Nat.pos_of_ne_zero hj), Nat.pos_of_ne_zero hj]

/-- It closes a round when it is back where the first attempt failed. -/
theorem Trying.wraps {s' : Host} {m : Nat} (h : Trying s next d0 k j m s') (hw : Working s n next)
    (hon : OnRing s d0) (hj : j < n) :
    retryWraps s' (next^[j] d0) [next^[j + 1] d0] = true ↔
      (s.loop.netRestartWrap = true ∧ j = 0) ∨ j + 1 = n := by
  have hback : d0 = next^[j + 1] d0 ↔ j + 1 = n := by
    rw [eq_comm, ← hw.round d0 hon]
    constructor
    · intro hper
      have hle : Function.minimalPeriod next d0 ≤ j + 1 :=
        Function.IsPeriodicPt.minimalPeriod_le (Nat.succ_pos j) hper
      have hlt := hw.round d0 hon
      omega
    · intro heq
      rw [heq]
      exact Function.iterate_minimalPeriod
  rw [← hback]
  simp [retryWraps, closesRound, h.wrap, h.rotate, h.failed_eq]

/-- A retry has a defined result. -/
theorem Trying.again {s' : Host} {m : Nat} (h : Trying s next d0 k j m s') (hw : Working s n next)
    (hon : OnRing s d0) : ∃ v, netStartAgain s' = some v := by
  unfold netStartAgain
  split
  · exact ⟨_, rfl⟩
  · have hname : (s'.eth.mem (next^[j + 1] d0)).name.length < 20 := by
      have hsame := congrArg (fun w => (w (next^[j + 1] d0)).1.length) h.wiring
      exact hsame.trans_lt (Nat.lt_trans (hw.name _ (hon.iterate hw _)) (by decide))
    obtain ⟨mem, he, hwire⟩ := ethHalt_eq { s' with
      loop := { s'.loop with netTryCount := s'.loop.netTryCount + 1 } }
    generalize hs1 : ethHalt { s' with
      loop := { s'.loop with netTryCount := s'.loop.netTryCount + 1 } } = s1 at he hwire
    have hrot : rotateOff s1.env = false := by rw [he]; exact h.rotate
    have hcur : s1.eth.ethCurrent = some (next^[j] d0) := by rw [he]; exact h.current
    have hact : ActSet s1.env := by rw [he]; exact h.act
    have hsame : s1.wiring = s'.wiring := hwire
    have hlink : (s1.eth.mem (next^[j] d0)).next = some (next^[j + 1] d0) :=
      (next_of_wiring hsame _).trans (h.next_eq hw hon j)
    have hn1 : (s1.eth.mem (next^[j + 1] d0)).name.length < 20 := by
      have hsame := congrArg (fun w => (w (next^[j + 1] d0)).1.length) hwire
      exact hsame.trans_lt hname
    obtain ⟨s2, hs2⟩ := ethTryAnother_total (!s'.loop.netRestarted) hrot hcur hlink hn1
    obtain ⟨q, e, failed, hq, -, -, heq⟩ := ethTryAnother_spec hs2 hcur hact
    have hqn : q = next^[j + 1] d0 := by
      simpa [ringNext, hrot, hlink] using hq.symm
    obtain ⟨⟨r, s3⟩, hs3⟩ := ethInit_total (s := s2) (p := next^[j + 1] d0) (by rw [heq, hqn])
      (by
        rw [heq, he]
        change 0 < s'.eth.count
        rw [h.count]
        exact Nat.lt_of_lt_of_le hw.size hw.fits)
      (by
        rw [heq, he]
        change 0 ≤ s'.hw.init _ _
        rw [h.hw]
        exact hw.comesUp _ _ (hon.iterate hw _))
    refine ⟨(r, netRetryState s3), ?_⟩
    simp only [netTryNext, hs1, Option.bind_eq_bind]
    rw [hs2]
    simp [hs3]

/-- The failed attempt is the last one, or the next begins on the next device. -/
theorem Trying.select {c : Run} (h : Trying s next d0 k j (j + 1) c.host) (hpc : c.pc = .select)
    (hfail : c.host.loop.netState = .netloopFail) (hw : Working s n next) (hon : OnRing s d0)
    (hj : j < n) :
    ∃ d, netLoopStep c = some d ∧
      (Stops s n k j → d.pc = .done ∧ Logged s next d0 (j + 1) d.host) ∧
      (¬ Stops s n k j → d.pc = .restart ∧ Trying s next d0 k (j + 1) (j + 1) d.host) := by
  obtain ⟨d, hd⟩ : ∃ d, netLoopSelect c = some d := by
    obtain ⟨⟨r, s1⟩, hv⟩ := h.again hw hon
    simp only [netLoopSelect, netLoopFail, hfail, if_true, hv, Option.bind_eq_bind,
      Option.bind_some]
    split <;> exact ⟨_, rfl⟩
  refine ⟨d, by rw [netLoopStep, hpc]; exact hd, ?_⟩
  have hwalk := h.walk hw hon
  have hwraps := h.wraps hw hon hj
  cases netLoopSelect_cases hd h.current h.act with
  | restarted state =>
    rw [hfail] at state
    cases state
  | succeeded state =>
    rw [hfail] at state
    cases state
  | continued state =>
    rw [hfail] at state
    cases state
  | spent state gone =>
    rw [h.spent, decide_eq_true_eq] at gone
    constructor
    · intro _
      exact ⟨rfl, (h.halted .netloopFail).log⟩
    · intro hgo
      exact absurd (Or.inl gone) hgo
  | retried state left current walk stop host wraps =>
    rw [h.current] at current
    cases current
    obtain ⟨rfl, rfl, rfl⟩ := walk.unique hwalk
    cases stop
    rw [h.spent, decide_eq_false_iff_not] at left
    rw [wraps, Bool.false_eq_true, false_iff] at hwraps
    refine ⟨fun hstop => absurd hstop (not_or.mpr ⟨left, hwraps⟩), ?_⟩
    intro _
    refine ⟨rfl, ?_⟩
    have hkept := host.env.retry (retryKept_of_actSet h.rotate h.act)
    exact {
      hw := host.hw.trans h.hw
      conf := host.conf.trans h.conf
      wiring := host.wiring.trans h.wiring
      count := host.count.trans h.count
      rotate := host.env.rotate.trans h.rotate
      act := host.env.act h.act
      setting := by rw [hkept.2]; exact h.setting
      current := host.current
      failed := fun _ => host.failed.trans h.failed_eq
      tries := by rw [host.loop]; simp [h.tries]
      restarted := by simp
      wrap := by rw [host.loop]; simp
      log := h.log.quiet (host.trace.trans (List.append_nil _).symm) rfl }
  | closed state left current walk stop host wraps =>
    rw [h.current] at current
    cases current
    obtain ⟨rfl, rfl, rfl⟩ := walk.unique hwalk
    constructor
    · intro _
      exact ⟨rfl, h.log.quiet (host.trace.trans (List.append_nil _).symm) rfl⟩
    · intro hgo
      exact absurd (Or.inr (hwraps.mp wraps)) hgo

/-- From attempt to attempt up to the first at which the retries stop. -/
theorem Trying.reaches {c : Run} {i m : Nat} (hstop : Stops s n k m) (hm : m < n)
    (hgo : ∀ i < m, ¬ Stops s n k i) (hw : Working s n next) (hon : OnRing s d0) (hpre : Prereq s)
    (hi : j + i = m) (h : Trying s next d0 k j j c.host) (hpc : c.pc = .restart)
    (hfails : ∀ c' d, Reaches c c' → c'.pc = .restart → netLoopStep c' = some d →
      AttemptFails d) :
    ∃ d, Reaches c d ∧ d.pc = .done ∧ Logged s next d0 (m + 1) d.host := by
  induction i generalizing c j with
  | zero =>
    obtain ⟨c1, h1, hp1, ht1, hno⟩ := h.restart hpc hw hon hpre
    obtain ⟨c2, h2, hp2, hf2, ht2⟩ := (hfails c c1 .refl hpc h1).reaches hp1 ht1 hno
    obtain ⟨d, hd, hdone, -⟩ := ht2.select hp2 hf2 hw hon (by omega)
    obtain rfl : j = m := by omega
    exact ⟨d, .head h1 (h2.tail hd), hdone hstop⟩
  | succ i ih =>
    obtain ⟨c1, h1, hp1, ht1, hno⟩ := h.restart hpc hw hon hpre
    obtain ⟨c2, h2, hp2, hf2, ht2⟩ := (hfails c c1 .refl hpc h1).reaches hp1 ht1 hno
    obtain ⟨c3, h3, -, hnext⟩ := ht2.select hp2 hf2 hw hon (by omega)
    obtain ⟨hp3, ht3⟩ := hnext (hgo j (by omega))
    have hreach : Reaches c c3 := .head h1 (h2.tail h3)
    obtain ⟨d, hd, hrest⟩ := ih (by omega) ht3 hp3
      fun c' e hr hp he => hfails c' e (hreach.trans hr) hp he
    exact ⟨d, hreach.trans hd, hrest⟩

/-- At the label `restart` for the first time. The setting counts only if the
publishing of `ethact` has left it in the environment. -/
theorem Trying.entry {c : Run} {i : Nat} (h0 : netLoopEntry s = some c) (hpc : c.pc = .restart)
    (hw : Working s n next) (hr : rotateOff s.env = false)
    (hi : envGet s.env (cstr "netretry") = some i) (hk : Allows (s.env.vals i) k) :
    ∃ d0 k', c.host.eth.ethCurrent = some d0 ∧ OnRing s d0 ∧
      (RetryKept s.env ∧ k' = k ∨ ¬ RetryKept s.env ∧ k' = 0) ∧ Trying s next d0 k' 0 0 c.host := by
  cases netLoopEntry_cases h0 with
  | noDevice => cases hpc
  | dead => cases hpc
  | @up s' p l e host on search stop current act wrap =>
    obtain ⟨rfl, -⟩ := search.unique (.found (hw.comesUp _ _ on))
    cases stop
    have hrot : rotateOff s'.env = false := host.env.rotate.trans hr
    have hset : ∃ k', (RetryKept s.env ∧ k' = k ∨ ¬ RetryKept s.env ∧ k' = 0) ∧
        (retrySetting s'.env).1 = false ∧ (retrySetting s'.env).2.toNat = k' := by
      by_cases hkept : RetryKept s.env
      · refine ⟨k, Or.inl ⟨hkept, rfl⟩, ?_⟩
        rw [(host.env.retry hkept).2]
        exact retrySetting_allows hi hk
      · refine ⟨0, Or.inr ⟨hkept, rfl⟩, ?_⟩
        rcases host.env.lost hkept with hsame | ⟨-, hlost⟩
        · rw [hsame] at act
          exact absurd (retryKept_of_actSet hr act) hkept
        · rw [hlost]
          exact ⟨rfl, rfl⟩
    obtain ⟨k', hk', hset⟩ := hset
    refine ⟨p, k', current, on, hk', ?_⟩
    exact {
      hw := host.hw
      conf := host.conf
      wiring := host.wiring
      count := host.count
      rotate := hrot
      act := act
      setting := hset
      current := current
      failed := fun h => absurd h (Nat.lt_irrefl 0)
      tries := by rw [host.loop]
      restarted := by rw [host.loop]; rfl
      wrap := by rw [wrap]; simp [closesRound]
      log := ⟨[], by rw [host.trace, List.append_nil], rfl⟩ }

def Event.isPingStart : Event → Bool
  | .pingStart _ => true
  | _ => false

theorem pingStarts_count (next : Nat → Nat) (d0 m : Nat) :
    (pingStarts next d0 m).countP Event.isPingStart = m := by
  rw [pingStarts, List.countP_map]
  exact (List.countP_eq_length.mpr fun _ _ => rfl).trans List.length_range

/-- One attempt more than retries. -/
theorem policyLog_count (next : Nat → Nat) (n k d0 : Nat) :
    (policyLog next n k d0).countP Event.isPingStart = k + 1 := by
  have hone : ∀ j, ((if 0 < j ∧ n ∣ j then [Event.startAgain] else []) ++
      [Event.pingStart (some (next^[j] d0))]).countP Event.isPingStart = 1 := by
    intro j
    split <;> rfl
  rw [policyLog, List.countP_flatMap]
  simp [Function.comp_def, hone]

/-- Within one cycle the policy only starts attempts. -/
theorem pingStarts_eq_policyLog (hk : k < n) :
    pingStarts next d0 (k + 1) = policyLog next n k d0 := by
  rw [pingStarts, policyLog, List.map_eq_flatMap, List.flatMap_def, List.flatMap_def]
  refine congrArg List.flatten (List.map_congr_left fun j hj => ?_)
  have hlt : j < n := by
    have := List.mem_range.mp hj
    omega
  rw [if_neg fun h => absurd (Nat.le_of_dvd h.1 h.2) (by omega)]
  rfl

/-- The retries end within a round of the `n` devices. -/
theorem exists_first_stop (s : Host) (k : Nat) (hn : 0 < n) :
    ∃ m < n, Stops s n k m ∧ ∀ i < m, ¬ Stops s n k i := by
  classical
  have hlast : Stops s n k (n - 1) := Or.inr (Or.inr (by omega))
  have hfind := Nat.find_min' ⟨_, hlast⟩ hlast
  exact ⟨Nat.find ⟨_, hlast⟩, by omega, Nat.find_spec ⟨_, hlast⟩, fun i => Nat.find_min ⟨_, hlast⟩⟩

/-- With every attempt failing, all `k` retries are made as the policy says
exactly if there are none to make, or if the setting outlives the publishing of
`ethact`, no wrap is left over from an earlier run, and they fit in one round:
the retry that closes a round ends the loop instead of waiting. -/
theorem net_loop_retries_iff (s : Host) (n k i : Nat) (next : Nat → Nat) (c0 : Run)
    (hw : Working s n next) (hr : rotateOff s.env = false) (hpre : Prereq s)
    (hi : envGet s.env (cstr "netretry") = some i) (hk : Allows (s.env.vals i) k)
    (h0 : netLoopEntry s = some c0) (hpc : c0.pc = .restart)
    (hfails : ∀ c d, Reaches c0 c → c.pc = .restart → netLoopStep c = some d → AttemptFails d) :
    ∃ d0 d es, c0.host.eth.ethCurrent = some d0 ∧ Reaches c0 d ∧ d.pc = .done ∧
      d.host.trace = s.trace ++ es ∧
      (es.filter Event.isAttempt = policyLog next n k d0 ↔
        k = 0 ∨ RetryKept s.env ∧ s.loop.netRestartWrap = false ∧ k < n) := by
  obtain ⟨d0, k', hcur, hon, hk', htry⟩ := Trying.entry h0 hpc hw hr hi hk
  obtain ⟨m, hm, hstop, hgo⟩ := exists_first_stop s k' hw.size
  obtain ⟨d, hd, hdone, es, htrace, hlog⟩ :=
    htry.reaches hstop hm hgo hw hon hpre (Nat.zero_add m) hpc hfails
  refine ⟨d0, d, es, hcur, hd, hdone, htrace, ?_⟩
  have hcount : es.filter Event.isAttempt = policyLog next n k d0 ↔ m = k := by
    rw [hlog]
    constructor
    · intro heq
      have hlen := congrArg (List.countP Event.isPingStart) heq
      rw [pingStarts_count, policyLog_count] at hlen
      omega
    · rintro rfl
      exact pingStarts_eq_policyLog hm
  rw [hcount]
  constructor
  · rintro rfl
    by_cases hzero : m = 0
    · exact Or.inl hzero
    · -- the first retry was made, so nothing stood in its way
      have hfirst := hgo 0 (by omega)
      simp only [Stops, not_or, and_true] at hfirst
      refine Or.inr ⟨?_, by simpa using hfirst.2.1, hm⟩
      rcases hk' with ⟨hkept, -⟩ | ⟨-, rfl⟩
      · exact hkept
      · exact absurd (Nat.le_refl 0) hfirst.1
  · rintro (rfl | ⟨hkept, hwrap, hkn⟩)
    · have hstop0 : Stops s n k' 0 := Or.inl (by omega)
      by_contra hm0
      exact hgo 0 (by omega) hstop0
    · have hkk : k' = k := by
        rcases hk' with ⟨-, rfl⟩ | ⟨hlost, -⟩
        · rfl
        · exact absurd hkept hlost
      simp only [Stops, hwrap, hkk] at hstop hgo
      have hle : m ≤ k := by
        by_contra hlt
        exact hgo k (by omega) (Or.inl (Nat.le_refl k))
      rcases hstop with hge | ⟨hfalse, -⟩ | hlast
      · omega
      · cases hfalse
      · omega

end

theorem silentHost_working (netretry : String) : Working (silentHost netretry) 1 fun _ => 0 where
  size := Nat.one_pos
  fits := Nat.le_refl 1
  link := fun _ _ => rfl
  round := fun p hp => by
    have hzero : p = 0 := by
      cases hp with
      | first head =>
        cases head
        rfl
      | next _ link =>
        cases link
        rfl
    rw [hzero]
    exact Function.minimalPeriod_eq_one_iff_isFixedPt.mpr rfl
  comesUp := fun _ _ _ => Int.le_refl 0
  name := fun _ _ => (by decide : (cstr "eth0").length < 16)

theorem silentHost_prereq (netretry : String) : Prereq (silentHost netretry) where
  ping := (by decide +kernel : plainConf.netPingIp ≠ 0)
  ip := (by decide +kernel : plainConf.netIp ≠ 0)
  mac := fun _ _ => (by decide +kernel : (Vector.replicate 6 2 : Mac) ≠ netNullEthaddr)

def failsHere (c : Run) : Bool :=
  decide (c.pc ≠ .restart) ||
    (netLoopStep c).all fun d => decide ((netLoopPoll d).host.loop.netState = .netloopFail)

def failsFor : Nat → Run → Bool
  | 0, c => decide (c.pc = .done)
  | n + 1, c => failsHere c && (netLoopStep c).any (failsFor n)

theorem fails_of_failsFor {n : Nat} {c0 : Run} (h : failsFor n c0 = true) (c d : Run)
    (hr : Reaches c0 c) (hpc : c.pc = .restart) (hd : netLoopStep c = some d) :
    AttemptFails d := by
  induction n generalizing c0 with
  | zero =>
    have hdone : c0.pc = .done := of_decide_eq_true h
    rw [hr.eq_of_done hdone, hdone] at hpc
    cases hpc
  | succ n ih =>
    rw [failsFor, Bool.and_eq_true] at h
    obtain ⟨hhere, hrest⟩ := h
    rcases Relation.ReflTransGen.cases_head hr with rfl | ⟨e, he, hr⟩
    · rw [failsHere, hpc, hd] at hhere
      exact .failed (by simpa using hhere)
    · have hstep : netLoopStep c0 = some e := he
      rw [hstep] at hrest
      exact ih hrest hr

def pairedHost (netretry : String) : Host :=
  { silentHost netretry with
    eth := { idleHost.eth with
      mem := fun p => { idleHost.eth.mem p with
        name := if p = 1 then cstr "eth1" else cstr "eth0"
        next := some (if p = 0 then 1 else 0)
        index := p }
      count := 2 } }

theorem pairedHost_ring {netretry : String} {p : Nat} (hp : OnRing (pairedHost netretry) p) :
    p = 0 ∨ p = 1 := by
  cases hp with
  | first head =>
    cases head
    exact Or.inl rfl
  | next _ link =>
    have hnext := Option.some.inj link
    revert hnext
    split
    · exact fun h => Or.inr h.symm
    · exact fun h => Or.inl h.symm

theorem pairedHost_working (netretry : String) :
    Working (pairedHost netretry) 2 fun p => if p = 0 then 1 else 0 where
  size := by decide
  fits := Nat.le_refl 2
  link := fun _ _ => rfl
  round := fun p hp => by
    have hprime : Fact (Nat.Prime 2) := ⟨Nat.prime_two⟩
    rcases pairedHost_ring hp with rfl | rfl
    · exact Function.minimalPeriod_eq_prime rfl (by decide)
    · exact Function.minimalPeriod_eq_prime rfl (by decide)
  comesUp := fun _ _ _ => Int.le_refl 0
  name := fun p _ => by
    show (if p = 1 then cstr "eth1" else cstr "eth0").length < 16
    split <;> decide

theorem pairedHost_prereq (netretry : String) : Prereq (pairedHost netretry) where
  ping := (by decide +kernel : plainConf.netPingIp ≠ 0)
  ip := (by decide +kernel : plainConf.netIp ≠ 0)
  mac := fun _ _ => (by decide +kernel : (Vector.replicate 6 2 : Mac) ≠ netNullEthaddr)

/-- One retry, on the other device. -/
theorem net_loop_retries_iff_two :
    ∃ c0 d es, netLoopEntry (pairedHost "once") = some c0 ∧ Reaches c0 d ∧ d.pc = .done ∧
      d.host.trace = (pairedHost "once").trace ++ es ∧
      es.filter Event.isAttempt = [.pingStart (some 0), .pingStart (some 1)] := by
  have hrun : ((netLoopEntry (pairedHost "once")).map fun c0 =>
      (c0.pc, c0.host.eth.ethCurrent, failsFor 6 c0)) = some (.restart, some 0, true) := by
    decide +kernel
  obtain ⟨c0, h0, hrun⟩ := Option.map_eq_some_iff.mp hrun
  simp only [Prod.mk.injEq] at hrun
  obtain ⟨hpc, hfirst, hfails⟩ := hrun
  obtain ⟨d0, d, es, hcur, hd, hdone, htrace, hiff⟩ := net_loop_retries_iff (pairedHost "once")
    2 1 1 (fun p => if p = 0 then 1 else 0) c0 (pairedHost_working "once") (by decide +kernel)
    (pairedHost_prereq "once") (by decide +kernel) .once h0 hpc (fails_of_failsFor hfails)
  rw [hfirst] at hcur
  cases hcur
  have hkept : RetryKept (pairedHost "once").env := by
    intro hfull
    revert hfull
    decide +kernel
  exact ⟨c0, d, es, h0, hd, hdone, htrace, hiff.mpr (Or.inr ⟨hkept, rfl, by decide⟩)⟩

/-- Two ends of one run are the same. -/
theorem Reaches.done_unique {c d d' : Run} (h : Reaches c d) (h' : Reaches c d') (hd : d.pc = .done)
    (hd' : d'.pc = .done) : d = d' := by
  have huniq : Relator.RightUnique fun c d => netLoopStep c = some d := by
    intro a b c hb hc
    exact Option.some.inj (hb.symm.trans hc)
  rcases Relation.ReflTransGen.total_of_right_unique huniq h h' with hdd | hdd
  · exact (Reaches.eq_of_done hdd hd).symm
  · exact Reaches.eq_of_done hdd hd'

/-- With one device and `netretry=once` the second attempt is never made. -/
theorem net_loop_retry_missing :
    ¬ ∀ (s : Host) (n k i : Nat) (next : Nat → Nat) (c0 : Run), Working s n next →
      rotateOff s.env = false → Prereq s → envGet s.env (cstr "netretry") = some i →
      Allows (s.env.vals i) k → netLoopEntry s = some c0 → c0.pc = .restart →
      (∀ c d, Reaches c0 c → c.pc = .restart → netLoopStep c = some d → AttemptFails d) →
      ∃ d0 d es, c0.host.eth.ethCurrent = some d0 ∧ Reaches c0 d ∧ d.pc = .done ∧
        d.host.trace = s.trace ++ es ∧ es.filter Event.isAttempt = policyLog next n k d0 := by
  intro h
  have hfails : ((netLoopEntry (silentHost "once")).map fun c0 => (c0.pc, failsFor 3 c0)) =
      some (.restart, true) := by decide +kernel
  obtain ⟨c0, h0, hfails⟩ := Option.map_eq_some_iff.mp hfails
  obtain ⟨hpc, hfails⟩ := Prod.mk.inj hfails
  obtain ⟨d0, d, es, -, hd, hdone, htrace, hlog⟩ := h (silentHost "once") 1 1 1 (fun _ => 0) c0
    (silentHost_working "once") (by decide +kernel) (silentHost_prereq "once") (by decide +kernel)
    .once h0 hpc (fails_of_failsFor hfails)
  have hrun : ((netLoopEntry (silentHost "once")).bind fun c0 => (netLoopSteps 3 c0).map fun d =>
      (d.pc, d.host.trace.countP Event.isPingStart)) = some (.done, 1) := by decide +kernel
  rw [h0] at hrun
  obtain ⟨d', hd', hret⟩ := Option.map_eq_some_iff.mp hrun
  obtain ⟨hdone', hone⟩ := Prod.mk.inj hret
  obtain rfl := hd.done_unique (reaches_of_steps hd') hdone hdone'
  have htwo := congrArg (List.countP Event.isPingStart) hlog
  rw [policyLog_count, List.countP_filter] at htwo
  have hnone : (silentHost "once").trace = [] := rfl
  rw [htrace, hnone, List.nil_append] at hone
  have hsame : es.countP (fun e => Event.isPingStart e && Event.isAttempt e) =
      es.countP Event.isPingStart := by
    congr 1
    funext e
    cases e <;> rfl
  rw [hsame, hone] at htwo
  cases htwo

end EmacDriver
