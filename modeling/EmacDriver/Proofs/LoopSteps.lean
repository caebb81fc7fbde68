import Mathlib.Logic.Relation
import EmacDriver.Proofs.Poll
import EmacDriver.Proofs.Retry

namespace EmacDriver

abbrev Reaches (c d : Run) : Prop := Relation.ReflTransGen (fun c d => netLoopStep c = some d) c d

/-- A finished run goes nowhere. -/
theorem not_done_of_step {c d : Run} (h : netLoopStep c = some d) : c.pc ≠ .done := by
  intro hdone
  rw [netLoopStep, hdone] at h
  cases h

theorem Reaches.eq_of_done {c d : Run} (h : Reaches c d) (hc : c.pc = .done) : d = c := by
  rcases Relation.ReflTransGen.cases_head h with rfl | ⟨e, he, -⟩
  · rfl
  · exact absurd hc (not_done_of_step he)

/-- What every move but the last keeps holds up to the return. -/
theorem Reaches.invariant {P : Run → Prop}
    (step : ∀ c d, P c → netLoopStep c = some d → d.pc ≠ .done → P d) {c0 c : Run} (h0 : P c0)
    (hr : Reaches c0 c) (hpc : c.pc ≠ .done) : P c := by
  induction hr with
  | refl => exact h0
  | tail _ hd ih => exact step _ _ (ih (not_done_of_step hd)) hd hpc

def readied (s : Host) : Host := netInitLoop (netSetState s .netloopContinue)

def prepared (s : Host) : Host :=
  { readied s with loop := { (readied s).loop with netDevExists := true, netBootFileSize := 0 } }

inductive Restarted (c : Run) : Run → Prop where
  | unset (addr : c.host.conf.netPingIp = 0 ∨ c.host.conf.netIp = 0) :
      Restarted c ⟨.done, -19, ethHalt (readied c.host)⟩
  | noAddr {r : Int} {s : Host} (ping : c.host.conf.netPingIp ≠ 0) (ip : c.host.conf.netIp ≠ 0)
      (mac : (readied c.host).netEthaddr = netNullEthaddr)
      (again : netStartAgain (readied c.host) = some (r, s)) : Restarted c ⟨.poll, c.ret, s⟩
  | started (ping : c.host.conf.netPingIp ≠ 0) (ip : c.host.conf.netIp ≠ 0)
      (mac : (readied c.host).netEthaddr ≠ netNullEthaddr) :
      Restarted c ⟨.poll, c.ret, pingStart (prepared c.host)⟩

inductive Selected (c : Run) : Run → Prop where
  | restarted (state : c.host.loop.netState = .netloopRestart) :
      Selected c ⟨.restart, c.ret,
        { c.host with loop := { c.host.loop with netRestarted := true } }⟩
  | succeeded (state : c.host.loop.netState = .netloopSuccess) :
      Selected c ⟨.done, toInt (ethHalt (netCleanupLoop c.host)).loop.netBootFileSize.toNat,
        ethHalt (netCleanupLoop c.host)⟩
  | continued (state : c.host.loop.netState = .netloopContinue) : Selected c ⟨.poll, c.ret, c.host⟩
  | spent (state : c.host.loop.netState = .netloopFail) (gone : retriesSpent c.host = true) :
      Selected c ⟨.done, -110, netCleanupLoop (netSetState (ethHalt c.host) .netloopFail)⟩
  | retried {p q : Nat} {l : List Nat} {b : Bool} {d : Nat} {s : Host}
      (state : c.host.loop.netState = .netloopFail) (left : retriesSpent c.host = false)
      (current : c.host.eth.ethCurrent = some p) (walk : RetryWalk c.host p q l b)
      (stop : l.getLast? = some d) (host : Retried c.host s p d b (retryWraps c.host p l))
      (wraps : retryWraps c.host p l = false) :
      Selected c ⟨.restart, if b then 0 else -110,
        { s with loop := { s.loop with netRestarted := true } }⟩
  | closed {p q : Nat} {l : List Nat} {b : Bool} {d : Nat} {s : Host}
      (state : c.host.loop.netState = .netloopFail) (left : retriesSpent c.host = false)
      (current : c.host.eth.ethCurrent = some p) (walk : RetryWalk c.host p q l b)
      (stop : l.getLast? = some d) (host : Retried c.host s p d b (retryWraps c.host p l))
      (wraps : retryWraps c.host p l = true) :
      Selected c ⟨.done, if b then 0 else -110, netCleanupLoop s⟩

@[simp] theorem readied_conf (s : Host) : (readied s).conf = s.conf := by
  unfold readied netInitLoop
  split <;> rfl

@[simp] theorem readied_env (s : Host) : (readied s).env = s.env := by
  unfold readied netInitLoop
  split <;> rfl

@[simp] theorem readied_eth (s : Host) : (readied s).eth = s.eth := by
  unfold readied netInitLoop
  split <;> rfl

@[simp] theorem readied_hand (s : Host) : (readied s).hand = s.hand := by
  unfold readied netInitLoop
  split <;> rfl

@[simp] theorem readied_arp (s : Host) : (readied s).arp = s.arp := by
  unfold readied netInitLoop
  split <;> rfl

@[simp] theorem readied_trace (s : Host) : (readied s).trace = s.trace := by
  unfold readied netInitLoop
  split <;> rfl

/-- All that can happen from the label `restart` on. -/
theorem netLoopRestart_cases {c d : Run} {p : Nat} (h : netLoopRestart c = some d)
    (hc : c.host.eth.ethCurrent = some p) : Restarted c d := by
  simp only [netLoopRestart, Option.bind_eq_bind, Option.bind_eq_some_iff] at h
  obtain ⟨⟨prereq, s⟩, hp, hd⟩ := h
  change netCheckPrereq (readied c.host) = some (prereq, s) at hp
  unfold netCheckPrereq at hp
  split at hp
  · rename_i hping
    cases hp
    cases hd
    exact .unset (Or.inl (by simpa using hping))
  · rename_i hping
    split at hp
    · rename_i hip
      cases hp
      cases hd
      exact .unset (Or.inr (by simpa using hip))
    · rename_i hip
      split at hp
      · rename_i hmac
        split at hp
        · rename_i hindex
          simp [ethGetDevIndex, hc] at hindex
        · obtain ⟨⟨r, s1⟩, hagain, hv⟩ := Option.map_eq_some_iff.mp hp
          cases hv
          cases hd
          exact .noAddr (by simpa using hping) (by simpa using hip) hmac hagain
      · rename_i hmac
        cases hp
        cases hd
        exact .started (by simpa using hping) (by simpa using hip) hmac

/-- All that the test of `net_state` leads to. -/
theorem netLoopSelect_cases {c d : Run} {p : Nat} (h : netLoopSelect c = some d)
    (hc : c.host.eth.ethCurrent = some p) (ha : ActSet c.host.env) : Selected c d := by
  simp only [netLoopSelect, Option.bind_eq_bind, Option.bind_eq_some_iff] at h
  obtain ⟨⟨r, s⟩, hagain, hd⟩ := h
  by_cases hfail : c.host.loop.netState = .netloopFail
  · rw [netLoopFail, if_pos hfail] at hagain
    rcases netStartAgain_cases hagain hc ha with ⟨hspent, rfl, rfl⟩ |
      ⟨hleft, q, l, b, e, hw, hlast, hr, hret⟩
    · cases hd
      exact .spent hfail hspent
    · have hstate : s.loop.netState =
          if retryWraps c.host p l then .netloopFail else .netloopRestart := by
        rw [hret.loop]
        split <;> simp [hfail]
      cases hwraps : retryWraps c.host p l with
      | false =>
        have hstate : s.loop.netState = .netloopRestart := by simpa [hwraps] using hstate
        split at hd
        · cases hd
          rw [hr]
          exact .retried hfail hleft hc hw hlast hret hwraps
        all_goals
          rename_i hs
          rw [hstate] at hs
          cases hs
      | true =>
        have hstate : s.loop.netState = .netloopFail := by simpa [hwraps] using hstate
        split at hd
        · rename_i hs
          rw [hstate] at hs
          cases hs
        · rename_i hs
          rw [hstate] at hs
          cases hs
        · cases hd
          rw [hr]
          exact .closed hfail hleft hc hw hlast hret hwraps
        · rename_i hs
          rw [hstate] at hs
          cases hs
  · rw [netLoopFail, if_neg hfail] at hagain
    cases hagain
    dsimp only at hd
    split at hd
    · rename_i hs
      cases hd
      exact .restarted hs
    · rename_i hs
      cases hd
      exact .succeeded hs
    · rename_i hs
      exact absurd hs hfail
    · rename_i hs
      cases hd
      exact .continued hs

inductive OnRing (s : Host) : Nat → Prop where
  | first {p : Nat} (head : s.eth.ethDevices = some p) : OnRing s p
  | next {p q : Nat} (on : OnRing s p) (link : (s.eth.mem p).next = some q) : OnRing s q

theorem OnRing.congr {s s' : Host} {p : Nat} (h : OnRing s' p)
    (hd : s'.eth.ethDevices = s.eth.ethDevices) (hw : s'.wiring = s.wiring) : OnRing s p := by
  induction h with
  | first head => exact .first (hd ▸ head)
  | next _ link ih => exact .next ih ((next_of_wiring hw _).symm.trans link)

theorem findDev_onRing {s : Host} {name : CStr} {n : Nat} {p q : Nat}
    (h : findDev s name n (some p) = some (some q)) (hp : OnRing s p) : OnRing s q := by
  induction n generalizing p with
  | zero => cases h
  | succ n ih =>
    unfold findDev at h
    split at h
    · cases h
      exact hp
    · split at h
      · cases hn : (s.eth.mem p).next with
        | none => simp [hn, findDev] at h
        | some r =>
          rw [hn] at h
          exact ih h (.next hp hn)
      · cases h

theorem chosenDev_onRing {s : Host} {p : Nat} (h : chosenDev s = some (some p)) : OnRing s p := by
  have hname : ∀ name, ethGetDevByName s name = some (some p) → OnRing s p := by
    intro name hn
    unfold ethGetDevByName at hn
    split at hn
    · cases hn
    · rename_i q hq
      exact findDev_onRing hn (.first hq)
  unfold chosenDev at h
  split at h
  · split at h
    · exact hname _ h
    · cases h
  · exact hname _ h

/-- Choosing the current device touches nothing else, and publishes it. -/
theorem ethSetCurrent_spec {s s' : Host} (h : ethSetCurrent s = some s') :
    ∃ e act id dev, s' = { s with
        env := e
        eth := { s.eth with act := act, envChangedId := id, ethCurrent := dev } } ∧
      EnvLater s.env e ∧ ∀ p, dev = some p → ActSet e ∧ OnRing s p := by
  simp only [ethSetCurrent, Option.bind_eq_bind, Option.bind_eq_some_iff] at h
  obtain ⟨dev, hdev, h⟩ := h
  have hact : ∃ act id, refreshAct s =
      { s with eth := { s.eth with act := act, envChangedId := id } } := by
    unfold refreshAct
    dsimp only
    split
    · exact ⟨_, _, rfl⟩
    · exact ⟨_, _, rfl⟩
  obtain ⟨act, id, hact⟩ := hact
  rw [hact] at h hdev
  cases dev with
  | none =>
    rw [(ethCurrentChanged_none h rfl).1]
    exact ⟨s.env, act, id, none, rfl, .refl _, fun p hp => by cases hp⟩
  | some p =>
    obtain ⟨e, rfl, he, ha⟩ := ethCurrentChanged_spec h rfl
    refine ⟨e, act, id, some p, rfl, he, ?_⟩
    intro q hq
    cases hq
    exact ⟨ha, (chosenDev_onRing hdev).congr rfl rfl⟩

theorem netInit_eq (s : Host) :
    ∃ mac, netInit s = { s with
      netEthaddr := mac
      arp := if s.loop.firstCall then (arpInit s).arp else s.arp
      hand := if s.loop.firstCall then (netClearHandlers s).hand else s.hand
      loop := { s.loop with firstCall := false } } := by
  unfold netInit netInitLoop
  cases hf : s.loop.firstCall with
  | false =>
    simp only [Bool.false_eq_true, if_false]
    split
    · rename_i p _
      exact ⟨(s.eth.mem p).enetaddr, by simp [← hf]⟩
    · exact ⟨s.netEthaddr, by simp [← hf]⟩
  | true =>
    simp only [if_true]
    split
    · exact ⟨_, rfl⟩
    · exact ⟨s.netEthaddr, rfl⟩

structure Entered (s s' : Host) : Prop where
  hw : s'.hw = s.hw
  conf : s'.conf = s.conf
  trace : s'.trace = s.trace
  arp : s'.arp = if s.loop.firstCall then (arpInit s).arp else s.arp
  hand : s'.hand = if s.loop.firstCall then (netClearHandlers s).hand else s.hand
  env : EnvLater s.env s'.env
  wiring : s'.wiring = s.wiring
  count : s'.eth.count = s.eth.count
  loop : s'.loop = { s.loop with
    netRestarted := false, netDevExists := false, netTryCount := 1, firstCall := false
    netRestartWrap := s'.loop.netRestartWrap }

inductive EntryTo (s : Host) : Run → Prop where
  | noDevice {s' : Host} (host : Entered s s') (current : s'.eth.ethCurrent = none) :
      EntryTo s ⟨.done, -19, ethHalt s'⟩
  | dead {s' : Host} (host : Entered s s') : EntryTo s ⟨.done, -110, ethHalt s'⟩
  | up {s' : Host} {p : Nat} {l : List Nat} {c : Nat} (host : Entered s s') (on : OnRing s p)
      (search : RingSearch.Search (ringNext s) (InitOk s) p s.eth.inits p l true)
      (stop : l.getLast? = some c) (current : s'.eth.ethCurrent = some c) (act : ActSet s'.env)
      (wrap : s'.loop.netRestartWrap =
        (s.loop.netRestartWrap || closesRound s s.eth.firstFailed l.tail)) :
      EntryTo s ⟨.restart, 0, s'⟩

/-- All that comes before the label `restart`. -/
theorem netLoopEntry_cases {s : Host} {c : Run} (h : netLoopEntry s = some c) : EntryTo s c := by
  simp only [netLoopEntry, Option.bind_eq_bind, Option.bind_eq_some_iff] at h
  obtain ⟨s3, h3, ⟨r, s4⟩, h4, h5⟩ := h
  generalize hs0 : ({ s with loop := _ } : Host) = s0 at h3
  obtain ⟨mac, hs1⟩ := netInit_eq s0
  obtain ⟨mem, hs2, hw2⟩ := ethHalt_eq (netInit s0)
  obtain ⟨e, act, id, dev, hs3, he, hdev⟩ := ethSetCurrent_spec h3
  have henv : (ethHalt (netInit s0)).env = s.env := by rw [hs2, hs1, ← hs0]
  have hent : Entered s s3 := {
    hw := by rw [hs3, hs2, hs1, ← hs0]
    conf := by rw [hs3, hs2, hs1, ← hs0]
    trace := by rw [hs3, hs2, hs1, ← hs0]
    arp := by rw [hs3, hs2, hs1, ← hs0]; rfl
    hand := by rw [hs3, hs2, hs1, ← hs0]; rfl
    env := by rw [hs3, ← henv]; exact he
    wiring := by
      rw [hs3]
      change (ethHalt (netInit s0)).wiring = s.wiring
      rw [hw2, hs1, ← hs0]
      rfl
    count := by rw [hs3, hs2, hs1, ← hs0]
    loop := by rw [hs3, hs2, hs1, ← hs0] }
  have hwrap : s3.loop.netRestartWrap = s.loop.netRestartWrap := by rw [hs3, hs2, hs1, ← hs0]
  have hfailed : s3.eth.firstFailed = s.eth.firstFailed := by rw [hs3, hs2, hs1, ← hs0]
  have hinits : s3.eth.inits = s.eth.inits := by rw [hs3, hs2, hs1, ← hs0]
  have hdevs : (ethHalt (netInit s0)).eth.ethDevices = s.eth.ethDevices := by rw [hs2, hs1, ← hs0]
  have hcur : s3.eth.ethCurrent = dev := by rw [hs3]
  have hring : ringNext s3 = ringNext s :=
    ringNext_congr hent.env.rotate (next_of_wiring hent.wiring)
  have hok : InitOk s3 = InitOk s := by
    unfold InitOk
    rw [hent.hw]
  unfold ethInit at h4
  cases dev with
  | none =>
    rw [hcur] at h4
    cases h4
    cases h5
    exact .noDevice hent hcur
  | some p =>
    rw [hcur] at h4
    obtain ⟨hact, hon⟩ := hdev p rfl
    have hact3 : ActSet s3.env := by rw [hs3]; exact hact
    obtain ⟨l, b, d, e4, m, hsearch, hstop, he4, hr, hs4⟩ := ethInitLoop_spec h4 hcur hact3
    rw [hring, hok, hinits] at hsearch
    have hent4 : Entered s s4 := {
      hw := by rw [hs4]; exact hent.hw
      conf := by rw [hs4]; exact hent.conf
      trace := by rw [hs4]; exact hent.trace
      arp := by rw [hs4]; exact hent.arp
      hand := by rw [hs4]; exact hent.hand
      env := by rw [hs4]; exact hent.env.trans he4
      wiring := by
        rw [← hent.wiring, hs4]
        funext q
        simp only [Host.wiring]
        split
        · rename_i hq
          rw [hq.2]
        · rfl
      count := by rw [hs4]; exact hent.count
      loop := by rw [hs4, hent.loop] }
    cases b with
    | false =>
      rw [hr] at h5
      cases h5
      exact .dead hent4
    | true =>
      rw [hr] at h5
      cases h5
      refine .up hent4 (hon.congr hdevs ?_) hsearch hstop (by rw [hs4])
        (by rw [hs4]; exact he4.act hact3) ?_
      · rw [hw2, hs1, ← hs0]
        rfl
      · rw [hs4, hwrap, hfailed]
        simp [closesRound, hent.env.rotate]

/-- `ping_start` logs itself, arms the ping timeout and sends the ARP request. -/
structure PingStarted (s s' : Host) : Prop where
  hw : s'.hw = s.hw
  conf : s'.conf = s.conf
  env : s'.env = s.env
  eth : s'.eth = s.eth
  loop : s'.loop = s.loop
  netEthaddr : s'.netEthaddr = s.netEthaddr
  hand : s'.hand = { s.hand with
    timeHandler := some .pingTimeoutHandler, timeStart := s'.hand.timeStart, timeDelta := 10000 }
  trace : ∃ frame, s'.trace = s.trace ++ [.pingStart s.eth.ethCurrent, .ethSend .arpTxPacket frame]

/-- All that `ping_start` does. -/
theorem pingStart_spec (s : Host) : PingStarted s (pingStart s) := by
  obtain ⟨b, ip, r, arp, he, -⟩ := pingSend_eq
    (netSetTimeoutHandler (s.log (.pingStart s.eth.ethCurrent)) 10000 (some .pingTimeoutHandler))
  rw [pingStart, he]
  exact ⟨rfl, rfl, rfl, rfl, rfl, rfl, rfl, Bytes.slice r 0 (arp + 28), List.append_assoc ..⟩

end EmacDriver
