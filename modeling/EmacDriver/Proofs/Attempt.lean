import Mathlib.Dynamics.PeriodicPts.Defs
import EmacDriver.Proofs.LoopSteps

namespace EmacDriver

structure Working (s : Host) (n : Nat) (next : Nat → Nat) : Prop where
  size : 0 < n
  fits : n ≤ s.eth.count
  link : ∀ p, OnRing s p → (s.eth.mem p).next = some (next p)
  round : ∀ p, OnRing s p → Function.minimalPeriod next p = n
  comesUp : ∀ k p, OnRing s p → 0 ≤ s.hw.init k p
  name : ∀ p, OnRing s p → (s.eth.mem p).name.length < 16

structure Prereq (s : Host) : Prop where
  ping : s.conf.netPingIp ≠ 0
  ip : s.conf.netIp ≠ 0
  mac : ∀ p, OnRing s p → (s.eth.mem p).enetaddr ≠ netNullEthaddr

inductive AttemptFails : Run → Prop where
  | failed {c : Run} (state : (netLoopPoll c).host.loop.netState = .netloopFail) : AttemptFails c
  | waits {c : Run} (state : (netLoopPoll c).host.loop.netState = .netloopContinue)
      (rest : AttemptFails { netLoopPoll c with pc := .poll }) : AttemptFails c

def pingStarts (next : Nat → Nat) (d0 m : Nat) : List Event :=
  (List.range m).map fun i => .pingStart (some (next^[i] d0))

def Logged (s : Host) (next : Nat → Nat) (d0 m : Nat) (s' : Host) : Prop :=
  ∃ es, s'.trace = s.trace ++ es ∧ es.filter Event.isAttempt = pingStarts next d0 m

/-- After `j` retries, `k` being allowed, with `m` attempts begun. -/
structure Trying (s : Host) (next : Nat → Nat) (d0 k j m : Nat) (s' : Host) : Prop where
  hw : s'.hw = s.hw
  conf : s'.conf = s.conf
  wiring : s'.wiring = s.wiring
  count : s'.eth.count = s.eth.count
  rotate : rotateOff s'.env = false
  act : ActSet s'.env
  setting : (retrySetting s'.env).1 = false ∧ (retrySetting s'.env).2.toNat = k
  current : s'.eth.ethCurrent = some (next^[j] d0)
  failed : 0 < j → s'.eth.firstFailed = some d0
  tries : s'.loop.netTryCount = j + 1
  restarted : s'.loop.netRestarted = decide (0 < j)
  wrap : s'.loop.netRestartWrap = (s.loop.netRestartWrap && decide (j = 0))
  log : Logged s next d0 m s'

section
variable {s s' s'' : Host} {next : Nat → Nat} {d0 k j m n : Nat}

theorem Logged.quiet (h : Logged s next d0 m s') {es : List Event} (ht : s''.trace = s'.trace ++ es)
    (hq : es.filter Event.isAttempt = []) : Logged s next d0 m s'' := by
  obtain ⟨es', ht', ha⟩ := h
  exact ⟨es' ++ es, by rw [ht, ht', List.append_assoc], by
    rw [List.filter_append, ha, hq, List.append_nil]⟩

theorem OnRing.iterate (hw : Working s n next) (h : OnRing s d0) (i : Nat) :
    OnRing s (next^[i] d0) := by
  induction i with
  | zero => exact h
  | succ i ih =>
    rw [Function.iterate_succ_apply']
    exact .next ih (hw.link _ ih)

/-- Polling begins no attempt. -/
theorem Trying.polled (h : Trying s next d0 k j m s') (hp : Polled s' s'') :
    Trying s next d0 k j m s'' := by
  obtain ⟨es, hl, hq⟩ := hp.later
  exact {
    hw := hl.hw.trans h.hw
    conf := hl.conf.trans h.conf
    wiring := by rw [← h.wiring]; unfold Host.wiring; rw [hp.eth]
    count := by rw [hp.eth]; exact h.count
    rotate := by rw [hp.env]; exact h.rotate
    act := by rw [hp.env]; exact h.act
    setting := by rw [hp.env]; exact h.setting
    current := by rw [hp.eth]; exact h.current
    failed := by rw [hp.eth]; exact h.failed
    tries := by rw [hp.loop]; exact h.tries
    restarted := by rw [hp.loop]; exact h.restarted
    wrap := by rw [hp.loop]; exact h.wrap
    log := h.log.quiet hl.trace hq }

/-- Halting the device and changing `net_state` is no progress. -/
theorem Trying.halted (h : Trying s next d0 k j m s') (state : NetLoopState) :
    Trying s next d0 k j m (netSetState (ethHalt s') state) := by
  obtain ⟨mem, he, hw⟩ := ethHalt_eq s'
  have hwiring : (ethHalt s').wiring = s.wiring := hw.trans h.wiring
  rw [he] at hwiring ⊢
  exact { h with wiring := hwiring }

/-- The registers of the timer do not matter. -/
theorem Trying.timer (h : Trying s next d0 k j m s') (reads : Nat) (hand : Handlers) :
    Trying s next d0 k j m { s' with timerReads := reads, hand := hand } :=
  { h with }

/-- A timeout but that of the retry begins none either. -/
theorem Trying.timeout (h : Trying s next d0 k j m s') (ht : Timeout s' s'')
    (hno : s'.hand.timeHandler ≠ some .startAgainTimeoutHandler) :
    Trying s next d0 k j m s'' ∧ s''.hand.timeHandler ≠ some .startAgainTimeoutHandler := by
  cases ht with
  | off => exact ⟨h, hno⟩
  | early => exact ⟨h.timer _ _, hno⟩
  | ping =>
    refine ⟨(h.timer _ _).halted _, ?_⟩
    obtain ⟨mem, he, -⟩ := ethHalt_eq { s' with
      timerReads := s'.timerReads + 1, hand := { s'.hand with timeHandler := none } }
    rw [pingTimeoutHandler, he]
    simp [netSetState]
  | startAgain set => exact absurd set hno

/-- An attempt that fails reaches the failure, on the same device. -/
theorem AttemptFails.reaches {c : Run} (hf : AttemptFails c) (hpc : c.pc = .poll)
    (h : Trying s next d0 k j m c.host)
    (hno : c.host.hand.timeHandler ≠ some .startAgainTimeoutHandler) :
    ∃ d, Reaches c d ∧ d.pc = .select ∧ d.host.loop.netState = .netloopFail ∧
      Trying s next d0 k j m d.host := by
  have hpoll : ∀ c : Run, Trying s next d0 k j m c.host →
      c.host.hand.timeHandler ≠ some .startAgainTimeoutHandler →
      Trying s next d0 k j m (netLoopPoll c).host ∧
        (netLoopPoll c).host.hand.timeHandler ≠ some .startAgainTimeoutHandler := by
    intro c h hno
    have hp := polled_pollRx c.host
    exact (h.polled hp).timeout (checkTimeout_cases _) (by rw [hp.hand]; exact hno)
  induction hf with
  | @failed c state =>
    have hstep : netLoopStep c = some (netLoopPoll c) := by rw [netLoopStep, hpc]
    exact ⟨netLoopPoll c, .single hstep, rfl, state, (hpoll c h hno).1⟩
  | @waits c state rest ih =>
    have hstep : netLoopStep c = some (netLoopPoll c) := by rw [netLoopStep, hpc]
    have hback : netLoopStep (netLoopPoll c) = some { netLoopPoll c with pc := .poll } := by
      change netLoopSelect (netLoopPoll c) = _
      simp [netLoopSelect, netLoopFail, state]
    obtain ⟨ht, hn⟩ := hpoll c h hno
    obtain ⟨d, hd, hrest⟩ := ih rfl ht hn
    exact ⟨d, .head hstep (.head hback hd), hrest⟩

theorem readied_some {p : Nat} (hc : s.eth.ethCurrent = some p) :
    readied s = { s with
      loop := { s.loop with netState := .netloopContinue }
      netEthaddr := (s.eth.mem p).enetaddr } := by
  simp [readied, netInitLoop, netSetState, hc]

/-- From the label `restart` the next attempt begins. -/
theorem Trying.restart {c : Run} (h : Trying s next d0 k j j c.host) (hpc : c.pc = .restart)
    (hw : Working s n next) (hon : OnRing s d0) (hpre : Prereq s) :
    ∃ d, netLoopStep c = some d ∧ d.pc = .poll ∧ Trying s next d0 k j (j + 1) d.host ∧
      d.host.hand.timeHandler ≠ some .startAgainTimeoutHandler := by
  have hready := readied_some h.current
  have hmac : (c.host.eth.mem (next^[j] d0)).enetaddr ≠ netNullEthaddr := by
    have hsame := congrArg (fun w => (w (next^[j] d0)).2.1) h.wiring
    exact (congrArg (· ≠ netNullEthaddr) hsame).mpr (hpre.mac _ (hon.iterate hw j))
  have hstep : netLoopStep c = some ⟨.poll, c.ret, pingStart (prepared c.host)⟩ := by
    have hcheck : netCheckPrereq (readied c.host) = some (0, readied c.host) := by
      have hping : (readied c.host).conf.netPingIp ≠ 0 := by
        rw [readied_conf, h.conf]
        exact hpre.ping
      have hip : (readied c.host).conf.netIp ≠ 0 := by
        rw [readied_conf, h.conf]
        exact hpre.ip
      have hnull : (readied c.host).netEthaddr ≠ netNullEthaddr := by
        rw [hready]
        exact hmac
      simp only [netCheckPrereq, hping, hip, hnull, if_false]
    rw [netLoopStep, hpc]
    change (netCheckPrereq (readied c.host)).bind _ = _
    rw [hcheck]
    rfl
  have hp := pingStart_spec (prepared c.host)
  obtain ⟨frame, htrace⟩ := hp.trace
  have hprep : prepared c.host = { c.host with
      loop := { c.host.loop with
        netState := .netloopContinue, netDevExists := true, netBootFileSize := 0 }
      netEthaddr := (c.host.eth.mem (next^[j] d0)).enetaddr } := by
    rw [prepared, hready]
  generalize prepared c.host = s1 at *
  refine ⟨_, hstep, rfl, ?_, by rw [hp.hand]; simp⟩
  exact {
    hw := by rw [hp.hw, hprep]; exact h.hw
    conf := by rw [hp.conf, hprep]; exact h.conf
    wiring := by
      rw [← h.wiring]
      unfold Host.wiring
      rw [hp.eth, hprep]
    count := by rw [hp.eth, hprep]; exact h.count
    rotate := by rw [hp.env, hprep]; exact h.rotate
    act := by rw [hp.env, hprep]; exact h.act
    setting := by rw [hp.env, hprep]; exact h.setting
    current := by rw [hp.eth, hprep]; exact h.current
    failed := by rw [hp.eth, hprep]; exact h.failed
    tries := by rw [hp.loop, hprep]; exact h.tries
    restarted := by rw [hp.loop, hprep]; exact h.restarted
    wrap := by rw [hp.loop, hprep]; exact h.wrap
    log := by
      obtain ⟨es, hes, ha⟩ := h.log
      refine ⟨es ++ [.pingStart (some (next^[j] d0)), .ethSend .arpTxPacket frame], ?_, ?_⟩
      · rw [htrace, hprep, hes, List.append_assoc, h.current]
      · rw [List.filter_append, ha, pingStarts, pingStarts, List.range_succ, List.map_append]
        rfl }

end

end EmacDriver
