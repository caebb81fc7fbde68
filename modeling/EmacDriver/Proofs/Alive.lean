import EmacDriver.Proofs.ParkedPacket
import EmacDriver.Proofs.LoopSteps
import EmacDriver.Proofs.ReceiveBounds

namespace EmacDriver

/-- The retry after a failed attempt finds a device that comes up, and the round
of devices is closed on the way to it. -/
def ComesRound (s : Host) : Prop :=
  retriesSpent s = false ∧ ∃ p q l, s.eth.ethCurrent = some p ∧ RetryWalk s p q l true ∧
    retryWraps s p l = true

def Answered (s : Host) (d : Run) : Prop :=
  d.host.loop.netState = .netloopSuccess ∧ ∃ es, d.host.trace = s.trace ++ es ∧ Ponged s.conf es

structure Running (s : Host) (c : Run) : Prop where
  device : ∃ p, c.host.eth.ethCurrent = some p
  act : ActSet c.host.env
  conf : c.host.conf = s.conf
  events : ∃ es, c.host.trace = s.trace ++ es ∧
    (c.pc = .restart ∨ c.host.loop.netState ≠ .netloopSuccess ∨ Ponged s.conf es)

/-- The run begins, or has already ended with an error. -/
theorem Running.entry {s : Host} {c : Run} (h : netLoopEntry s = some c) :
    c.pc = .done ∧ c.ret < 0 ∨ c.pc = .restart ∧ Running s c := by
  cases netLoopEntry_cases h with
  | noDevice => exact Or.inl ⟨rfl, Int.negSucc_lt_zero 18⟩
  | dead => exact Or.inl ⟨rfl, Int.negSucc_lt_zero 109⟩
  | up host on search stop current act wrap =>
    exact Or.inr ⟨rfl, ⟨_, current⟩, act, host.conf, [], by simp [host.trace], Or.inl rfl⟩

theorem Running.restart {s : Host} {c d : Run} (h : Running s c) (hd : netLoopRestart c = some d) :
    d = ⟨.done, -19, ethHalt (readied c.host)⟩ ∨ d.pc = .poll ∧ Running s d := by
  obtain ⟨p, hc⟩ := h.device
  obtain ⟨es, htrace, -⟩ := h.events
  have hready : (readied c.host).loop.netState = .netloopContinue := by
    unfold readied netInitLoop
    split <;> rfl
  cases netLoopRestart_cases hd hc with
  | unset => exact Or.inl rfl
  | noAddr _ _ mac again =>
    right
    rcases netStartAgain_cases (p := p) again (by simp [hc]) (by simp [h.act]) with
      ⟨-, -, rfl⟩ | ⟨-, q, l, b, e, -, -, -, hret⟩
    · obtain ⟨mem, heq, -⟩ := ethHalt_eq (readied c.host)
      rw [heq]
      refine ⟨rfl, ⟨p, by simp [netSetState, hc]⟩, by simp [netSetState, h.act],
        by simp [netSetState, h.conf], es, by simp [netSetState, htrace], ?_⟩
      exact Or.inr (Or.inl (by simp [netSetState]))
    · refine ⟨rfl, ⟨e, hret.current⟩, hret.env.act (by simp [h.act]),
        by simp [hret.conf, h.conf], es, by simp [hret.trace, htrace], Or.inr (Or.inl ?_)⟩
      rw [hret.loop]
      dsimp only
      split
      · split
        · rw [hready]
          decide
        · decide
      · decide
  | started ping ip mac =>
    right
    have hp := pingStart_spec (prepared c.host)
    obtain ⟨frame, hp_trace⟩ := hp.trace
    refine ⟨rfl, ⟨p, by rw [hp.eth]; simp [prepared, hc]⟩,
      by rw [hp.env]; simp [prepared, h.act], by rw [hp.conf]; simp [prepared, h.conf],
      es ++ [.pingStart (prepared c.host).eth.ethCurrent, .ethSend .arpTxPacket frame], ?_,
      Or.inr (Or.inl ?_)⟩
    · rw [hp_trace, ← List.append_assoc, ← htrace, ← readied_trace c.host]
      rfl
    · rw [hp.loop]
      simp [prepared, hready]

/-- Polling keeps to what a run keeps. -/
theorem Running.poll {s : Host} {c : Run} (h : Running s c) (hpc : c.pc = .poll) :
    Running s (netLoopPoll c) := by
  obtain ⟨p, hc⟩ := h.device
  obtain ⟨es, htrace, hevents⟩ := h.events
  have hpoll := polled_pollRx c.host
  have htime := (checkTimeout_cases (pollRx c.host)).timedOut
  obtain ⟨es1, hl1, -⟩ := hpoll.later
  obtain ⟨es2, hl2⟩ := htime.later
  have hl := hl1.trans hl2
  have hcur : (pollRx c.host).eth.ethCurrent = c.host.eth.ethCurrent := by rw [hpoll.eth]
  have hnext : netLoopPoll c = ⟨.select, c.ret, checkTimeout (pollRx c.host)⟩ := rfl
  rw [hnext]
  refine ⟨⟨p, by rw [htime.current, hcur, hc]⟩, by rw [htime.env, hpoll.env]; exact h.act,
    by rw [hl.conf, h.conf], es ++ (es1 ++ es2), by rw [hl.trace, htrace, List.append_assoc], ?_⟩
  right
  by_cases hs : (checkTimeout (pollRx c.host)).loop.netState = .netloopSuccess
  · right
    rcases hl.success hs with hbefore | hponged
    · rcases hevents with hr | hn | hp
      · rw [hpc] at hr
        cases hr
      · exact absurd hbefore hn
      · exact .append (Or.inl hp)
    · rw [h.conf] at hponged
      exact .append (Or.inr hponged)
  · exact Or.inl hs

/-- No move gives up what a run keeps. -/
theorem Running.step {s : Host} {c d : Run} (h : Running s c) (hd : netLoopStep c = some d)
    (hpc : d.pc ≠ .done) : Running s d := by
  unfold netLoopStep at hd
  split at hd
  · rcases h.restart hd with rfl | ⟨-, hr⟩
    · exact absurd rfl hpc
    · exact hr
  · rename_i hp
    cases hd
    exact h.poll hp
  · obtain ⟨p, hc⟩ := h.device
    obtain ⟨es, htrace, hevents⟩ := h.events
    cases netLoopSelect_cases hd hc h.act with
    | restarted => exact ⟨⟨p, hc⟩, h.act, h.conf, es, htrace, Or.inl rfl⟩
    | succeeded => exact absurd rfl hpc
    | continued state =>
      exact ⟨⟨p, hc⟩, h.act, h.conf, es, htrace, Or.inr (Or.inl (by rw [state]; decide))⟩
    | spent => exact absurd rfl hpc
    | retried state left current walk stop host wraps =>
      exact ⟨⟨_, host.current⟩, host.env.act h.act, host.conf.trans h.conf, es,
        host.trace.trans htrace, Or.inl rfl⟩
    | closed => exact absurd rfl hpc
  · cases hd

/-- Only two moves end a run with something other than an error: the one that
found the reply, and the retry that closes the round of devices. -/
theorem Running.answered_iff {s : Host} {c d : Run} (h : Running s c)
    (hd : netLoopStep c = some d) (hdone : d.pc = .done) :
    (0 ≤ d.ret → Answered s d) ↔
      ¬ (c.pc = .select ∧ c.host.loop.netState = .netloopFail ∧ ComesRound c.host) := by
  obtain ⟨p, hc⟩ := h.device
  obtain ⟨es, htrace, hevents⟩ := h.events
  unfold netLoopStep at hd
  split at hd
  · rename_i hpc
    rcases h.restart hd with rfl | ⟨hpoll, -⟩
    · simp [hpc]
    · rw [hpoll] at hdone
      cases hdone
  · cases hd
    cases hdone
  · rename_i hpc
    cases netLoopSelect_cases hd hc h.act with
    | restarted => cases hdone
    | continued => cases hdone
    | retried => cases hdone
    | succeeded state =>
      obtain ⟨mem, he, -⟩ := ethHalt_eq (netCleanupLoop c.host)
      have hponged : Ponged s.conf es := by
        rcases hevents with hr | hn | hp
        · rw [hpc] at hr
          cases hr
        · exact absurd state hn
        · exact hp
      constructor
      · intro _ hfail
        rw [state] at hfail
        cases hfail.2.1
      · intro _ _
        exact ⟨by rw [he]; exact state, es, by rw [he]; exact htrace, hponged⟩
    | spent state gone =>
      simp [ComesRound, gone]
    | @closed p q l b e s' state left current walk stop host wraps =>
      have hfailed : (netCleanupLoop s').loop.netState = .netloopFail := by
        change s'.loop.netState = .netloopFail
        rw [host.loop, wraps]
        simp [state]
      cases b with
      | true =>
        constructor
        · intro halive
          have hanswered := (halive (by simp)).1
          rw [hfailed] at hanswered
          cases hanswered
        · intro hround
          exact absurd ⟨hpc, state, left, p, q, l, current, walk, wraps⟩ hround
      | false =>
        constructor
        · rintro _ ⟨-, -, -, p', q', l', hc', hwalk, -⟩
          rw [current] at hc'
          cases hc'
          cases (walk.unique hwalk).2.2
        · intro _ hret
          simp at hret
  · cases hd

/-- A run that returns a non-negative value has had its reply, and returns on
that account, unless its last move is a retry that comes round: with `net_state`
left at failure, `net_loop` then returns the 0 of `eth_init`. -/
theorem net_loop_alive_iff (s : Host) (c0 : Run) (h0 : netLoopEntry s = some c0) :
    (c0.pc = .done → c0.ret < 0) ∧
    ∀ c d, Reaches c0 c → netLoopStep c = some d → d.pc = .done →
      ((0 ≤ d.ret → Answered s d) ↔
        ¬ (c.pc = .select ∧ c.host.loop.netState = .netloopFail ∧ ComesRound c.host)) := by
  rcases Running.entry h0 with ⟨hpc, hret⟩ | ⟨hpc, hrun⟩
  · refine ⟨fun _ => hret, ?_⟩
    intro c d hr hd _
    rw [hr.eq_of_done hpc] at hd
    exact absurd hpc (not_done_of_step hd)
  · constructor
    · intro hdone
      rw [hpc] at hdone
      cases hdone
    · intro c d hr hd hdone
      have hc := hr.invariant (fun _ _ h => h.step) hrun (not_done_of_step hd)
      exact hc.answered_iff hd hdone

def netLoopSteps : Nat → Run → Option Run
  | 0, c => some c
  | n + 1, c => (netLoopStep c).bind (netLoopSteps n)

theorem reaches_of_steps {n : Nat} {c d : Run} (h : netLoopSteps n c = some d) : Reaches c d := by
  induction n generalizing c with
  | zero =>
    cases h
    exact .refl
  | succ n ih =>
    obtain ⟨e, he, hd⟩ := Option.bind_eq_some_iff.mp h
    exact .head he (ih hd)

def envOf (vars : List (String × String)) : Env where
  keys i := cstr (vars.getD i ("", "")).1
  vals i := cstr (vars.getD i ("", "")).2

/-- `idleHost` on a silent network, with a clock that moves 20 s at each look. -/
def silentHost (netretry : String) : Host :=
  { idleHost with
    hw := { idleHost.hw with readTimer := fun n => UInt64.ofNat (480000000 * n) }
    env := envOf [("ethact", "eth0"), ("netretry", netretry)] }

def answeredHost : Host :=
  { silentHost "no" with
    hw := { idleHost.hw with recv := fun _ _ =>
      [arpReplyFrame, ⟨ipFrame 28 1 [0x31, 0x77] [0], 60⟩] } }

/-- The MAC of the host asked, then its echo reply. -/
theorem net_loop_alive_iff_answered :
    ∃ c0 c d, netLoopEntry answeredHost = some c0 ∧ Reaches c0 c ∧ netLoopStep c = some d ∧
      d.pc = .done ∧ 0 ≤ d.ret ∧ Answered answeredHost d := by
  have hrun : ((netLoopEntry answeredHost).bind fun c0 => (netLoopSteps 2 c0).bind fun c =>
      (netLoopStep c).map fun d => (d.pc, decide (0 ≤ d.ret), c.host.loop.netState)) =
        some (.done, true, .netloopSuccess) := by decide +kernel
  obtain ⟨c0, h0, hrun⟩ := Option.bind_eq_some_iff.mp hrun
  obtain ⟨c, hc, hrun⟩ := Option.bind_eq_some_iff.mp hrun
  obtain ⟨d, hd, hret⟩ := Option.map_eq_some_iff.mp hrun
  simp only [Prod.mk.injEq, decide_eq_true_eq] at hret
  obtain ⟨hdone, hret, hstate⟩ := hret
  have hiff := (net_loop_alive_iff answeredHost c0 h0).2 c d (reaches_of_steps hc) hd hdone
  refine ⟨c0, c, d, h0, reaches_of_steps hc, hd, hdone, hret, hiff.mpr ?_ hret⟩
  rintro ⟨-, hfail, -⟩
  rw [hstate] at hfail
  cases hfail

def Event.isReply : Event → Bool
  | .echoReply _ _ => true
  | _ => false

theorem Ponged.any_isReply {conf : NetConf} {es : List Event} (h : Ponged conf es) :
    es.any Event.isReply = true := by
  obtain ⟨f, ip, l, src, -, -, -, hm⟩ := h
  exact List.any_eq_true.mpr ⟨_, hm, rfl⟩

/-- One device and `netretry=yes`: the attempt fails, the retry comes round to
the same device, and 0 is returned although nobody ever answered. -/
theorem net_loop_alive_unanswered :
    ¬ ∀ (s : Host) (c0 d : Run), netLoopEntry s = some c0 → Reaches c0 d → d.pc = .done →
      0 ≤ d.ret → ∃ es, d.host.trace = s.trace ++ es ∧ Ponged s.conf es := by
  intro h
  have hrun : ((netLoopEntry (silentHost "yes")).bind fun c0 => (netLoopSteps 3 c0).map fun d =>
      (d.pc, d.ret, d.host.trace.any Event.isReply)) = some (.done, 0, false) := by decide +kernel
  obtain ⟨c0, h0, hrun⟩ := Option.bind_eq_some_iff.mp hrun
  obtain ⟨d, hd, hret⟩ := Option.map_eq_some_iff.mp hrun
  simp only [Prod.mk.injEq] at hret
  obtain ⟨hdone, hret, hsilent⟩ := hret
  obtain ⟨es, htrace, hponged⟩ := h _ c0 d h0 (reaches_of_steps hd) hdone (by omega)
  have hnone : (silentHost "yes").trace = [] := rfl
  rw [htrace, hnone, List.nil_append, hponged.any_isReply] at hsilent
  cases hsilent

end EmacDriver
