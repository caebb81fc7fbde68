import EmacDriver.Proofs.Alive
import EmacDriver.Proofs.Pending

namespace EmacDriver

structure Clean (s : Host) : Prop where
  timeout : s.hand.timeHandler = none
  udp : s.hand.udpPacketHandler = some .dummyHandler
  arp : s.hand.arpPacketHandler = some .dummyHandler
  wait : s.arp.netArpWaitPacketIp = 0
  device : ∀ p, s.eth.ethCurrent = some p → (s.eth.mem p).state ≠ .ethStateActive

/-- A host that can start: before the first `net_init` the handlers are null. -/
structure Idle (s : Host) : Prop where
  timeout : s.hand.timeHandler = none
  wait : s.arp.netArpWaitPacketIp = 0
  handlers : s.loop.firstCall = false →
    s.hand.udpPacketHandler = some .dummyHandler ∧ s.hand.arpPacketHandler = some .dummyHandler

/-- The retry that closes the round leaves the device it stops at active: one
that has come up, or one that was active before. -/
def LeavesActive (s : Host) : Prop :=
  retriesSpent s = false ∧ ∃ p q l b, s.eth.ethCurrent = some p ∧ RetryWalk s p q l b ∧
    retryWraps s p l = true ∧ (b = true ∨ q ≠ p ∧ (s.eth.mem q).state = .ethStateActive)

theorem Entered.idle {s s' : Host} (h : Entered s s') (hi : Idle s) :
    s'.hand.timeHandler = none ∧ s'.hand.udpPacketHandler = some .dummyHandler ∧
      s'.hand.arpPacketHandler = some .dummyHandler ∧ s'.arp.netArpWaitPacketIp = 0 := by
  rw [h.hand, h.arp]
  cases hf : s.loop.firstCall with
  | true => exact ⟨rfl, rfl, rfl, rfl⟩
  | false => exact ⟨hi.timeout, (hi.handlers hf).1, (hi.handlers hf).2, hi.wait⟩

theorem ethHalt_state (s : Host) (p : Nat) (hp : (ethHalt s).eth.ethCurrent = some p) :
    ((ethHalt s).eth.mem p).state ≠ .ethStateActive := by
  obtain ⟨mem, he, -⟩ := ethHalt_eq s
  have hp : s.eth.ethCurrent = some p := by rwa [he] at hp
  rw [ethHalt_some hp]
  simp [Host.setDevState]

/-- Halting the device cleans up what else is clean. -/
theorem clean_ethHalt {s : Host} (ht : s.hand.timeHandler = none)
    (hu : s.hand.udpPacketHandler = some .dummyHandler)
    (ha : s.hand.arpPacketHandler = some .dummyHandler) (hw : s.arp.netArpWaitPacketIp = 0) :
    Clean (ethHalt s) := by
  obtain ⟨mem, he, -⟩ := ethHalt_eq s
  refine ⟨?_, ?_, ?_, ?_, ethHalt_state s⟩
  all_goals
    rw [he]
    assumption

structure Handled (s : Host) (c : Run) : Prop where
  wait : Followed s c.host
  udp : c.host.hand.udpPacketHandler = some .dummyHandler
  arp : c.host.hand.arpPacketHandler = some .dummyHandler
  ready : (c.pc = .restart ∧ c.host.hand.timeHandler = none ∧ c.host.arp.netArpWaitPacketIp = 0) ∨
    (c.host.conf.netPingIp ≠ 0 ∧ c.host.conf.netIp ≠ 0)

/-- The handlers are those of the ping up to the return. -/
theorem Handled.step {s : Host} {c d : Run} (hr : Running s c) (h : Handled s c)
    (hd : netLoopStep c = some d) (hpc : d.pc ≠ .done) : Handled s d := by
  obtain ⟨p, hc⟩ := hr.device
  have hhand := readied_hand c.host
  unfold netLoopStep at hd
  split at hd
  · have hwait := h.wait.turned (turned_restart hd hc hr.act)
    cases netLoopRestart_cases hd hc with
    | unset => exact absurd rfl hpc
    | noAddr ping ip mac again =>
      rcases netStartAgain_cases (p := p) again (by simp [hc]) (by simp [hr.act]) with
        ⟨-, -, rfl⟩ | ⟨-, q, l, b, e, -, -, -, hret⟩
      · obtain ⟨mem, he, -⟩ := ethHalt_eq (readied c.host)
        rw [he] at hwait ⊢
        exact ⟨hwait, by simp [netSetState, h.udp], by simp [netSetState, h.arp],
          Or.inr (by simp [netSetState, ping, ip])⟩
      · refine ⟨hwait, ?_, by rw [hret.hand.1, hhand, h.arp],
          Or.inr (by simp [hret.conf, ping, ip])⟩
        rcases hret.hand.2 with hsame | hdummy
        · rw [hsame, hhand, h.udp]
        · exact hdummy
    | started ping ip mac =>
      have hp := pingStart_spec (prepared c.host)
      refine ⟨hwait, by rw [hp.hand]; simp [prepared, h.udp],
        by rw [hp.hand]; simp [prepared, h.arp], Or.inr ?_⟩
      rw [hp.conf]
      simp [prepared, ping, ip]
  · rename_i hpoll
    cases hd
    have hp := polled_pollRx c.host
    have ht := (checkTimeout_cases (pollRx c.host)).timedOut
    obtain ⟨es, hl, -⟩ := hp.later
    obtain ⟨es', hl'⟩ := ht.later
    have hwait := h.wait.turned (turned_poll c)
    rw [show netLoopPoll c = ⟨.select, c.ret, checkTimeout (pollRx c.host)⟩ from rfl] at hwait ⊢
    refine ⟨hwait, by rw [ht.udp, hp.hand]; exact h.udp, by rw [ht.arp, hp.hand]; exact h.arp,
      Or.inr ?_⟩
    rw [hl'.conf, hl.conf]
    rcases h.ready with ⟨hrestart, -⟩ | hready
    · rw [hpoll] at hrestart
      cases hrestart
    · exact hready
  · rename_i hselect
    have hready : c.host.conf.netPingIp ≠ 0 ∧ c.host.conf.netIp ≠ 0 := by
      rcases h.ready with ⟨hrestart, -⟩ | hready
      · rw [hselect] at hrestart
        cases hrestart
      · exact hready
    cases netLoopSelect_cases hd hc hr.act with
    | restarted => exact ⟨h.wait, h.udp, h.arp, Or.inr hready⟩
    | succeeded => exact absurd rfl hpc
    | continued => exact ⟨h.wait, h.udp, h.arp, Or.inr hready⟩
    | spent => exact absurd rfl hpc
    | retried state left current walk stop host wraps =>
      refine ⟨h.wait.turned (.same host.trace (congrArg Arp.netArpWaitPacketIp host.arp)), ?_,
        host.hand.1.trans h.arp, Or.inr ?_⟩
      · rcases host.hand.2 with hsame | hdummy
        · exact (congrArg Handlers.udpPacketHandler hsame).trans h.udp
        · exact hdummy
      · rw [← host.conf] at hready
        exact hready
    | closed => exact absurd rfl hpc
  · cases hd

theorem Handled.reaches {s : Host} {c0 c : Run} (hr : Running s c0) (h : Handled s c0)
    (hreach : Reaches c0 c) (hpc : c.pc ≠ .done) : Running s c ∧ Handled s c := by
  refine Reaches.invariant (P := fun c => Running s c ∧ Handled s c) ?_ ⟨hr, h⟩ hreach hpc
  intro c d hc hd hpc
  exact ⟨hc.1.step hd hpc, hc.2.step hc.1 hd hpc⟩

theorem netCleanupLoop_eq (s : Host) : netCleanupLoop s = { s with hand := { s.hand with
    udpPacketHandler := some .dummyHandler, arpPacketHandler := some .dummyHandler
    timeHandler := none } } := rfl

/-- The exits with the device halted: only the ARP wait can be left over. -/
theorem clean_halted {s : Host} (hdev : ∀ p, s.eth.ethCurrent = some p →
    (s.eth.mem p).state ≠ .ethStateActive) (hh : s.hand.timeHandler = none ∧
      s.hand.udpPacketHandler = some .dummyHandler ∧ s.hand.arpPacketHandler = some .dummyHandler) :
    Clean s ↔ s.arp.netArpWaitPacketIp = 0 := by
  obtain ⟨htime, hudp, harp⟩ := hh
  constructor
  · intro h
    exact h.wait
  · intro hw
    exact ⟨htime, hudp, harp, hw, hdev⟩

/-- After a retry the device stays as the walk left it. -/
theorem clean_retried {s s' : Host} {p q d : Nat} {l : List Nat} {b : Bool}
    (hret : Retried s s' p d b (retryWraps s p l)) (hw : RetryWalk s p q l b)
    (hd : l.getLast? = some d) :
    Clean (netCleanupLoop s') ↔ s.arp.netArpWaitPacketIp = 0 ∧
      ¬ (b = true ∨ q ≠ p ∧ (s.eth.mem q).state = .ethStateActive) := by
  have hdev : (∀ x, s'.eth.ethCurrent = some x → (s'.eth.mem x).state ≠ .ethStateActive) ↔
      ¬ (b = true ∨ q ≠ p ∧ (s.eth.mem q).state = .ethStateActive) := by
    rw [hret.current]
    simp only [Option.some.injEq, forall_eq', ne_eq, hret.state]
    cases b with
    | true => simp
    | false =>
      -- without a device that comes up the walk ends where it began
      have hdq : d = q := by simpa [hd] using hw.2.stop_old
      rw [hdq]
      by_cases hqp : q = p <;> simp [hqp]
  rw [← hdev, ← hret.arp]
  constructor
  · intro h
    exact ⟨h.wait, h.device⟩
  · rintro ⟨hw, hd⟩
    exact ⟨rfl, rfl, rfl, hw, hd⟩

/-- What decides at each return of the loop. -/
theorem Handled.clean_iff {s : Host} {c d : Run} (hr : Running s c) (h : Handled s c)
    (hd : netLoopStep c = some d) (hdone : d.pc = .done) :
    Clean d.host ↔ (c.pc = .select → ArpDone s c ∧
      ¬ (c.host.loop.netState = .netloopFail ∧ LeavesActive c.host)) := by
  rw [h.wait.arpDone_iff]
  obtain ⟨p, hc⟩ := hr.device
  unfold netLoopStep at hd
  split at hd
  · rename_i hpc
    cases netLoopRestart_cases hd hc with
    | unset addr =>
      rcases h.ready with ⟨-, htime, hwait⟩ | ⟨hping, hip⟩
      · have hclean : Clean (ethHalt (readied c.host)) :=
          clean_ethHalt (by simp [htime]) (by simp [h.udp]) (by simp [h.arp]) (by simp [hwait])
        simp [hclean, hpc]
      · rcases addr with haddr | haddr
        · exact absurd haddr hping
        · exact absurd haddr hip
    | noAddr => cases hdone
    | started => cases hdone
  · cases hd
    cases hdone
  · rename_i hpc
    simp only [hpc, true_implies]
    cases netLoopSelect_cases hd hc hr.act with
    | restarted => cases hdone
    | continued => cases hdone
    | retried => cases hdone
    | succeeded state =>
      obtain ⟨mem, he, -⟩ := ethHalt_eq (netCleanupLoop c.host)
      have hclean := clean_halted (ethHalt_state (netCleanupLoop c.host))
        (by rw [he]; exact ⟨rfl, rfl, rfl⟩)
      rw [hclean, he]
      simp [state, netCleanupLoop_eq]
    | spent state gone =>
      obtain ⟨mem, he, -⟩ := ethHalt_eq c.host
      have hclean : Clean (netCleanupLoop (netSetState (ethHalt c.host) .netloopFail)) ↔
          (ethHalt c.host).arp.netArpWaitPacketIp = 0 :=
        clean_halted (s := netCleanupLoop (netSetState (ethHalt c.host) .netloopFail))
          (ethHalt_state c.host) ⟨rfl, rfl, rfl⟩
      rw [hclean, he]
      simp [LeavesActive, gone]
    | @closed p q l b e s' state left current walk stop host wraps =>
      rw [clean_retried host walk stop]
      apply and_congr_right
      intro _
      apply not_congr
      constructor
      · intro hact
        exact ⟨state, left, p, q, l, b, current, walk, wraps, hact⟩
      · rintro ⟨-, -, p', q', l', b', hcur, hwalk, -, hact⟩
        rw [current] at hcur
        cases hcur
        obtain ⟨rfl, -, rfl⟩ := walk.unique hwalk
        exact hact
  · cases hd

/-- `net_loop` leaves the host clean unless it ends at the test of `net_state`
before the last ARP request has had its reply, or with a retry that closes the
round and leaves the device active. -/
theorem net_loop_clean_iff (s : Host) (c0 : Run) (hidle : Idle s) (h0 : netLoopEntry s = some c0) :
    (c0.pc = .done → Clean c0.host) ∧
    ∀ c d, Reaches c0 c → netLoopStep c = some d → d.pc = .done →
      (Clean d.host ↔ (c.pc = .select → ArpDone s c ∧
        ¬ (c.host.loop.netState = .netloopFail ∧ LeavesActive c.host))) := by
  rcases Running.entry h0 with ⟨hpc, -⟩ | ⟨hpc, hrun⟩
  · constructor
    · intro _
      cases netLoopEntry_cases h0 with
      | noDevice host =>
        obtain ⟨ht, hu, ha, hw⟩ := host.idle hidle
        exact clean_ethHalt ht hu ha hw
      | dead host =>
        obtain ⟨ht, hu, ha, hw⟩ := host.idle hidle
        exact clean_ethHalt ht hu ha hw
      | up => cases hpc
    · intro c d hr hd _
      rw [hr.eq_of_done hpc] at hd
      exact absurd hpc (not_done_of_step hd)
  · have hhand : Handled s c0 := by
      cases netLoopEntry_cases h0 with
      | noDevice => cases hpc
      | dead => cases hpc
      | up host =>
        obtain ⟨ht, hu, ha, hw⟩ := host.idle hidle
        refine ⟨⟨[], by rw [host.trace, List.append_nil], ?_⟩, hu, ha, Or.inl ⟨rfl, ht, hw⟩⟩
        simp [Pends, pendingAfter, hw]
    constructor
    · intro hdone
      rw [hpc] at hdone
      cases hdone
    · intro c d hr hd hdone
      obtain ⟨hrun', hhand'⟩ := hhand.reaches hrun hr (not_done_of_step hd)
      exact hhand'.clean_iff hrun' hd hdone

theorem silentHost_idle (netretry : String) : Idle (silentHost netretry) :=
  ⟨rfl, rfl, fun _ => ⟨rfl, rfl⟩⟩

/-- With both replies the run ends with nothing pending. -/
theorem net_loop_clean_iff_answered :
    ∃ c0 c d, netLoopEntry answeredHost = some c0 ∧ Reaches c0 c ∧ netLoopStep c = some d ∧
      d.pc = .done ∧ d.host.loop.netState = .netloopSuccess ∧ Clean d.host := by
  have hrun : ((netLoopEntry answeredHost).bind fun c0 => (netLoopSteps 2 c0).bind fun c =>
      (netLoopStep c).map fun d => (d.pc, d.host.loop.netState, c.host.loop.netState,
        pendingAfter false c.host.trace)) =
        some (.done, .netloopSuccess, .netloopSuccess, false) := by decide +kernel
  obtain ⟨c0, h0, hrun⟩ := Option.bind_eq_some_iff.mp hrun
  obtain ⟨c, hc, hrun⟩ := Option.bind_eq_some_iff.mp hrun
  obtain ⟨d, hd, hret⟩ := Option.map_eq_some_iff.mp hrun
  simp only [Prod.mk.injEq] at hret
  obtain ⟨hdone, hend, hstate, hpending⟩ := hret
  have hiff := (net_loop_clean_iff answeredHost c0 ⟨rfl, rfl, fun _ => ⟨rfl, rfl⟩⟩ h0).2 c d
    (reaches_of_steps hc) hd hdone
  refine ⟨c0, c, d, h0, reaches_of_steps hc, hd, hdone, hend, hiff.mpr fun _ => ?_⟩
  refine ⟨⟨c.host.trace, rfl, hpending⟩, ?_⟩
  rintro ⟨hfail, -⟩
  rw [hstate] at hfail
  cases hfail

/-- Nobody answers the ARP request, and the run ends with the wait still set. -/
theorem net_loop_not_clean :
    ¬ ∀ (s : Host) (c0 d : Run), Idle s → netLoopEntry s = some c0 → Reaches c0 d →
      d.pc = .done → Clean d.host := by
  intro h
  have hrun : ((netLoopEntry (silentHost "no")).bind fun c0 => (netLoopSteps 3 c0).map fun d =>
      (d.pc, d.host.arp.netArpWaitPacketIp == 0)) = some (.done, false) := by decide +kernel
  obtain ⟨c0, h0, hrun⟩ := Option.bind_eq_some_iff.mp hrun
  obtain ⟨d, hd, hret⟩ := Option.map_eq_some_iff.mp hrun
  obtain ⟨hdone, hwait⟩ := Prod.mk.inj hret
  have hclean := h _ c0 d (silentHost_idle "no") h0 (reaches_of_steps hd) hdone
  rw [hclean.wait] at hwait
  cases hwait

end EmacDriver
