import EmacDriver.Proofs.ArpWait
import EmacDriver.Proofs.Retry

namespace EmacDriver
open Bytes

def Ponged (conf : NetConf) (es : List Event) : Prop :=
  ∃ (f : Frame) (ip : Nat) (l : Int) (src : UInt32),
    rxCall conf f.inPacket f.len = .receiveIcmp ip l src ∧ f.inPacket (ip + 20) = 0 ∧
    load32 f.inPacket (ip + 12) = conf.netPingIp ∧ .echoReply f.inPacket ip ∈ es

def Event.isAttempt : Event → Bool
  | .pingStart _ | .startAgain => true
  | _ => false

/-- Events that follow one another on one configuration: `net_state` turns to
success only through a reply. -/
structure Later (s s' : Host) (es : List Event) : Prop where
  hw : s'.hw = s.hw
  conf : s'.conf = s.conf
  trace : s'.trace = s.trace ++ es
  success : s'.loop.netState = .netloopSuccess →
    s.loop.netState = .netloopSuccess ∨ Ponged s.conf es

theorem Ponged.append {conf : NetConf} {es es' : List Event}
    (h : Ponged conf es ∨ Ponged conf es') : Ponged conf (es ++ es') := by
  rcases h with ⟨f, ip, l, src, hc, ht, hp, hm⟩ | ⟨f, ip, l, src, hc, ht, hp, hm⟩
  · exact ⟨f, ip, l, src, hc, ht, hp, List.mem_append_left _ hm⟩
  · exact ⟨f, ip, l, src, hc, ht, hp, List.mem_append_right _ hm⟩

theorem Later.refl (s : Host) : Later s s [] := ⟨rfl, rfl, by simp, Or.inl⟩

theorem Later.trans {s s' s'' : Host} {es es' : List Event} (h : Later s s' es)
    (h' : Later s' s'' es') : Later s s'' (es ++ es') where
  hw := h'.hw.trans h.hw
  conf := h'.conf.trans h.conf
  trace := by rw [h'.trace, h.trace, List.append_assoc]
  success := fun hs => by
    rcases h'.success hs with hs | hp
    · exact (h.success hs).imp_right (fun hp => .append (Or.inl hp))
    · rw [h.conf] at hp
      exact Or.inr (.append (Or.inr hp))

/-- What the timer of the ARP wait and the frames leave alone: the environment,
the devices, the handlers and the progress of the loop. No attempt begins. -/
structure Polled (s s' : Host) : Prop where
  later : ∃ es, Later s s' es ∧ es.filter Event.isAttempt = []
  env : s'.env = s.env
  netEthaddr : s'.netEthaddr = s.netEthaddr
  eth : s'.eth = { s.eth with recvs := s'.eth.recvs }
  hand : s'.hand = { s.hand with timeStart := s'.hand.timeStart }
  loop : s'.loop = { s.loop with netState := s'.loop.netState }

theorem Polled.refl (s : Host) : Polled s s :=
  ⟨⟨[], .refl s, rfl⟩, rfl, rfl, rfl, rfl, rfl⟩

theorem Polled.trans {s s' s'' : Host} (h : Polled s s') (h' : Polled s' s'') : Polled s s'' where
  later := by
    obtain ⟨es, hl, ha⟩ := h.later
    obtain ⟨es', hl', ha'⟩ := h'.later
    exact ⟨es ++ es', hl.trans hl', by rw [List.filter_append, ha, ha', List.append_nil]⟩
  env := h'.env.trans h.env
  netEthaddr := h'.netEthaddr.trans h.netEthaddr
  eth := by rw [h'.eth, h.eth]
  hand := by rw [h'.hand, h.hand]
  loop := by rw [h'.loop, h.loop]

/-- No frame moves the loop but through `net_state`. -/
theorem polled_rx (s : Host) (f : Frame) : Polled s (netProcessReceivedPacket s f) := by
  rcases rx_cases s f with ⟨arp, len, -, he⟩ | hother
  · rw [he]
    refine ⟨⟨_, ⟨?_, arpMatched_conf .., arpMatched_trace .., ?_⟩, rfl⟩, ?_, ?_, ?_, ?_, ?_⟩
    all_goals
      unfold arpMatched
      split <;> first | rfl | exact Or.inl
  · generalize netProcessReceivedPacket s f = s' at hother
    cases hother with
    | ignored => exact .refl s
    | answered frame =>
      exact ⟨⟨[.ethSend .inPacket frame], ⟨rfl, rfl, rfl, Or.inl⟩, rfl⟩, rfl, rfl, rfl, rfl, rfl⟩
    | delivered pkt dport sip sport len =>
      exact ⟨⟨[_], ⟨rfl, rfl, rfl, Or.inl⟩, rfl⟩, rfl, rfl, rfl, rfl, rfl⟩
    | pong ip l src call type pinged =>
      exact ⟨⟨[.echoReply f.inPacket ip], ⟨rfl, rfl, rfl, fun _ =>
        Or.inr ⟨f, ip, l, src, call, type, pinged, by simp⟩⟩, rfl⟩, rfl, rfl, rfl, rfl, rfl⟩

theorem polled_ethRx (s : Host) : Polled s (ethRx s) := by
  unfold ethRx
  split
  · exact .refl s
  · exact List.foldlRecOn _ netProcessReceivedPacket
      ⟨⟨[], ⟨rfl, rfl, by simp, Or.inl⟩, rfl⟩, rfl, rfl, rfl, rfl, rfl⟩
      (fun s' h f _ => h.trans (polled_rx s' f))

theorem polled_arpTimeoutCheck (s : Host) : Polled s (arpTimeoutCheck s).2 := by
  have ht := arpTimeoutCheck_cases s
  generalize (arpTimeoutCheck s).2 = s' at ht
  cases ht with
  | idle => exact .refl s
  | waiting => exact ⟨⟨[], ⟨rfl, rfl, by simp, Or.inl⟩, rfl⟩, rfl, rfl, rfl, rfl, rfl⟩
  | gaveUp =>
    refine ⟨⟨[], ⟨rfl, rfl, by simp [netSetState], ?_⟩, rfl⟩, rfl, rfl, rfl, rfl, rfl⟩
    intro hs
    cases hs
  | asked tries t =>
    obtain ⟨b, arp, he, -⟩ := arpRequest_eq { s with
      timerReads := s.timerReads + 1
      arp := { s.arp with arpWaitTry := tries, arpWaitTimerStart := t } }
    rw [he]
    exact ⟨⟨[_], ⟨rfl, rfl, rfl, Or.inl⟩, rfl⟩, rfl, rfl, rfl, rfl, rfl⟩

theorem polled_pollRx (s : Host) : Polled s (pollRx s) := by
  have ht := polled_arpTimeoutCheck s
  unfold pollRx
  generalize arpTimeoutCheck s = v at ht
  obtain ⟨r, s1⟩ := v
  refine ht.trans (Polled.trans ?_ (polled_ethRx _))
  by_cases hr : r > 0
  · simp only [hr, if_true, getTimer]
    exact ⟨⟨[], ⟨rfl, rfl, by simp, Or.inl⟩, rfl⟩, rfl, rfl, rfl, rfl, rfl⟩
  · simp only [hr, if_false]
    exact .refl s1

inductive Timeout (s : Host) : Host → Prop where
  | off (unset : s.hand.timeHandler = none) : Timeout s s
  | early : Timeout s { s with timerReads := s.timerReads + 1 }
  | ping (set : s.hand.timeHandler = some .pingTimeoutHandler) :
      Timeout s (pingTimeoutHandler { s with
        timerReads := s.timerReads + 1, hand := { s.hand with timeHandler := none } })
  | startAgain (set : s.hand.timeHandler = some .startAgainTimeoutHandler) :
      Timeout s (startAgainTimeoutHandler { s with
        timerReads := s.timerReads + 1, hand := { s.hand with timeHandler := none } })

/-- All that a timeout does. -/
theorem checkTimeout_cases (s : Host) : Timeout s (checkTimeout s) := by
  unfold checkTimeout
  split
  · rename_i h
    exact .off h
  · rename_i x hx
    by_cases ht : UInt64.ofInt (runtimeTick (s.hw.readTimer s.timerReads)) - 0 -
        s.hand.timeStart > s.hand.timeDelta
    · simp only [getTimer, ht, if_true]
      cases x with
      | pingTimeoutHandler => exact .ping hx
      | startAgainTimeoutHandler => exact .startAgain hx
    · simp only [getTimer, ht, if_false]
      exact .early

structure TimedOut (s s' : Host) : Prop where
  later : ∃ es, Later s s' es
  env : s'.env = s.env
  current : s'.eth.ethCurrent = s.eth.ethCurrent
  udp : s'.hand.udpPacketHandler = s.hand.udpPacketHandler
  arp : s'.hand.arpPacketHandler = s.hand.arpPacketHandler

theorem Timeout.timedOut {s s' : Host} (h : Timeout s s') : TimedOut s s' := by
  cases h with
  | off => exact ⟨⟨[], .refl s⟩, rfl, rfl, rfl, rfl⟩
  | early => exact ⟨⟨[], rfl, rfl, by simp, Or.inl⟩, rfl, rfl, rfl, rfl⟩
  | ping =>
    obtain ⟨mem, he, -⟩ := ethHalt_eq { s with
      timerReads := s.timerReads + 1, hand := { s.hand with timeHandler := none } }
    rw [pingTimeoutHandler, he]
    refine ⟨⟨[], rfl, rfl, by simp [netSetState], ?_⟩, rfl, rfl, rfl, rfl⟩
    intro hs
    cases hs
  | startAgain =>
    refine ⟨⟨[.startAgain], rfl, rfl, rfl, ?_⟩, rfl, rfl, rfl, rfl⟩
    intro hs
    cases hs

end EmacDriver
