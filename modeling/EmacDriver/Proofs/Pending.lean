import EmacDriver.Proofs.LoopSteps

namespace EmacDriver
open Bytes

/-- `ping_start` asks, the awaited reply answers. -/
def Event.pending (b : Bool) : Event → Bool
  | .pingStart _ => true
  | .arpHandler .. => false
  | _ => b

def pendingAfter (b : Bool) (es : List Event) : Bool := es.foldl Event.pending b

theorem pendingAfter_append (b : Bool) (es es' : List Event) :
    pendingAfter b (es ++ es') = pendingAfter (pendingAfter b es) es' := by
  simp [pendingAfter]

def Pends (s : Host) (b : Bool) : Prop := s.arp.netArpWaitPacketIp ≠ 0 ↔ b = true

def Turned (s s' : Host) : Prop :=
  ∃ es, s'.trace = s.trace ++ es ∧ ∀ b, Pends s b → Pends s' (pendingAfter b es)

section
variable {s s' s'' : Host}

/-- Events are followed one part after the other. -/
theorem Turned.trans (h : Turned s s') (h' : Turned s' s'') : Turned s s'' := by
  obtain ⟨es, ht, hp⟩ := h
  obtain ⟨es', ht', hp'⟩ := h'
  refine ⟨es ++ es', by rw [ht', ht, List.append_assoc], ?_⟩
  intro b hb
  rw [pendingAfter_append]
  exact hp' _ (hp b hb)

/-- Other events leave the wait alone. -/
theorem Turned.quiet {es : List Event} (ht : s'.trace = s.trace ++ es)
    (hw : s'.arp.netArpWaitPacketIp = s.arp.netArpWaitPacketIp)
    (hq : ∀ b, pendingAfter b es = b) : Turned s s' := by
  refine ⟨es, ht, ?_⟩
  intro b hb
  rw [hq, Pends, hw]
  exact hb

theorem Turned.same (ht : s'.trace = s.trace)
    (hw : s'.arp.netArpWaitPacketIp = s.arp.netArpWaitPacketIp) : Turned s s' :=
  .quiet (ht.trans (List.append_nil _).symm) hw fun _ => rfl

/-- Only the awaited reply clears the variable, and it is logged as that. -/
theorem turned_rx (s : Host) (f : Frame) : Turned s (netProcessReceivedPacket s f) := by
  rcases rx_cases s f with ⟨arp, len, -, he⟩ | hother
  · rw [he]
    refine ⟨_, arpMatched_trace .., ?_⟩
    intro b _
    simp [Pends, pendingAfter, Event.pending]
  · generalize netProcessReceivedPacket s f = s' at hother
    cases hother with
    | ignored => exact .same rfl rfl
    | answered => exact .quiet rfl rfl fun _ => rfl
    | delivered => exact .quiet rfl rfl fun _ => rfl
    | pong => exact .quiet rfl rfl fun _ => rfl

theorem turned_ethRx (s : Host) : Turned s (ethRx s) := by
  unfold ethRx
  split
  · exact .same rfl rfl
  · apply List.foldlRecOn _ netProcessReceivedPacket
    · exact .same rfl rfl
    · intro s' h f _
      exact h.trans (turned_rx s' f)

theorem turned_arpTimeoutCheck (s : Host) : Turned s (arpTimeoutCheck s).2 := by
  have ht := arpTimeoutCheck_cases s
  generalize (arpTimeoutCheck s).2 = s' at ht
  cases ht with
  | idle => exact .same rfl rfl
  | waiting => exact .same rfl rfl
  | gaveUp => exact .same rfl rfl
  | asked tries t =>
    obtain ⟨b, arp, he, -⟩ := arpRequest_eq { s with
      timerReads := s.timerReads + 1
      arp := { s.arp with arpWaitTry := tries, arpWaitTimerStart := t } }
    rw [he]
    exact .quiet rfl rfl fun _ => rfl

theorem turned_pollRx (s : Host) : Turned s (pollRx s) := by
  have ht := turned_arpTimeoutCheck s
  unfold pollRx
  generalize arpTimeoutCheck s = v at ht
  obtain ⟨r, s1⟩ := v
  refine ht.trans (Turned.trans ?_ (turned_ethRx _))
  by_cases hr : r > 0
  · simp only [hr, if_true, getTimer]
    exact .same rfl rfl
  · simp only [hr, if_false]
    exact .same rfl rfl

theorem Timeout.turned (h : Timeout s s') : Turned s s' := by
  cases h with
  | off => exact .same rfl rfl
  | early => exact .same rfl rfl
  | ping =>
    obtain ⟨mem, he, -⟩ := ethHalt_eq { s with
      timerReads := s.timerReads + 1, hand := { s.hand with timeHandler := none } }
    rw [pingTimeoutHandler, he]
    exact .same rfl rfl
  | startAgain => exact .quiet rfl rfl fun _ => rfl

theorem turned_pingStart (s : Host) (hping : s.conf.netPingIp ≠ 0) : Turned s (pingStart s) := by
  obtain ⟨b, ip, r, arp, he, -⟩ := pingSend_eq
    (netSetTimeoutHandler (s.log (.pingStart s.eth.ethCurrent)) 10000 (some .pingTimeoutHandler))
  rw [pingStart, he]
  refine ⟨_, List.append_assoc .., ?_⟩
  intro b _
  exact iff_of_true hping rfl

end

theorem turned_poll (c : Run) : Turned c.host (netLoopPoll c).host :=
  (turned_pollRx c.host).trans (checkTimeout_cases _).turned

theorem turned_restart {c d : Run} {p : Nat} (hd : netLoopRestart c = some d)
    (hc : c.host.eth.ethCurrent = some p) (ha : ActSet c.host.env) : Turned c.host d.host := by
  have hready : Turned c.host (readied c.host) := .same (readied_trace _) (by rw [readied_arp])
  cases netLoopRestart_cases hd hc with
  | unset =>
    obtain ⟨mem, he, -⟩ := ethHalt_eq (readied c.host)
    rw [he]
    exact hready.trans (.same rfl rfl)
  | noAddr _ _ _ again =>
    refine hready.trans ?_
    rcases netStartAgain_cases (p := p) again (by simp [hc]) (by simp [ha]) with
      ⟨-, -, rfl⟩ | ⟨-, q, l, b, e, -, -, -, hret⟩
    · obtain ⟨mem, he, -⟩ := ethHalt_eq (readied c.host)
      rw [he]
      exact .same rfl rfl
    · exact .same hret.trace (by rw [hret.arp])
  | started ping =>
    have hprep : Turned c.host (prepared c.host) := hready.trans (.same rfl rfl)
    exact hprep.trans (turned_pingStart _ (by simpa [prepared] using ping))

/-- The ARP request of the last `ping_start`, if there was one, has had its reply. -/
def ArpDone (s : Host) (c : Run) : Prop :=
  ∃ es, c.host.trace = s.trace ++ es ∧ pendingAfter false es = false

def Followed (s s' : Host) : Prop :=
  ∃ es, s'.trace = s.trace ++ es ∧ Pends s' (pendingAfter false es)

theorem Followed.turned {s s' s'' : Host} (h : Followed s s') (ht : Turned s' s'') :
    Followed s s'' := by
  obtain ⟨es, he, hp⟩ := h
  obtain ⟨es', he', hp'⟩ := ht
  refine ⟨es ++ es', by rw [he', he, List.append_assoc], ?_⟩
  rw [pendingAfter_append]
  exact hp' _ hp

/-- The events of the run tell whether the variable is clear. -/
theorem Followed.arpDone_iff {s : Host} {c : Run} (h : Followed s c.host) :
    ArpDone s c ↔ c.host.arp.netArpWaitPacketIp = 0 := by
  obtain ⟨es, he, hp⟩ := h
  constructor
  · rintro ⟨es', he', hdone⟩
    rw [he] at he'
    rw [← List.append_cancel_left he'] at hdone
    simpa [Pends, hdone] using hp
  · intro hw
    refine ⟨es, he, ?_⟩
    simpa [Pends, hw] using hp

end EmacDriver
