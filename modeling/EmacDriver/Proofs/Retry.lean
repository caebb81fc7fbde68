import EmacDriver.Proofs.EthRing

namespace EmacDriver
open RingSearch

def Host.wiring (s : Host) (p : Nat) : CStr × Mac × Option Nat :=
  ((s.eth.mem p).name, (s.eth.mem p).enetaddr, (s.eth.mem p).next)

theorem next_of_wiring {s s' : Host} (h : s'.wiring = s.wiring) (p : Nat) :
    (s'.eth.mem p).next = (s.eth.mem p).next :=
  congrArg (fun w => (w p).2.2) h

@[simp] theorem setDevState_wiring (s : Host) (p : Nat) (state : EthState) :
    (s.setDevState p state).wiring = s.wiring := by
  funext q
  by_cases hq : q = p <;> simp [Host.wiring, Host.setDevState, hq]

theorem ethHalt_eq (s : Host) :
    ∃ mem, ethHalt s = { s with eth := { s.eth with mem := mem } } ∧
      (ethHalt s).wiring = s.wiring := by
  unfold ethHalt
  split
  · exact ⟨s.eth.mem, rfl, rfl⟩
  · exact ⟨_, rfl, setDevState_wiring s _ _⟩

theorem ethHalt_some {s : Host} {p : Nat} (hc : s.eth.ethCurrent = some p) :
    ethHalt s = s.setDevState p .ethStatePassive := by
  simp [ethHalt, hc]

def retryFailed (s : Host) (p : Nat) : Option Nat :=
  if rotateOff s.env then s.eth.firstFailed
  else if s.loop.netRestarted then s.eth.firstFailed
  else some p

/-- The retry ends the round: the flag is up already, or the devices passed
include the first that failed. -/
def retryWraps (s : Host) (p : Nat) (l : List Nat) : Bool :=
  s.loop.netRestartWrap || closesRound s (retryFailed s p) l

/-- A retry from device `p` moves to `q` and passes the devices `l` until one
comes up (`b`) or they are exhausted. -/
def RetryWalk (s : Host) (p q : Nat) (l : List Nat) (b : Bool) : Prop :=
  ringNext s p = some q ∧ Search (ringNext s) (InitOk s) q s.eth.inits q l b

/-- The ring and the results of `init` leave no choice. -/
theorem RetryWalk.unique {s : Host} {p q q' : Nat} {l l' : List Nat} {b b' : Bool}
    (h : RetryWalk s p q l b) (h' : RetryWalk s p q' l' b') : q = q' ∧ l = l' ∧ b = b' := by
  obtain ⟨hq, hs⟩ := h
  obtain ⟨hq', hs'⟩ := h'
  rw [hq] at hq'
  cases hq'
  exact ⟨rfl, hs.unique hs'⟩

structure Retried (s s' : Host) (p c : Nat) (b wraps : Bool) : Prop where
  hw : s'.hw = s.hw
  conf : s'.conf = s.conf
  arp : s'.arp = s.arp
  trace : s'.trace = s.trace
  netEthaddr : s'.netEthaddr = s.netEthaddr
  env : EnvLater s.env s'.env
  current : s'.eth.ethCurrent = some c
  failed : s'.eth.firstFailed = retryFailed s p
  count : s'.eth.count = s.eth.count
  wiring : s'.wiring = s.wiring
  state : (s'.eth.mem c).state =
    if b then .ethStateActive else if c = p then .ethStatePassive else (s.eth.mem c).state
  loop : s'.loop = { s.loop with
    netTryCount := s.loop.netTryCount + 1
    netRestartWrap := false
    netState :=
      if wraps then (if s.loop.netDevExists then s.loop.netState else .netloopFail)
      else .netloopRestart }
  hand : s'.hand.arpPacketHandler = s.hand.arpPacketHandler ∧
    (s'.hand = s.hand ∨ s'.hand.udpPacketHandler = some .dummyHandler)

/-- `eth_halt`, `eth_try_another` and `eth_init` in a row. -/
theorem retry_walk {s s1 s2 : Host} {r : Int} {p : Nat}
    (h1 : ethTryAnother (ethHalt s) (!s.loop.netRestarted) = some s1)
    (h2 : ethInit s1 = some (r, s2)) (hc : s.eth.ethCurrent = some p) (ha : ActSet s.env) :
    ∃ q l b c e m, RetryWalk s p q l b ∧ l.getLast? = some c ∧ r = (if b then 0 else -110) ∧
      EnvLater s.env e ∧
      s2 = { s with
        env := e
        eth := { s.eth with
          ethCurrent := some c
          firstFailed := retryFailed s p
          inits := m
          mem := fun x =>
            if b = true ∧ x = c then { s.eth.mem x with state := .ethStateActive }
            else if x = p then { s.eth.mem x with state := .ethStatePassive }
            else s.eth.mem x }
        loop := { s.loop with netRestartWrap := retryWraps s p l } } := by
  rw [ethHalt_some hc] at h1
  obtain ⟨q, e1, failed, hq, he1, hfailed, heq1⟩ := ethTryAnother_spec h1 hc ha
  have he1 : EnvLater s.env e1 := he1
  have hring0 : ringNext (s.setDevState p .ethStatePassive) = ringNext s :=
    ringNext_congr rfl (next_of_wiring (setDevState_wiring s p _))
  have hfailed : failed = retryFailed s p := by
    rw [hfailed]
    cases hr : s.loop.netRestarted <;> simp [retryFailed, Host.setDevState, hr]
  rw [hring0] at hq
  have hcur : s1.eth.ethCurrent = some q := by rw [heq1]
  rw [ethInit, hcur] at h2
  obtain ⟨l, b, c, e2, m, hs, hlast, he2, hr, heq2⟩ :=
    ethInitLoop_spec h2 hcur (by rw [heq1]; exact he1.act ha)
  have hring : ringNext s1 = ringNext s := by
    rw [← hring0]
    exact ringNext_congr (by rw [heq1]; exact he1.rotate) (by simp [heq1])
  have hok : InitOk s1 = InitOk s := by rw [heq1]; rfl
  have hinits : s1.eth.inits = s.eth.inits := by rw [heq1]; rfl
  rw [hring, hok, hinits] at hs
  refine ⟨q, l, b, c, e2, m, ⟨hq, hs⟩, hlast, hr, he1.trans (by rw [heq1] at he2; exact he2), ?_⟩
  obtain ⟨t, rfl⟩ := hs.head
  rw [heq2, heq1, hfailed]
  simp only [Host.setDevState, retryWraps, closesRound, he1.rotate, Bool.or_assoc,
    Bool.and_or_distrib_left, List.any_cons, List.any_nil, List.tail_cons, Bool.or_false,
    Host.mk.injEq, Eth.mk.injEq, true_and, and_true]
  funext x
  by_cases hx : b = true ∧ x = c
  · obtain ⟨rfl, rfl⟩ := hx
    by_cases hxp : x = p
    · subst hxp
      simp
    · simp [hxp]
  · by_cases hxp : x = p
    · subst hxp
      simp [hx]
    · simp [hx, hxp]

theorem netRetryState_spec (s : Host) :
    ∃ hd tr, netRetryState s = { s with
        hand := hd
        timerReads := tr
        loop := { s.loop with
          netRestartWrap := false
          netState :=
            if s.loop.netRestartWrap then
              (if s.loop.netDevExists then s.loop.netState else .netloopFail)
            else .netloopRestart } } ∧
      hd.arpPacketHandler = s.hand.arpPacketHandler ∧
      (hd = s.hand ∨ hd.udpPacketHandler = some .dummyHandler) := by
  cases hw : s.loop.netRestartWrap with
  | false =>
    refine ⟨s.hand, s.timerReads, ?_, rfl, Or.inl rfl⟩
    simp [netRetryState, netSetState, hw]
  | true =>
    cases hd : s.loop.netDevExists with
    | false =>
      refine ⟨s.hand, s.timerReads, ?_, rfl, Or.inl rfl⟩
      simp [netRetryState, netSetState, hw, hd]
    | true =>
      simp only [netRetryState, hw, hd, if_true]
      exact ⟨_, s.timerReads + 1, rfl, rfl, Or.inr rfl⟩

/-- The retry stops at the last device that the walk passes. -/
theorem netTryNext_spec {s s' : Host} {r : Int} {p : Nat} (h : netTryNext s = some (r, s'))
    (hc : s.eth.ethCurrent = some p) (ha : ActSet s.env) :
    ∃ q l b c, RetryWalk s p q l b ∧ l.getLast? = some c ∧ r = (if b then 0 else -110) ∧
      Retried s s' p c b (retryWraps s p l) := by
  simp only [netTryNext, Option.bind_eq_bind, Option.bind_eq_some_iff] at h
  obtain ⟨s1, h1, ⟨r2, s2⟩, h2, h3⟩ := h
  obtain ⟨q, l, b, c, e, m, hw, hlast, hr, he, heq⟩ := retry_walk h1 h2 hc ha
  cases h3
  refine ⟨q, l, b, c, hw, hlast, hr, ?_⟩
  have hwraps : retryWraps { s with loop := { s.loop with
      netTryCount := s.loop.netTryCount + 1 } } p l = retryWraps s p l := rfl
  rw [hwraps] at heq
  have hstate : (s2.eth.mem c).state = if b then .ethStateActive
      else if c = p then .ethStatePassive else (s.eth.mem c).state := by
    rw [heq]
    cases b <;> by_cases hcp : c = p <;> simp [hcp]
  have hwiring : s2.wiring = s.wiring := by
    funext x
    rw [heq]
    simp only [Host.wiring]
    split
    · rfl
    · split <;> rfl
  obtain ⟨hd, tr, hret, harp, hudp⟩ := netRetryState_spec s2
  rw [hret]
  exact {
    hw := by rw [heq]
    conf := by rw [heq]
    arp := by rw [heq]
    trace := by rw [heq]
    netEthaddr := by rw [heq]
    env := by rw [heq]; exact he
    current := by rw [heq]
    failed := by rw [heq]; rfl
    count := by rw [heq]
    wiring := hwiring
    state := hstate
    loop := by rw [heq]
    hand := by rw [heq] at harp hudp; exact ⟨harp, hudp⟩ }

/-- `net_start_again`: out of retries, or on to the next device. -/
theorem netStartAgain_cases {s s' : Host} {r : Int} {p : Nat} (h : netStartAgain s = some (r, s'))
    (hc : s.eth.ethCurrent = some p) (ha : ActSet s.env) :
    (retriesSpent s = true ∧ r = -110 ∧ s' = netSetState (ethHalt s) .netloopFail) ∨
    (retriesSpent s = false ∧ ∃ q l b c, RetryWalk s p q l b ∧ l.getLast? = some c ∧
      r = (if b then 0 else -110) ∧ Retried s s' p c b (retryWraps s p l)) := by
  unfold netStartAgain at h
  split at h
  · rename_i hspent
    cases h
    exact Or.inl ⟨hspent, rfl, rfl⟩
  · rename_i hleft
    exact Or.inr ⟨by simpa using hleft, netTryNext_spec h hc ha⟩

end EmacDriver
