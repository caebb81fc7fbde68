import EmacDriver.NetLoop
import EmacDriver.Proofs.ReceiveBounds

namespace EmacDriver

def clock (s : Host) : UInt64 := s.hw.readTimer s.timerReads

def millis (c : UInt64) : Nat := c.toNat / 24000

/-- How often `int` has wrapped round when the reading is taken. -/
def wraps (c : UInt64) : Nat := (millis c + 2147483648) / 4294967296

/-- The count of milliseconds, less the wraps of the `int`. -/
theorem runtimeTick_eq (c : UInt64) :
    runtimeTick c = (millis c : Int) - 4294967296 * (wraps c : Int) := by
  have hdiv : (c / 24000).toNat = millis c := UInt64.toNat_div c 24000
  rw [runtimeTick, hdiv, toInt, Int.bmod_def]
  unfold wraps
  split <;> omega

theorem millis_le {c d : UInt64} (h : c ≤ d) : millis c ≤ millis d :=
  Nat.div_le_div_right (UInt64.le_iff_toNat_le.mp h)

theorem wraps_lt (c : UInt64) : wraps c < 4294967296 := by
  have := c.toNat_lt
  unfold wraps millis
  omega

/-- The `int` is widened with its sign. -/
theorem getTimer_toNat (s : Host) :
    ((getTimer s 0).1.toNat : Int) = runtimeTick (clock s) % 18446744073709551616 := by
  unfold getTimer clock
  rw [UInt64.sub_zero, UInt64.ofInt, UInt64.toNat_ofNat']
  omega

/-- Each wrap between the two readings takes 2^32 off the difference. -/
theorem getTimer_sub (s0 s1 : Host) :
    (((getTimer s1 0).1 - (getTimer s0 0).1).toNat : Int) =
      ((millis (clock s1) : Int) - millis (clock s0) -
        4294967296 * ((wraps (clock s1) : Int) - wraps (clock s0))) % 18446744073709551616 := by
  have h0 := getTimer_toNat s0
  have h1 := getTimer_toNat s1
  rw [runtimeTick_eq] at h0 h1
  have hlt0 := (getTimer s0 0).1.toNat_lt
  have hlt1 := (getTimer s1 0).1.toNat_lt
  rw [UInt64.toNat_sub]
  omega

/-- The difference is the time elapsed exactly when `int` did not wrap. -/
theorem getTimer_elapsed_iff (s0 s1 : Host) (h : clock s0 ≤ clock s1) :
    ((getTimer s1 0).1 - (getTimer s0 0).1).toNat = millis (clock s1) - millis (clock s0) ↔
      wraps (clock s0) = wraps (clock s1) := by
  have hm := millis_le h
  have hw0 := wraps_lt (clock s0)
  have hw1 := wraps_lt (clock s1)
  have hsub := getTimer_sub s0 s1
  have hlt : millis (clock s1) < 768614336404565 := by
    have := (clock s1).toNat_lt
    unfold millis
    omega
  omega

/-- No timeout before its time: with both timers started at `s0`, a check at
`s1` that comes too early does nothing but read the clock. -/
def Punctual (s0 s1 : Host) : Prop :=
  (s1.arp.netArpWaitPacketIp ≠ 0 → s1.arp.arpWaitTimerStart = (getTimer s0 0).1 →
    millis (clock s1) - millis (clock s0) ≤ 5000 →
    arpTimeoutCheck s1 = (1, (getTimer s1 0).2)) ∧
  (∀ x, s1.hand.timeHandler = some x → s1.hand.timeStart = (getTimer s0 0).1 →
    millis (clock s1) - millis (clock s0) ≤ s1.hand.timeDelta.toNat →
    checkTimeout s1 = (getTimer s1 0).2)

/-- Timeouts that come of the elapsed time are not early. -/
theorem punctual_of_elapsed {s0 s1 : Host}
    (h : ((getTimer s1 0).1 - (getTimer s0 0).1).toNat =
      millis (clock s1) - millis (clock s0)) : Punctual s0 s1 := by
  constructor
  · intro hw hs hle
    have ht : ¬ (getTimer s1 0).1 - s1.arp.arpWaitTimerStart > 5000 := by
      rw [hs, gt_iff_lt, UInt64.lt_iff_toNat_lt, h]
      exact Nat.not_lt.mpr hle
    unfold arpTimeoutCheck
    rw [if_neg hw]
    exact if_neg ht
  · intro x hx hs hle
    have ht : ¬ (getTimer s1 0).1 - s1.hand.timeStart > s1.hand.timeDelta := by
      rw [hs, gt_iff_lt, UInt64.lt_iff_toNat_lt, h]
      exact Nat.not_lt.mpr hle
    unfold checkTimeout
    rw [hx]
    exact if_neg ht

/-- `get_timer` counts milliseconds in an `int`: the law holds between two
readings with no odd multiple of 2^31 ms in between, and only there. -/
theorem elapsed_time_iff (s0 s1 : Host) (h : clock s0 ≤ clock s1) :
    (((getTimer s1 0).1 - (getTimer s0 0).1).toNat = millis (clock s1) - millis (clock s0) ∧
        Punctual s0 s1) ↔
      (millis (clock s0) + 2147483648) / 4294967296 =
        (millis (clock s1) + 2147483648) / 4294967296 := by
  have hiff := getTimer_elapsed_iff s0 s1 h
  unfold wraps at hiff
  rw [← hiff]
  constructor
  · rintro ⟨he, -⟩
    exact he
  · intro he
    exact ⟨he, punctual_of_elapsed he⟩

def uptimeHost (c start : UInt64) : Host :=
  { idleHost with
    hw := { idleHost.hw with readTimer := fun _ => c }
    arp := { idleHost.arp with netArpWaitPacketIp := 1, arpWaitTimerStart := start } }

/-- One second apart, at uptimes of 10 s and 11 s. -/
theorem elapsed_time_iff_second :
    ((getTimer (uptimeHost 264000000 10000) 0).1 -
        (getTimer (uptimeHost 240000000 0) 0).1).toNat = 1000 ∧
      Punctual (uptimeHost 240000000 0) (uptimeHost 264000000 10000) :=
  (elapsed_time_iff (uptimeHost 240000000 0) (uptimeHost 264000000 10000)
    (by decide +kernel)).mpr (by decide +kernel)

/-- One millisecond apart, at the uptime of 2^31 ms, between 24 and 25 days. -/
theorem elapsed_time_wraps :
    ¬ ∀ s0 s1 : Host, clock s0 ≤ clock s1 →
      (clock s1).toNat - (clock s0).toNat < 2147483648 * 24000 →
      ((getTimer s1 0).1 - (getTimer s0 0).1).toNat = millis (clock s1) - millis (clock s0) ∧
        Punctual s0 s1 := by
  intro h
  have hd := h (uptimeHost 51539607528000 0) (uptimeHost 51539607552000 2147483647)
    (by decide +kernel) (by decide +kernel)
  have htry := congrArg (fun r => r.2.arp.arpWaitTry)
    (hd.2.1 (by decide +kernel) (by decide +kernel) (by decide +kernel))
  revert htry
  decide +kernel

end EmacDriver
