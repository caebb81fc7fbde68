import EmacDriver.EthReceive
import EmacDriver.Lib.RingQueue
import EmacDriver.Proofs.ReceiveBounds

namespace EmacDriver
open Bytes RingQueue

def EthRcvBuf.Kept (b : EthRcvBuf) (f : Frame) : Prop :=
  b.length = f.len ∧ ∀ i < f.len.toNat, b.data i = f.inPacket i

/-- The frames that are kept: not shorter than their header, and no longer than a buffer. -/
def savable (f : Frame) : Bool := !decide (toSize f.len < 14) && !decide (pktsize < f.len)

def EthRcv.Pending (r : EthRcv) (q : List Frame) : Prop :=
  Holds EthRcvBuf.Kept pktbufsrx r.bufs r.current r.last q

/-- Such a frame is dropped, and moves no index. -/
theorem push_unsavable {r : EthRcv} {f : Frame} (h : savable f = false) :
    netPushReceivedPacket r f = r := by
  rw [netPushReceivedPacket, ethSavePacket]
  by_cases hsmall : toSize f.len < 14
  · rw [if_pos hsmall]
  · have hlong : pktsize < f.len := by
      rw [savable, decide_eq_false hsmall, Bool.not_false, Bool.true_and] at h
      exact of_decide_eq_true ((Bool.not_eq_false' _).mp h)
    rw [if_neg hsmall, if_pos hlong, ite_self]

/-- With all buffers in use the frame is dropped. -/
theorem push_full {r : EthRcv} {f : Frame} (h : (r.last + 1) % pktbufsrx = r.current) :
    netPushReceivedPacket r f = r := by
  rw [netPushReceivedPacket, ethSavePacket, if_pos h, ite_self]

theorem push_saves {r : EthRcv} {q : List Frame} {f : Frame} (h : r.Pending q)
    (hf : savable f = true) (hroom : q.length + 1 < pktbufsrx) :
    (netPushReceivedPacket r f).Pending (q ++ [f]) := by
  obtain ⟨hsize, hfits⟩ : ¬toSize f.len < 14 ∧ ¬pktsize < f.len := by
    rw [savable, Bool.and_eq_true] at hf
    exact ⟨of_decide_eq_false ((Bool.not_eq_true' _).mp hf.1),
      of_decide_eq_false ((Bool.not_eq_true' _).mp hf.2)⟩
  have hnotfull : ¬(r.last + 1) % pktbufsrx = r.current := by
    rw [h.full_iff]
    exact Nat.ne_of_lt hroom
  rw [netPushReceivedPacket, if_neg hsize, ethSavePacket, if_neg hnotfull, if_neg hfits]
  refine h.push hroom ?_ fun j hj => if_neg hj
  · simp only [if_pos]
    refine ⟨rfl, ?_⟩
    intro i hi
    have hcopy :=
      patch_on (b := (r.bufs r.last).data) (o := 0) (f := fun i => f.inPacket (0 + i)) hi
    rwa [Nat.zero_add] at hcopy

/-- What a poll adds: the frames that fit, as long as there is room for them. -/
theorem poll_pending {r : EthRcv} {q : List Frame} (frames : List Frame) (h : r.Pending q) :
    (frames.foldl netPushReceivedPacket r).Pending ((q ++ frames.filter savable).take 3) := by
  induction frames generalizing r q with
  | nil =>
    have hall : q.take 3 = q := List.take_of_length_le (Nat.le_of_lt_succ h.room)
    rw [List.filter_nil, List.append_nil, hall]
    exact h
  | cons f frames ih =>
    rw [List.foldl_cons]
    cases hf : savable f with
    | false =>
      rw [push_unsavable hf, List.filter_cons_of_neg (by rw [hf]; exact Bool.false_ne_true)]
      exact ih h
    | true =>
      rw [List.filter_cons_of_pos hf]
      by_cases hroom : q.length + 1 < pktbufsrx
      · have hnext := ih (push_saves h hf hroom)
        rwa [List.append_assoc, List.singleton_append] at hnext
      · have hlen : q.length = 3 := by
          have := h.room
          simp only [pktbufsrx] at this hroom
          omega
        have hnext := ih h
        rw [← hlen, List.take_left] at hnext ⊢
        rw [push_full (h.full_iff.mpr (congrArg (· + 1) hlen))]
        exact hnext

/-- What the calls find of the `k`th poll: three frames at most, or that there are none. -/
def pollReplies (hw : Hardware) (p k : Nat) : List (Option Frame) :=
  match ((hw.recv k p).filter savable).take 3 with
  | [] => [none]
  | frames => frames.map some

def delivery (call : Buf × Int) : Option Frame → Int × Buf
  | none => (-1, call.1)
  | some f => (min f.len call.2, copy call.1 0 f.inPacket 0 (min f.len call.2).toNat)

theorem kept_delivery {b : EthRcvBuf} {f : Frame} (h : b.Kept f) (packet : Buf) (length : Int) :
    (min b.length length, copy packet 0 b.data 0 (min b.length length).toNat) =
      delivery (packet, length) (some f) := by
  obtain ⟨hlen, hdata⟩ := h
  have hbytes : copy packet 0 b.data 0 (min f.len length).toNat =
      copy packet 0 f.inPacket 0 (min f.len length).toNat := by
    apply patch_congr
    intro i hi
    rw [Nat.zero_add]
    exact hdata i (by omega)
  rw [hlen, hbytes]
  rfl

def EthRcv.next (r : EthRcv) : EthRcv := { r with current := (r.current + 1) % pktbufsrx }

theorem EthRcv.Pending.next {r : EthRcv} {f : Frame} {q : List Frame} (h : r.Pending (f :: q)) :
    r.next.Pending q := h.pop

/-- The front of the queue is returned. -/
theorem ethReceive_some {s : Host} {r : EthRcv} {f : Frame} {q : List Frame}
    (h : r.Pending (f :: q)) (packet : Buf) (length : Int) :
    ethReceive s r packet length = (delivery (packet, length) (some f), s, r.next) := by
  have hne : ¬r.current = r.last := by
    rw [h.empty_iff]
    exact List.cons_ne_nil f q
  rw [ethReceive, if_neg hne]
  simp only [if_neg hne, kept_delivery h.front_shows]
  rfl

def Host.polled (s : Host) : Host := { s with eth := { s.eth with recvs := s.eth.recvs + 1 } }

@[simp] theorem Host.polled_recvs (s : Host) : s.polled.eth.recvs = s.eth.recvs + 1 := rfl
@[simp] theorem Host.polled_hw (s : Host) : s.polled.hw = s.hw := rfl

/-- With nothing pending the device is polled once, and the first reply returned. -/
theorem ethReceive_poll {s : Host} {r : EthRcv} {p : Nat} (hp : s.eth.ethCurrent = some p)
    (h : r.Pending []) (packet : Buf) (length : Int) :
    ∃ f q r', pollReplies s.hw p s.eth.recvs = f :: q.map some ∧ r'.Pending q ∧
      ethReceive s r packet length = (delivery (packet, length) f, s.polled, r') := by
  have hempty : r.current = r.last := h.empty_iff.mpr rfl
  have hpoll := poll_pending (s.hw.recv s.eth.recvs p) h
  rw [List.nil_append] at hpoll
  have hrx : ethRxPush s r =
      (s.polled, (s.hw.recv s.eth.recvs p).foldl netPushReceivedPacket r) := by
    rw [ethRxPush, hp]
    rfl
  rw [ethReceive, if_pos hempty, hrx]
  rw [pollReplies]
  cases hframes : ((s.hw.recv s.eth.recvs p).filter savable).take 3 with
  | nil =>
    rw [hframes] at hpoll
    have hstill := hpoll.empty_iff.mpr rfl
    refine ⟨none, [], _, rfl, hpoll, ?_⟩
    simp only [if_pos hstill]
    rfl
  | cons f q =>
    rw [hframes] at hpoll
    have hne : ¬((s.hw.recv s.eth.recvs p).foldl netPushReceivedPacket r).current =
        ((s.hw.recv s.eth.recvs p).foldl netPushReceivedPacket r).last := by
      rw [hpoll.empty_iff]
      exact List.cons_ne_nil f q
    refine ⟨some f, q, _, rfl, EthRcv.Pending.next hpoll, ?_⟩
    simp only [if_neg hne, kept_delivery hpoll.front_shows]
    rfl

/-- By induction on the calls: each takes the front of the queue, or polls for more. -/
theorem ethReceives_pending {s : Host} {r : EthRcv} {p : Nat} {q : List Frame}
    (hp : s.eth.ethCurrent = some p) (h : r.Pending q) (calls : List (Buf × Int)) :
    ∃ k delivered rest s' r',
      ethReceives s r calls = (List.zipWith delivery calls delivered, s', r') ∧
      delivered.length = calls.length ∧ s'.eth.recvs = s.eth.recvs + k ∧ r'.Pending rest ∧
      q.map some ++ (List.range' s.eth.recvs k).flatMap (pollReplies s.hw p) =
        delivered ++ rest.map some ∧
      ∀ j < k, q.length + ((List.range' s.eth.recvs j).flatMap (pollReplies s.hw p)).length <
        delivered.length := by
  induction calls generalizing s r q with
  | nil =>
    exact ⟨0, [], q, s, r, rfl, rfl, rfl, h, List.append_nil _,
      fun _ hj => absurd hj (Nat.not_lt_zero _)⟩
  | cons call calls ih =>
    obtain ⟨packet, length⟩ := call
    cases q with
    | nil =>
      obtain ⟨f, q, r₁, hreplies, h₁, hcall⟩ := ethReceive_poll hp h packet length
      obtain ⟨k, delivered, rest, s', r', hrun, hlen, hrecvs, hrest, hall, hneed⟩ :=
        ih (s := s.polled) hp h₁
      rw [Host.polled_recvs] at hrecvs hall hneed
      refine ⟨k + 1, f :: delivered, rest, s', r', ?_, congrArg (· + 1) hlen, ?_, hrest, ?_, ?_⟩
      · simp only [ethReceives, hcall, hrun, List.zipWith_cons_cons]
      · rw [hrecvs]
        omega
      · rw [List.range'_succ, List.flatMap_cons, hreplies]
        exact congrArg (f :: ·) hall
      · intro j hj
        cases j with
        | zero => exact Nat.zero_lt_succ _
        | succ j =>
          have hprev := hneed j (Nat.lt_of_succ_lt_succ hj)
          rw [Host.polled_hw] at hprev
          rw [List.range'_succ, List.flatMap_cons, hreplies, List.length_append,
            List.length_cons, List.length_map, List.length_cons, List.length_nil]
          omega
    | cons f q =>
      have hcall := ethReceive_some (s := s) h packet length
      obtain ⟨k, delivered, rest, s', r', hrun, hlen, hrecvs, hrest, hall, hneed⟩ := ih hp h.next
      refine ⟨k, some f :: delivered, rest, s', r', ?_, congrArg (· + 1) hlen, hrecvs, hrest,
        ?_, ?_⟩
      · simp only [ethReceives, hcall, hrun, List.zipWith_cons_cons]
      · exact congrArg (some f :: ·) hall
      · intro j hj
        have hprev := hneed j hj
        rw [List.length_cons, List.length_cons]
        omega

/-- From the start on `eth_receive` returns of each poll of the device the first three frames
that fit a buffer, each once and in order, and -1 for a poll that brought none. It polls again
only when all of the earlier ones are returned. -/
theorem eth_receive_order (s : Host) (bufs : Nat → EthRcvBuf) {p : Nat}
    (hp : s.eth.ethCurrent = some p) (calls : List (Buf × Int)) :
    ∃ k delivered rest s' r',
      ethReceives s ⟨bufs, 0, 0⟩ calls = (List.zipWith delivery calls delivered, s', r') ∧
      delivered.length = calls.length ∧ s'.eth.recvs = s.eth.recvs + k ∧ r'.Pending rest ∧
      (List.range' s.eth.recvs k).flatMap (pollReplies s.hw p) = delivered ++ rest.map some ∧
      ∀ j < k, ((List.range' s.eth.recvs j).flatMap (pollReplies s.hw p)).length <
        delivered.length := by
  have hstart : (EthRcv.mk bufs 0 0).Pending [] := holds_nil (Nat.zero_lt_succ 3)
  obtain ⟨k, delivered, rest, s', r', hrun, hlen, hrecvs, hrest, hall, hneed⟩ :=
    ethReceives_pending hp hstart calls
  refine ⟨k, delivered, rest, s', r', hrun, hlen, hrecvs, hrest, hall, ?_⟩
  intro j hj
  have hprev := hneed j hj
  rwa [List.length_nil, Nat.zero_add] at hprev

def burstHost : Host :=
  { idleHost with
    hw := { idleHost.hw with
      recv := fun k _ => if k = 0 then List.replicate 5 ⟨ofList [0x02], 60⟩ else [] }
    eth := { idleHost.eth with ethCurrent := some 0 } }

theorem eth_receive_order_burst :
    ∃ k delivered rest s' r',
      ethReceives burstHost ⟨fun _ => ⟨ofList [], 0⟩, 0, 0⟩ [(ofList [], 100), (ofList [], 20)] =
        (List.zipWith delivery [(ofList [], 100), (ofList [], 20)] delivered, s', r') ∧
      delivered.length = 2 ∧ s'.eth.recvs = burstHost.eth.recvs + k ∧ r'.Pending rest ∧
      (List.range' burstHost.eth.recvs k).flatMap (pollReplies burstHost.hw 0) =
        delivered ++ rest.map some ∧
      ∀ j < k, ((List.range' burstHost.eth.recvs j).flatMap
        (pollReplies burstHost.hw 0)).length < delivered.length :=
  eth_receive_order burstHost _ rfl _

end EmacDriver
