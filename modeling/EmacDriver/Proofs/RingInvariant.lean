import EmacDriver.Proofs.EthRing
import EmacDriver.Proofs.ReceiveBounds
import EmacDriver.Registry

namespace EmacDriver
open LinkedRing

structure Ring (s : Host) (l : List Nat) : Prop where
  head : s.eth.ethDevices = l.head?
  linked : Linked s.next l l.head?
  nodup : l.Nodup
  objects : ∀ p ∈ l, p < s.eth.count
  current : s.eth.ethCurrent = none ∨ ∃ p ∈ l, s.eth.ethCurrent = some p

def ringDevices (l : List Nat) : RingOp → List Nat
  | .ethRegister dev => l ++ [dev]
  | .ethUnregister dev => l.erase dev
  | .ethTryAnother _ => l

/-- What a caller owes: it registers an object that is not in the ring. -/
def RingOp.Allowed (count : Nat) (l : List Nat) : RingOp → Prop
  | .ethRegister dev => dev < count ∧ dev ∉ l
  | _ => True

theorem Ring.length_le {s : Host} {l : List Nat} (h : Ring s l) : l.length ≤ s.eth.count := by
  have hsub : l ⊆ List.range s.eth.count := by
    intro p hp
    exact List.mem_range.mpr (h.objects p hp)
  simpa using List.Nodup.length_le_of_subset h.nodup hsub

theorem Host.next_setDev (s : Host) (p : Nat) (f : EthDevice → EthDevice) (q : Nat) :
    (s.setDev p f).next q = if q = p then (f (s.eth.mem p)).next else s.next q := by
  simp only [Host.next, Host.setDev]
  split <;> rfl

/-- The head comes only behind the last device. -/
theorem Ring.last_next {s : Host} (pre : List Nat) {z : Nat} (h : Ring s (pre ++ [z])) :
    s.next z = (pre ++ [z]).head? := by
  have hz := (linked_append.mp h.linked).2.1
  simpa using hz

/-- The walk to the last device comes to an end there. -/
theorem Ring.walk_last {s : Host} {pre : List Nat} {z head : Nat} (h : Ring s (pre ++ [z]))
    (hh : (pre ++ [z]).head? = some head) :
    walk s.next (fun d => s.next d == some head) s.eth.count head = some z := by
  apply h.linked.walk_eq hh _ (by simp [h.last_next pre, hh]) h.length_le
  intro b y hb hy
  have hne : y ≠ head := by
    rintro rfl
    exact head_not_mem_tail hh h.nodup hy
  simp [hb, hne]

/-- The search for the device in front of `dev` ends there or, if that is in
front of nothing, at the last one. -/
theorem Ring.walk_pred {s : Host} {pre post : List Nat} {c dev head : Nat}
    (h : Ring s (pre ++ c :: post)) (hh : (pre ++ c :: post).head? = some head)
    (hdev : dev ∉ (pre ++ [c]).tail) (hc : s.next c = some head ∨ s.next c = some dev) :
    walk s.next (fun cur => s.next cur == some head || s.next cur == some dev)
      s.eth.count head = some c := by
  apply h.linked.walk_eq hh _ (by simpa using hc) h.length_le
  intro b y hb hy
  have hnd : (pre ++ [c]).Nodup := by
    have := h.nodup
    rw [List.append_cons] at this
    exact (List.nodup_append.mp this).1
  have hhead : y ≠ head := by
    rintro rfl
    obtain ⟨x, -, hx, hx'⟩ := head_append_cons pre post c
    rw [hh] at hx
    cases hx
    exact head_not_mem_tail hx' hnd hy
  have hne : y ≠ dev := by
    rintro rfl
    exact hdev hy
  simp [hb, hhead, hne]

theorem ethEnter_empty {s : Host} (e : Env) (h : Ring s []) (dev : Nat) :
    ethEnter (leaving e) s dev = some { s with
      env := e
      eth := { s.eth with ethDevices := some dev, ethCurrent := some dev } } := by
  have hd : s.eth.ethDevices = none := h.head
  simp only [ethEnter, hd, leaving]

theorem ethEnter_last {s : Host} {pre : List Nat} {z : Nat} (e : Env) (h : Ring s (pre ++ [z]))
    (dev : Nat) :
    ethEnter (leaving e) s dev = some (s.setDev z (fun x => { x with next := some dev })) := by
  obtain ⟨head, -, -, hh⟩ := head_append_cons pre [] z
  have hd : s.eth.ethDevices = some head := h.head.trans hh
  simp only [ethEnter, hd, h.walk_last hh]

/-- The list grows at its end. -/
theorem ethRegister_ring {s : Host} {l : List Nat} {dev : Nat} (index : Nat) (e : Env)
    (h : Ring s l) (hdev : dev < s.eth.count) (hnew : dev ∉ l) :
    ∃ s', ethRegister (leaving e) ⟨s, index⟩ dev = some (0, ⟨s', index + 1⟩) ∧
      s'.eth.count = s.eth.count ∧ Ring s' (l ++ [dev]) := by
  unfold ethRegister
  rcases List.eq_nil_or_concat l with rfl | ⟨pre, z, rfl⟩
  · simp only [ethEnter_empty e h]
    refine ⟨_, rfl, rfl, ?_⟩
    refine ⟨rfl, ⟨?_, trivial⟩, List.nodup_singleton dev, ?_,
      Or.inr ⟨dev, List.mem_cons_self, rfl⟩⟩
    · simp [Host.next_setDev]
    · intro p hp
      rw [List.mem_singleton.mp hp]
      exact hdev
  · rw [List.concat_eq_append] at *
    obtain ⟨head, -, -, hh⟩ := head_append_cons pre [] z
    have hhead : s.eth.ethDevices = (pre ++ [z] ++ [dev]).head? := by
      rw [h.head, hh, List.head?_append, hh]
      rfl
    have hne : z ≠ dev := by
      rintro rfl
      exact hnew (by simp)
    simp only [ethEnter_last e h]
    refine ⟨_, rfl, rfl, hhead, ?_, ?_, ?_, ?_⟩
    · apply h.linked.snoc
      · intro a ha
        have haz : a ≠ z := by
          rintro rfl
          exact (List.nodup_append.mp h.nodup).2.2 a ha a (by simp) rfl
        have had : a ≠ dev := by
          rintro rfl
          exact hnew (List.mem_append_left _ ha)
        simp [Host.next_setDev, haz, had]
      · simp [Host.next_setDev, hne]
      · rw [Host.next_setDev, if_pos rfl]
        exact hhead
    · rw [List.nodup_append]
      refine ⟨h.nodup, List.nodup_singleton dev, ?_⟩
      rintro a ha b hb rfl
      exact hnew (List.mem_singleton.mp hb ▸ ha)
    · intro p hp
      rcases List.mem_append.mp hp with hp | hp
      · exact h.objects p hp
      · rw [List.mem_singleton.mp hp]
        exact hdev
    · rcases h.current with hc | ⟨p, hp, hc⟩
      · exact Or.inl hc
      · exact Or.inr ⟨p, List.mem_append_left _ hp, hc⟩

/-- Of a device that is not in the ring nothing is found and nothing changed. -/
theorem ethUnregister_absent {s : Host} {l : List Nat} {dev : Nat} (e : Env) (h : Ring s l)
    (hdev : dev ∉ l) : ethUnregister (leaving e) s dev = some (-19, s) := by
  rcases List.eq_nil_or_concat l with rfl | ⟨pre, z, rfl⟩
  · have hd : s.eth.ethDevices = none := h.head
    simp only [ethUnregister, hd]
  · rw [List.concat_eq_append] at *
    obtain ⟨head, hmem, -, hh⟩ := head_append_cons pre [] z
    have hd : s.eth.ethDevices = some head := h.head.trans hh
    have hlast : s.next z = some head := (h.last_next pre).trans hh
    have hwalk := h.walk_pred hh (fun hm => hdev (List.mem_of_mem_tail hm)) (Or.inl hlast)
    have hne : s.next z ≠ some dev := by
      rw [hlast]
      rintro ⟨⟩
      exact hdev hmem
    simp only [ethUnregister, hd, hwalk, if_pos hne]

/-- A found device is unlinked from the one in front of it. If it was the
current one, the new head takes its place. -/
theorem ethUnregister_found {s : Host} (pre post : List Nat) {c dev : Nat} (e : Env)
    (h : Ring s (pre ++ c :: post)) (hdev : dev ∉ (pre ++ [c]).tail) (hc : s.next c = some dev)
    (hring : Linked (ethUnlink s c dev).next ((pre ++ c :: post).erase dev)
      ((pre ++ c :: post).erase dev).head?)
    (hhead : (ethUnlink s c dev).eth.ethDevices = ((pre ++ c :: post).erase dev).head?) :
    ∃ s', ethUnregister (leaving e) s dev = some (0, s') ∧ s'.eth.count = s.eth.count ∧
      Ring s' ((pre ++ c :: post).erase dev) := by
  obtain ⟨head, -, hh, -⟩ := head_append_cons pre post c
  have hd : s.eth.ethDevices = some head := h.head.trans hh
  have hcount : (ethUnlink s c dev).eth.count = s.eth.count := by
    unfold ethUnlink
    dsimp only
    split <;> rfl
  have hcur : (ethUnlink s c dev).eth.ethCurrent = s.eth.ethCurrent := by
    unfold ethUnlink
    dsimp only
    split <;> rfl
  have hobjects : ∀ p ∈ (pre ++ c :: post).erase dev, p < (ethUnlink s c dev).eth.count := by
    intro p hp
    rw [hcount]
    exact h.objects p (List.mem_of_mem_erase hp)
  simp only [ethUnregister, hd, h.walk_pred hh hdev (Or.inr hc), if_neg (not_not_intro hc)]
  by_cases hdc : (ethUnlink s c dev).eth.ethCurrent = some dev
  · rw [if_pos hdc]
    refine ⟨_, rfl, hcount, hhead, hring, h.nodup.erase dev, hobjects, ?_⟩
    change (ethUnlink s c dev).eth.ethDevices = none ∨
      ∃ p ∈ _, (ethUnlink s c dev).eth.ethDevices = some p
    rw [hhead]
    cases (pre ++ c :: post).erase dev with
    | nil => exact Or.inl rfl
    | cons p l => exact Or.inr ⟨p, List.mem_cons_self, rfl⟩
  · rw [if_neg hdc]
    refine ⟨_, rfl, hcount, hhead, hring, h.nodup.erase dev, hobjects, ?_⟩
    rw [hcur] at hdc ⊢
    rcases h.current with hn | ⟨p, hp, hp'⟩
    · exact Or.inl hn
    · refine Or.inr ⟨p, (List.mem_erase_of_ne ?_).mpr hp, hp'⟩
      rintro rfl
      exact hdc hp'

theorem next_ethUnlink (s : Host) (c dev q : Nat) :
    (ethUnlink s c dev).next q = if q = c then s.next dev else s.next q := by
  have h := Host.next_setDev s c (fun x => { x with next := s.next dev }) q
  unfold ethUnlink
  dsimp only
  split
  · exact h
  · exact h

theorem ethDevices_ethUnlink (s : Host) (c dev : Nat) :
    (ethUnlink s c dev).eth.ethDevices =
      if s.eth.ethDevices = some dev then
        if (ethUnlink s c dev).next dev = s.eth.ethDevices then none
        else (ethUnlink s c dev).next dev
      else s.eth.ethDevices := by
  unfold ethUnlink
  dsimp only
  by_cases hd : (s.setDev c fun x => { x with next := s.next dev }).eth.ethDevices = some dev
  · have hd' : s.eth.ethDevices = some dev := hd
    rw [if_pos hd, if_pos hd']
    rfl
  · have hd' : ¬ s.eth.ethDevices = some dev := hd
    rw [if_neg hd, if_neg hd']
    rfl

/-- The first device is behind the last; the only one is behind itself. -/
theorem ethUnregister_head {s : Host} {dev : Nat} {t : List Nat} (e : Env)
    (h : Ring s (dev :: t)) :
    ∃ s', ethUnregister (leaving e) s dev = some (0, s') ∧ s'.eth.count = s.eth.count ∧
      Ring s' ((dev :: t).erase dev) := by
  have hd : s.eth.ethDevices = some dev := h.head
  rcases List.eq_nil_or_concat t with rfl | ⟨mid, c, rfl⟩
  · have hself : s.next dev = some dev := h.linked.1
    apply ethUnregister_found [] [] e h (by simp) hself
    · simp [Linked]
    · simp [ethDevices_ethUnlink, next_ethUnlink, hd, hself]
  · rw [List.concat_eq_append] at *
    have hlast : s.next c = some dev := h.last_next (dev :: mid)
    obtain ⟨hdev, hnd⟩ := List.nodup_cons.mp h.nodup
    have hne : dev ≠ c := by
      rintro rfl
      exact hdev (by simp)
    obtain ⟨y, hy, -, hhead⟩ := head_append_cons mid [] c
    have hnext : s.next dev = some y := h.linked.1.trans (by rw [hhead]; rfl)
    have hyd : y ≠ dev := by
      rintro rfl
      exact hdev hy
    apply ethUnregister_found (dev :: mid) [] e h hdev hlast
    · simp only [List.cons_append, List.erase_cons_head]
      apply Linked.relink h.linked.2
      · intro a ha
        have hac : a ≠ c := by
          rintro rfl
          exact (List.nodup_append.mp hnd).2.2 a ha a (by simp) rfl
        rw [next_ethUnlink, if_neg hac]
      · rw [next_ethUnlink, if_pos rfl, hnext, hhead]
    · simp only [List.cons_append, List.erase_cons_head]
      rw [ethDevices_ethUnlink, next_ethUnlink, hd, if_pos rfl, if_neg hne, hnext, hhead,
        if_neg (by simpa using hyd)]

theorem ethUnregister_middle {s : Host} {pre post : List Nat} {c dev : Nat} (e : Env)
    (h : Ring s (pre ++ c :: dev :: post)) :
    ∃ s', ethUnregister (leaving e) s dev = some (0, s') ∧ s'.eth.count = s.eth.count ∧
      Ring s' ((pre ++ c :: dev :: post).erase dev) := by
  have hnd := h.nodup
  rw [List.append_cons] at hnd
  obtain ⟨hfront, hback, hsep⟩ := List.nodup_append.mp hnd
  have hdev : dev ∉ pre ++ [c] := fun hm => hsep dev hm dev List.mem_cons_self rfl
  have hcpost : ∀ a ∈ pre ++ post, a ≠ c := by
    rintro a ha rfl
    rcases List.mem_append.mp ha with ha | ha
    · exact (List.nodup_append.mp hfront).2.2 a ha a (by simp) rfl
    · exact hsep a (by simp) a (List.mem_cons_of_mem _ ha) rfl
  have herase : (pre ++ c :: dev :: post).erase dev = pre ++ c :: post := by
    rw [List.append_cons, List.erase_append_right _ hdev, List.erase_cons_head,
      ← List.append_cons]
  have hc : s.next c = some dev := (linked_append.mp h.linked).2.1
  obtain ⟨head, hmem, hh, hh'⟩ := head_append_cons pre (dev :: post) c
  obtain ⟨head', -, hg, hg'⟩ := head_append_cons pre post c
  have hsame : head' = head := by
    rw [hh'] at hg'
    exact (Option.some.inj hg').symm
  subst hsame
  have hd : s.eth.ethDevices = some head' := h.head.trans hh
  have hne : head' ≠ dev := by
    rintro rfl
    exact hdev hmem
  apply ethUnregister_found pre (dev :: post) e h
    (fun hm => hdev (List.mem_of_mem_tail hm)) hc
  · rw [herase, hg, ← hh]
    apply h.linked.bypass
    · intro a ha
      rw [next_ethUnlink, if_neg (hcpost a ha)]
    · rw [next_ethUnlink, if_pos rfl]
  · rw [herase, hg, ethDevices_ethUnlink, hd, if_neg (by simpa using hne)]

/-- Any device may go: the first, a later one, the current one, or one that is not in the ring. -/
theorem ethUnregister_ring {s : Host} {l : List Nat} (dev : Nat) (e : Env) (h : Ring s l) :
    ∃ r s', ethUnregister (leaving e) s dev = some (r, s') ∧ s'.eth.count = s.eth.count ∧
      Ring s' (l.erase dev) := by
  by_cases hdev : dev ∈ l
  · obtain ⟨front, post, rfl⟩ := List.append_of_mem hdev
    rcases List.eq_nil_or_concat front with rfl | ⟨pre, c, rfl⟩
    · obtain ⟨s', hs', hr⟩ := ethUnregister_head e h
      exact ⟨0, s', hs', hr⟩
    · rw [List.concat_eq_append, ← List.append_cons] at *
      obtain ⟨s', hs', hr⟩ := ethUnregister_middle e h
      exact ⟨0, s', hs', hr⟩
  · rw [List.erase_of_not_mem hdev]
    exact ⟨-19, s, ethUnregister_absent e h hdev, rfl, h⟩

/-- Moving on keeps the ring and stays in it. -/
theorem ethTryAnother_ring {s : Host} {l : List Nat} (e : Env) (first : Bool) (h : Ring s l) :
    ∃ s', ethTryAnotherBy (leaving e) s first = some s' ∧ s'.eth.count = s.eth.count ∧
      Ring s' l := by
  unfold ethTryAnotherBy
  by_cases hr : rotateOff s.env = true
  · exact ⟨s, by rw [if_pos hr], rfl, h⟩
  · rw [if_neg hr]
    cases hc : s.eth.ethCurrent with
    | none => exact ⟨s, rfl, rfl, h⟩
    | some p =>
      have hp : p ∈ l := by
        rcases h.current with hn | ⟨q, hq, hq'⟩
        · rw [hc] at hn
          cases hn
        · rw [hc] at hq'
          cases hq'
          exact hq
      have hnext : ∃ q ∈ l, s.next p = some q := by
        rcases h.linked.next_mem hp with he | hq
        · cases l with
          | nil => cases hp
          | cons q l => exact ⟨q, List.mem_cons_self, he⟩
        · exact hq
      simp only [leaving, bind, Option.bind]
      generalize (if first = true then some p else s.eth.firstFailed) = failed
      split
      · exact ⟨_, rfl, rfl, h.head, h.linked, h.nodup, h.objects, Or.inr hnext⟩
      · exact ⟨_, rfl, rfl, h.head, h.linked, h.nodup, h.objects, Or.inr hnext⟩

/-- One operation keeps the ring, whatever it writes to the environment. -/
theorem RingOp.run_ring {r : Registry} {l : List Nat} (op : RingOp) (e : Env) (h : Ring r.host l)
    (ha : op.Allowed r.host.eth.count l) :
    ∃ r', op.run (leaving e) r = some r' ∧ r'.host.eth.count = r.host.eth.count ∧
      Ring r'.host (ringDevices l op) := by
  cases op with
  | ethRegister dev =>
    obtain ⟨s', hs', hr⟩ := ethRegister_ring r.index e h ha.1 ha.2
    exact ⟨⟨s', r.index + 1⟩, by simp [RingOp.run, hs'], hr⟩
  | ethUnregister dev =>
    obtain ⟨x, s', hs', hr⟩ := ethUnregister_ring dev e h
    exact ⟨{ r with host := s' }, by simp [RingOp.run, hs'], hr⟩
  | ethTryAnother first =>
    obtain ⟨s', hs', hr⟩ := ethTryAnother_ring e first h
    exact ⟨{ r with host := s' }, by simp [RingOp.run, hs'], hr⟩

def RingRun (count : Nat) : List Nat → List RingOp → Prop
  | _, [] => True
  | l, op :: ops => op.Allowed count l ∧ RingRun count (ringDevices l op) ops

/-- By induction on the operations. -/
theorem ringRun_ring {r : Registry} {l : List Nat} {ops : List (RingOp × Env)}
    (h : Ring r.host l) (ha : RingRun r.host.eth.count l (ops.map (·.1))) :
    ∃ r', ringRun r ops = some r' ∧ Ring r'.host ((ops.map (·.1)).foldl ringDevices l) := by
  induction ops generalizing r l with
  | nil => exact ⟨r, rfl, h⟩
  | cons op ops ih =>
    obtain ⟨hop, hrest⟩ := ha
    obtain ⟨r1, hr1, hcount, h1⟩ := op.1.run_ring op.2 h hop
    obtain ⟨r', hr', h'⟩ := ih h1 (by rw [hcount]; exact hrest)
    refine ⟨r', ?_, h'⟩
    rw [ringRun, List.foldlM_cons, hr1]
    exact hr'

/-- From no devices on: every run comes to its end, with the ring of the devices
registered and not unregistered since, and no device outside it can be
unregistered. -/
theorem ring_invariant (r : Registry) (hd : r.host.eth.ethDevices = none)
    (hc : r.host.eth.ethCurrent = none) (ops : List (RingOp × Env))
    (ha : RingRun r.host.eth.count [] (ops.map (·.1))) :
    ∃ r', ringRun r ops = some r' ∧
      Ring r'.host ((ops.map (·.1)).foldl ringDevices []) ∧
      (r'.host.eth.ethDevices = none ↔ (ops.map (·.1)).foldl ringDevices [] = []) ∧
      ∀ dev e, dev ∉ (ops.map (·.1)).foldl ringDevices [] →
        ethUnregister (leaving e) r'.host dev = some (-19, r'.host) := by
  have h0 : Ring r.host [] := ⟨hd, trivial, List.nodup_nil, by simp, Or.inl hc⟩
  obtain ⟨r', hr', h⟩ := ringRun_ring h0 ha
  refine ⟨r', hr', h, ?_, ?_⟩
  · rw [h.head]
    exact List.head?_eq_none_iff
  · intro dev e hdev
    exact ethUnregister_absent e h hdev

/-- Two devices enter, the second becomes the current one, the first leaves. -/
theorem ring_invariant_two :
    ∃ r, ringRun ⟨{ idleHost with eth := { idleHost.eth with
        count := 2, ethDevices := none, ethCurrent := none } }, 0⟩
      [(.ethRegister 0, idleHost.env), (.ethRegister 1, idleHost.env),
        (.ethTryAnother true, idleHost.env), (.ethUnregister 0, idleHost.env)] = some r ∧
      Ring r.host [1] := by
  obtain ⟨r, hr, h, -⟩ := ring_invariant ⟨{ idleHost with eth := { idleHost.eth with
      count := 2, ethDevices := none, ethCurrent := none } }, 0⟩ rfl rfl
    [(.ethRegister 0, idleHost.env), (.ethRegister 1, idleHost.env),
      (.ethTryAnother true, idleHost.env), (.ethUnregister 0, idleHost.env)]
    (by simp [RingRun, RingOp.Allowed, ringDevices])
  exact ⟨r, hr, h⟩

theorem ethCurrentChanged_leaving {s s' : Host} (h : ethCurrentChanged s = some s') :
    ∃ e, leaving e s = some s' := by
  cases hc : s.eth.ethCurrent with
  | some p =>
    obtain ⟨e, rfl, -⟩ := ethCurrentChanged_spec h hc
    exact ⟨e, rfl⟩
  | none =>
    obtain ⟨rfl, -⟩ := ethCurrentChanged_none h hc
    exact ⟨_, rfl⟩

theorem ethEnter_leaving {s s' : Host} {dev : Nat}
    (h : ethEnter ethCurrentChanged s dev = some s') :
    ∃ e, ethEnter (leaving e) s dev = some s' := by
  unfold ethEnter at *
  cases hd : s.eth.ethDevices with
  | none =>
    simp only [hd] at h ⊢
    exact ethCurrentChanged_leaving h
  | some head =>
    simp only [hd] at h ⊢
    exact ⟨s.env, h⟩

theorem ethUnregister_leaving {s : Host} {x : Int × Host} {dev : Nat}
    (h : ethUnregister ethCurrentChanged s dev = some x) :
    ∃ e, ethUnregister (leaving e) s dev = some x := by
  unfold ethUnregister at *
  cases hd : s.eth.ethDevices with
  | none =>
    simp only [hd] at h ⊢
    exact ⟨s.env, h⟩
  | some head =>
    simp only [hd] at h ⊢
    cases hw : walk s.next (fun cur => s.next cur == some head || s.next cur == some dev)
        s.eth.count head with
    | none => simp [hw] at h
    | some cur =>
      simp only [hw] at h ⊢
      by_cases hc : s.next cur ≠ some dev
      · simp only [if_pos hc] at h ⊢
        exact ⟨s.env, h⟩
      · simp only [if_neg hc] at h ⊢
        by_cases hcur : (ethUnlink s cur dev).eth.ethCurrent = some dev
        · simp only [if_pos hcur] at h ⊢
          obtain ⟨s', hs', rfl⟩ := Option.map_eq_some_iff.mp h
          obtain ⟨e, he⟩ := ethCurrentChanged_leaving hs'
          exact ⟨e, by rw [he]; rfl⟩
        · simp only [if_neg hcur] at h ⊢
          exact ⟨s.env, h⟩

theorem ethTryAnother_leaving {s s' : Host} {first : Bool}
    (h : ethTryAnotherBy ethCurrentChanged s first = some s') :
    ∃ e, ethTryAnotherBy (leaving e) s first = some s' := by
  unfold ethTryAnotherBy at *
  by_cases hr : rotateOff s.env = true
  · simp only [if_pos hr] at h ⊢
    exact ⟨s.env, h⟩
  · simp only [if_neg hr] at h ⊢
    cases hc : s.eth.ethCurrent with
    | none =>
      simp only [hc] at h ⊢
      exact ⟨s.env, h⟩
    | some p =>
      simp only [hc, bind, Option.bind] at h ⊢
      split at h
      · cases h
      · rename_i s1 hs1
        obtain ⟨e, he⟩ := ethCurrentChanged_leaving hs1
        refine ⟨e, ?_⟩
        simp only [he]
        exact h

/-- A step of the code itself, where it has a defined result, is one that leaves
some environment behind. -/
theorem RingOp.run_leaving {op : RingOp} {r r' : Registry}
    (h : op.run ethCurrentChanged r = some r') : ∃ e, op.run (leaving e) r = some r' := by
  cases op with
  | ethRegister dev =>
    obtain ⟨x, hx, rfl⟩ := Option.map_eq_some_iff.mp h
    unfold EmacDriver.ethRegister at hx
    split at hx
    · rename_i s hs
      obtain ⟨e, he⟩ := ethEnter_leaving hs
      cases hx
      exact ⟨e, by simp only [RingOp.run, EmacDriver.ethRegister, he, Option.map_some]⟩
    · cases hx
  | ethUnregister dev =>
    obtain ⟨x, hx, rfl⟩ := Option.map_eq_some_iff.mp h
    obtain ⟨e, he⟩ := ethUnregister_leaving hx
    exact ⟨e, by simp only [RingOp.run, he, Option.map_some]⟩
  | ethTryAnother first =>
    obtain ⟨x, hx, rfl⟩ := Option.map_eq_some_iff.mp h
    obtain ⟨e, he⟩ := ethTryAnother_leaving hx
    exact ⟨e, by simp only [RingOp.run, he, Option.map_some]⟩

/-- So whatever the code does to the devices, they stay a ring. -/
theorem ring_kept {r r' : Registry} {l : List Nat} {ops : List RingOp} (h : Ring r.host l)
    (ha : RingRun r.host.eth.count l ops)
    (hr : ops.foldlM (fun r op => op.run ethCurrentChanged r) r = some r') :
    Ring r'.host (ops.foldl ringDevices l) := by
  induction ops generalizing r l with
  | nil =>
    cases hr
    exact h
  | cons op ops ih =>
    obtain ⟨hop, hrest⟩ := ha
    cases hs : op.run ethCurrentChanged r with
    | none => simp [hs] at hr
    | some r1 =>
      obtain ⟨e, he⟩ := RingOp.run_leaving hs
      obtain ⟨r2, hr2, hcount, h2⟩ := op.run_ring e h hop
      rw [he] at hr2
      cases hr2
      rw [List.foldlM_cons, hs] at hr
      exact ih h2 (by rw [hcount]; exact hrest) hr

end EmacDriver
