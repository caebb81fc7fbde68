import EmacDriver.Proofs.RingInvariant

namespace EmacDriver
open LinkedRing

/-- `char name[ETH_NAME_LEN]`, with room for the NUL. -/
def NamesFit (s : Host) (l : List Nat) : Prop := ∀ p ∈ l, (s.eth.mem p).name.length < 16

def FailFrom (s : Host) (l : List Nat) : Prop :=
  ∀ i p, l[i]? = some p → s.hw.init (s.eth.inits + i) p < 0

/-- A search through `order` for a device that starts: it stops at the first,
or has tried them all and is back at `old`. -/
inductive InitEnd (s : Host) (old : Nat) (order : List Nat) (s' : Host) : Int → Prop where
  | found (pre post : List Nat) (p : Nat) (split : order = pre ++ p :: post)
      (failed : FailFrom s pre) (started : 0 ≤ s.hw.init (s.eth.inits + pre.length) p)
      (calls : s'.eth.inits = s.eth.inits + pre.length + 1) (current : s'.eth.ethCurrent = some p)
      (active : s'.eth.mem = fun q =>
        if q = p then { s.eth.mem p with state := .ethStateActive } else s.eth.mem q) :
      InitEnd s old order s' 0
  | exhausted (failed : FailFrom s order) (calls : s'.eth.inits = s.eth.inits + order.length)
      (current : s'.eth.ethCurrent = some old) (untouched : s'.eth.mem = s.eth.mem) :
      InitEnd s old order s' (-110)

theorem failFrom_cons {s : Host} {p : Nat} {l : List Nat} :
    FailFrom s (p :: l) ↔ s.hw.init s.eth.inits p < 0 ∧
      FailFrom { s with eth := { s.eth with inits := s.eth.inits + 1 } } l := by
  constructor
  · intro h
    refine ⟨h 0 p rfl, ?_⟩
    intro i q hq
    have hi : s.eth.inits + (i + 1) = s.eth.inits + 1 + i := by omega
    have := h (i + 1) q hq
    rwa [hi] at this
  · rintro ⟨h0, h⟩ i q hq
    cases i with
    | zero =>
      cases hq
      exact h0
    | succ i =>
      have hi : s.eth.inits + (i + 1) = s.eth.inits + 1 + i := by omega
      rw [hi]
      exact h i q hq

/-- One more failure in front of a search. -/
theorem InitEnd.skip {s s1 s' : Host} {old p : Nat} {l : List Nat} {r : Int}
    (h : InitEnd s1 old l s' r) (bad : s.hw.init s.eth.inits p < 0) (hw : s1.hw = s.hw)
    (inits : s1.eth.inits = s.eth.inits + 1) (mem : s1.eth.mem = s.eth.mem) :
    InitEnd s old (p :: l) s' r := by
  have hfail : ∀ m, FailFrom s1 m → FailFrom s (p :: m) := by
    intro m hm
    refine failFrom_cons.mpr ⟨bad, ?_⟩
    intro i q hq
    have := hm i q hq
    rwa [hw, inits] at this
  cases h with
  | found pre post c split failed started calls current active =>
    have hk : s.eth.inits + (p :: pre).length = s.eth.inits + 1 + pre.length := by
      rw [List.length_cons]
      omega
    refine .found (p :: pre) post c (by rw [split]; rfl) (hfail pre failed) ?_ ?_ current ?_
    · rw [hk, ← inits, ← hw]
      exact started
    · rw [hk, ← inits]
      exact calls
    · rw [active, mem]
  | exhausted failed calls current untouched =>
    refine .exhausted (hfail l failed) ?_ current (untouched.trans mem)
    rw [calls, inits, List.length_cons]
    omega

/-- A name that fits its field fits a slot of the environment, so the move is made. -/
theorem ethTryAnother_moves {s : Host} {p q : Nat} (hc : s.eth.ethCurrent = some p)
    (hr : rotateOff s.env = false) (hq : s.next p = some q)
    (hn : (s.eth.mem q).name.length < 16) :
    ∃ s', ethTryAnother s false = some s' ∧ s'.hw = s.hw ∧ s'.eth.inits = s.eth.inits ∧
      s'.eth.mem = s.eth.mem ∧ s'.eth.ethCurrent = some q ∧ rotateOff s'.env = false := by
  have hq : (s.eth.mem p).next = some q := hq
  obtain ⟨s1, he⟩ := @ethCurrentChanged_total
    { s with eth := { s.eth with firstFailed := s.eth.firstFailed, ethCurrent := some q } }
    q rfl (Nat.lt_trans hn (by decide))
  obtain ⟨e, rfl, hlater, -⟩ := ethCurrentChanged_spec he rfl
  have hoff : rotateOff e = false := hlater.rotate.trans hr
  unfold ethTryAnother
  simp only [hr, hc, hq, Bool.false_eq_true, if_false, he, bind, Option.bind]
  split
  · exact ⟨_, rfl, rfl, rfl, rfl, rfl, hoff⟩
  · exact ⟨_, rfl, rfl, rfl, rfl, rfl, hoff⟩

/-- With rotation the loop goes through `p :: l` until a device starts, and
stops in front of `old`. -/
theorem ethInitLoop_ring {l : List Nat} {old p n : Nat} {s : Host}
    (hlink : Linked s.next (p :: l) (some old)) (hold : old ∉ l) (hnames : NamesFit s (old :: l))
    (hr : rotateOff s.env = false) (hc : s.eth.ethCurrent = some p) (hn : l.length < n) :
    ∃ r s', ethInitLoop old n s = some (r, s') ∧ InitEnd s old (p :: l) s' r := by
  induction l generalizing p n s with
  | nil =>
    obtain ⟨n, rfl⟩ : ∃ m, n = m + 1 := ⟨n - 1, by omega⟩
    unfold ethInitLoop
    rw [hc]
    dsimp only
    split
    · rename_i hok
      exact ⟨0, _, rfl, .found [] [] p rfl (fun i q h => by cases h) hok rfl hc rfl⟩
    · rename_i hbad
      obtain ⟨s1, hs1, hw, hinits, hmem, hcur, -⟩ := @ethTryAnother_moves
        { s with eth := { s.eth with inits := s.eth.inits + 1 } } p old hc hr hlink.1
        (hnames old List.mem_cons_self)
      rw [hs1]
      dsimp only
      rw [if_neg (not_not.mpr hcur)]
      exact ⟨-110, s1, rfl, .exhausted
        (failFrom_cons.mpr ⟨Int.not_le.mp hbad, fun i q h => by cases h⟩) hinits hcur hmem⟩
  | cons q l ih =>
    obtain ⟨n, rfl⟩ : ∃ m, n = m + 1 := ⟨n - 1, by omega⟩
    unfold ethInitLoop
    rw [hc]
    dsimp only
    split
    · rename_i hok
      exact ⟨0, _, rfl, .found [] (q :: l) p rfl (fun i q h => by cases h) hok rfl hc rfl⟩
    · rename_i hbad
      obtain ⟨s1, hs1, hw, hinits, hmem, hcur, hr1⟩ := @ethTryAnother_moves
        { s with eth := { s.eth with inits := s.eth.inits + 1 } } p q hc hr hlink.1
        (hnames q (by simp))
      have hother : s1.eth.ethCurrent ≠ some old := by
        rw [hcur]
        rintro ⟨⟩
        exact hold List.mem_cons_self
      have hnext : s1.next = s.next := by
        funext d
        simp only [Host.next, hmem]
      have hfit : NamesFit s1 (old :: l) := by
        intro d hd
        rw [hmem]
        apply hnames
        rcases List.mem_cons.mp hd with rfl | hd
        · exact List.mem_cons_self
        · simp [hd]
      obtain ⟨r, s', hrun, hend⟩ := ih (by rw [hnext]; exact hlink.2)
        (fun h => hold (List.mem_cons_of_mem _ h)) hfit hr1 hcur (by simpa using hn)
      rw [hs1]
      dsimp only
      rw [if_pos hother]
      exact ⟨r, s', hrun, hend.skip (Int.not_le.mp hbad) hw hinits hmem⟩

/-- With rotation off it comes back to `old` at once. -/
theorem ethInitLoop_stay {old n : Nat} {s : Host} (hr : rotateOff s.env = true)
    (hc : s.eth.ethCurrent = some old) :
    ∃ r s', ethInitLoop old (n + 1) s = some (r, s') ∧ InitEnd s old [old] s' r := by
  unfold ethInitLoop
  rw [hc]
  dsimp only
  split
  · rename_i hok
    exact ⟨0, _, rfl, .found [] [] old rfl (fun i q h => by cases h) hok rfl hc rfl⟩
  · rename_i hbad
    simp only [ethTryAnother, hr, if_true, hc, ne_eq, not_true_eq_false, if_false]
    exact ⟨-110, _, rfl, .exhausted
      (failFrom_cons.mpr ⟨Int.not_le.mp hbad, fun i q h => by cases h⟩) rfl rfl rfl⟩

/-- The search ends, within one `init` call for each device of the ring. -/
theorem eth_init_search (s : Host) (pre post : List Nat) (p : Nat) (h : Ring s (pre ++ p :: post))
    (hc : s.eth.ethCurrent = some p) (hnames : NamesFit s (pre ++ p :: post)) :
    ∃ r s', ethInit s = some (r, s') ∧
      InitEnd s p (if rotateOff s.env then [p] else p :: (post ++ pre)) s' r ∧
      (p :: (post ++ pre)).Nodup := by
  have hperm : (p :: post ++ pre).Perm (pre ++ p :: post) := List.perm_append_comm
  have hnodup := hperm.nodup_iff.mpr h.nodup
  have hlen := h.length_le
  rw [← hperm.length_eq] at hlen
  unfold ethInit
  rw [hc]
  dsimp only
  cases hr : rotateOff s.env with
  | true =>
    obtain ⟨n, hn⟩ := Nat.exists_eq_succ_of_ne_zero (Nat.ne_zero_of_lt hlen)
    rw [hn]
    obtain ⟨r, s', hrun, hend⟩ := ethInitLoop_stay (n := n) hr hc
    exact ⟨r, s', hrun, hend, hnodup⟩
  | false =>
    obtain ⟨r, s', hrun, hend⟩ := ethInitLoop_ring (h.linked.rotate) (List.nodup_cons.mp hnodup).1
      (fun d hd => hnames d (hperm.mem_iff.mp hd)) hr hc hlen
    exact ⟨r, s', hrun, hend, hnodup⟩

def twoDevices : Host :=
  { idleHost with
    hw := { idleHost.hw with init := fun _ p => if p = 0 then -1 else 0 }
    eth := { idleHost.eth with
      mem := fun p => {
        name := cstr (if p = 0 then "eth0" else "eth1"), enetaddr := Vector.replicate 6 2
        state := .ethStateInit, next := some (1 - p), index := p }
      count := 2 } }

theorem eth_init_search_second :
    ∃ r s', ethInit twoDevices = some (r, s') ∧ InitEnd twoDevices 0 [0, 1] s' r := by
  have hring : Ring twoDevices ([] ++ 0 :: [1]) := by
    refine ⟨rfl, ⟨rfl, rfl, trivial⟩, by decide, ?_, Or.inr ⟨0, by decide, rfl⟩⟩
    intro p hp
    revert p
    decide
  have hnames : NamesFit twoDevices ([] ++ 0 :: [1]) := by
    intro p hp
    revert p
    decide
  obtain ⟨r, s', hrun, hend, -⟩ := eth_init_search twoDevices [] [1] 0 hring rfl hnames
  have hoff : rotateOff twoDevices.env = false := by decide
  rw [hoff] at hend
  exact ⟨r, s', hrun, hend⟩

end EmacDriver
