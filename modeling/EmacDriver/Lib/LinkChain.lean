import Mathlib.Data.List.Chain
import Mathlib.Data.List.Nodup
import Mathlib.Logic.Function.Basic

namespace LinkChain

structure Cells (α : Type) where
  next : α → α
  prev : α → α

variable {α : Type} {m : Cells α} {h p q n x y : α} {a b l : List α}

def Linked (m : Cells α) (x y : α) : Prop := m.next x = y ∧ m.prev y = x

def Run (m : Cells α) (l : List α) : Prop := l.IsChain (Linked m)

def Path (m : Cells α) (p : α) (l : List α) (n : α) : Prop := Run m (p :: (l ++ [n]))

def Ring (m : Cells α) (h : α) (l : List α) : Prop := Path m h l h

theorem run_singleton (x : α) : Run m [x] := List.isChain_singleton x

theorem run_cons : Run m (x :: y :: l) ↔ Linked m x y ∧ Run m (y :: l) := List.isChain_cons_cons

theorem Run.of_cons (hr : Run m (x :: l)) : Run m l := List.IsChain.of_cons hr

/-- Two runs, the last node of one being linked to the first of the other. -/
theorem run_append : Run m (p :: a ++ (b ++ [n])) ↔
    Run m (p :: a) ∧ Linked m (a.getLastD p) (b.headD n) ∧ Run m (b ++ [n]) := by
  induction a generalizing p with
  | nil =>
    cases b with
    | nil => simp [Run]
    | cons y b => simp [Run]
  | cons z a ih =>
    rw [List.cons_append, List.cons_append, run_cons, run_cons, ← List.cons_append, ih,
      List.getLastD_cons, and_assoc]

theorem path_append : Path m p (a ++ b) n ↔
    Run m (p :: a) ∧ Linked m (a.getLastD p) (b.headD n) ∧ Run m (b ++ [n]) := by
  rw [Path, ← run_append, List.append_assoc, List.cons_append]

theorem path_last : Path m p a n ↔ Run m (p :: a) ∧ Linked m (a.getLastD p) n := by
  rw [← List.append_nil a, path_append, List.append_nil]
  exact and_congr_right fun _ => and_iff_left (run_singleton n)

theorem path_first : Path m p b n ↔ Linked m p (b.headD n) ∧ Run m (b ++ [n]) := by
  rw [← List.nil_append b, path_append]
  exact and_iff_right (run_singleton p)

theorem path_cons : Path m p (x :: l) n ↔ Linked m p x ∧ Path m x l n := run_cons

/-- The nodes show the ones before them. -/
theorem Path.backward (hp : Path m p l n) : (l ++ [n]).map m.prev = p :: l := by
  induction l generalizing p with
  | nil => exact congrArg (fun x => [x]) (run_cons.mp hp).1.2
  | cons x l ih =>
    obtain ⟨hlink, hrest⟩ := path_cons.mp hp
    rw [List.cons_append, List.map_cons, hlink.2, ih hrest]

/-- A path through `x` is a path to it and one from it. -/
theorem path_through : Path m p (a ++ x :: b) n ↔ Path m p a x ∧ Path m x b n := by
  induction a generalizing p with
  | nil =>
    rw [List.nil_append, path_cons]
    exact and_congr_left fun _ => (and_iff_left (run_singleton x)).symm.trans run_cons.symm
  | cons y a ih => rw [List.cons_append, path_cons, path_cons, ih, and_assoc]

theorem Path.next (hp : Path m p l n) : m.next p = l.headD n := by
  exact (path_first.mp hp).1.1

theorem Path.prev (hp : Path m p l n) : m.prev n = l.getLastD p := by
  exact (path_last.mp hp).2.2

theorem not_mem_dropLast (hd : (p :: a).Nodup) : a.getLastD p ∉ (p :: a).dropLast := by
  induction a generalizing p with
  | nil => simp
  | cons x a ih =>
    obtain ⟨hp, hd⟩ := List.nodup_cons.mp hd
    rw [List.getLastD_cons, List.dropLast_cons_cons, List.mem_cons, not_or]
    refine ⟨?_, ih hd⟩
    intro he
    apply hp
    rw [← he]
    exact List.getLastD_mem_cons

theorem not_mem_tail (hd : (b ++ [n]).Nodup) : b.headD n ∉ (b ++ [n]).tail := by
  cases b with
  | nil => simp
  | cons x b => exact (List.nodup_cons.mp hd).1

section Nodup

theorem headD_mem : b.headD n ∈ b ++ [n] := by
  cases b with
  | nil => exact List.mem_cons_self
  | cons x b => exact List.mem_cons_self

theorem nodup_front (hd : (h :: (a ++ b)).Nodup) : (h :: a).Nodup :=
  hd.sublist (List.cons_sublist_cons.mpr (List.sublist_append_left a b))

theorem nodup_back (hd : (h :: (a ++ b)).Nodup) : (b ++ [h]).Nodup := by
  have hback : (h :: b).Nodup :=
    hd.sublist (List.cons_sublist_cons.mpr (List.sublist_append_right a b))
  exact (List.perm_append_singleton h b).nodup_iff.mpr hback

theorem not_back (hd : (h :: (a ++ b)).Nodup) (hx : x ∈ h :: a) : x ∉ b := by
  rw [← List.cons_append] at hd
  exact fun hb => (List.nodup_append.mp hd).2.2 x hx x hb rfl

theorem not_front (hd : (h :: (a ++ b)).Nodup) (hy : y ∈ b ++ [h]) : y ∉ a := by
  obtain ⟨hh, hab⟩ := List.nodup_cons.mp hd
  intro ha
  obtain hb | hb := List.mem_append.mp hy
  · exact (List.nodup_append.mp hab).2.2 y ha y hb rfl
  · rw [List.mem_singleton] at hb
    subst hb
    exact hh (List.mem_append_left b ha)

end Nodup

section Links
variable [DecidableEq α]

/-- `x->next = y` and `y->prev = x`. -/
def Cells.link (m : Cells α) (x y : α) : Cells α where
  next := Function.update m.next x y
  prev := Function.update m.prev y x

theorem linked_link : Linked (m.link x y) x y :=
  ⟨Function.update_self .., Function.update_self ..⟩

theorem Linked.link (hl : Linked m p q) (hx : p ≠ x) (hy : q ≠ y) : Linked (m.link x y) p q :=
  ⟨(Function.update_of_ne hx ..).trans hl.1, (Function.update_of_ne hy ..).trans hl.2⟩

/-- A run that neither goes on from `x` nor comes to `y`. -/
theorem Run.link (hr : Run m l) (hx : x ∉ l.dropLast) (hy : y ∉ l.tail) : Run (m.link x y) l := by
  induction l with
  | nil => exact List.isChain_nil
  | cons z l ih =>
    cases l with
    | nil => exact run_singleton z
    | cons w l =>
      obtain ⟨hzw, hrest⟩ := run_cons.mp hr
      rw [List.dropLast_cons_cons, List.mem_cons, not_or] at hx
      rw [List.tail_cons, List.mem_cons, not_or] at hy
      have hy' : y ∉ (w :: l).tail := hy.2
      exact run_cons.mpr ⟨hzw.link (Ne.symm hx.1) (Ne.symm hy.1), ih hrest hx.2 hy'⟩

/-- The last node linked to something else. -/
theorem Run.link_last (hr : Run m (h :: a)) (hd : (h :: a).Nodup) (hy : y ∉ a) :
    Run (m.link (a.getLastD h) y) (h :: a) :=
  hr.link (not_mem_dropLast hd) hy

/-- The first node linked to from elsewhere. -/
theorem Run.link_first (hr : Run m (b ++ [h])) (hd : (b ++ [h]).Nodup) (hx : x ∉ b) :
    Run (m.link x (b.headD h)) (b ++ [h]) := by
  apply hr.link _ (not_mem_tail hd)
  rwa [List.dropLast_concat]

/-- A node put in between. -/
theorem ring_insert (ha : Run m (h :: a)) (hb : Run m (b ++ [h])) (hd : (h :: (a ++ b)).Nodup)
    (hn : n ∉ h :: (a ++ b)) :
    Ring ((m.link n (b.headD h)).link (a.getLastD h) n) h (a ++ n :: b) := by
  rw [List.mem_cons, List.mem_append, not_or, not_or] at hn
  obtain ⟨hnh, hna, hnb⟩ := hn
  have hlast : a.getLastD h ∈ h :: a := List.getLastD_mem_cons
  have hlastb := not_back hd hlast
  have hheada := not_front hd headD_mem
  have hfront : n ∉ h :: a := by
    rw [List.mem_cons, not_or]
    exact ⟨hnh, hna⟩
  have hback : n ∉ b ++ [h] := by
    rw [List.mem_append, List.mem_singleton, not_or]
    exact ⟨hnb, hnh⟩
  apply path_through.mpr
  constructor
  · have hrun := (ha.link (fun hm => hfront (List.dropLast_subset _ hm)) hheada).link_last (y := n)
      (nodup_front hd) hna
    exact path_last.mpr ⟨hrun, linked_link⟩
  · have hrun := (hb.link_first (nodup_back hd) hnb).link (x := a.getLastD h) (y := n)
      (by rwa [List.dropLast_concat]) (fun hm => hback (List.mem_of_mem_tail hm))
    refine path_first.mpr ⟨?_, hrun⟩
    apply linked_link.link
    · intro he
      exact hfront (he ▸ hlast)
    · intro he
      exact hback (he ▸ headD_mem)

/-- A node, or nothing, taken out between. -/
theorem ring_close (ha : Run m (h :: a)) (hb : Run m (b ++ [h])) (hd : (h :: (a ++ b)).Nodup) :
    Ring (m.link (a.getLastD h) (b.headD h)) h (a ++ b) :=
  path_append.mpr ⟨ha.link_last (nodup_front hd) (not_front hd headD_mem), linked_link,
    hb.link_first (nodup_back hd) (not_back hd List.getLastD_mem_cons)⟩

/-- A run put in between. -/
theorem ring_splice {k : List α} (ha : Run m (h :: a)) (hb : Run m (b ++ [h]))
    (hk : Run m (x :: k)) (hd : (h :: (a ++ b)).Nodup) (hkd : (x :: k).Nodup)
    (hoff : ∀ y ∈ x :: k, y ∉ h :: (a ++ b)) :
    Ring ((m.link (a.getLastD h) x).link (k.getLastD x) (b.headD h)) h (a ++ (x :: k ++ b)) := by
  have hfront {y : α} (hy : y ∈ x :: k) : y ∉ h :: a := by
    intro hm
    apply hoff y hy
    rw [← List.cons_append]
    exact List.mem_append_left b hm
  have hback {y : α} (hy : y ∈ x :: k) : y ∉ b ++ [h] := by
    intro hm
    apply hoff y hy
    rw [List.mem_append, List.mem_singleton] at hm
    rw [List.mem_cons, List.mem_append]
    exact hm.elim (fun hb => Or.inr (Or.inr hb)) Or.inl
  have hx : x ∈ x :: k := List.mem_cons_self
  have hlast : k.getLastD x ∈ x :: k := List.getLastD_mem_cons
  have hp : a.getLastD h ∈ h :: a := List.getLastD_mem_cons
  have hq : b.headD h ∈ b ++ [h] := headD_mem
  have hxa : x ∉ a := fun hm => hfront hx (List.mem_cons_of_mem h hm)
  have hrun : Run ((m.link (a.getLastD h) x).link (k.getLastD x) (b.headD h)) (h :: a) :=
    (ha.link_last (nodup_front hd) hxa).link
      (fun hm => hfront hlast (List.dropLast_subset _ hm)) (not_front hd hq)
  have hmid : Run ((m.link (a.getLastD h) x).link (k.getLastD x) (b.headD h)) (x :: k) := by
    have hpk : a.getLastD h ∉ x :: k := fun hm => hfront hm hp
    have hqk : b.headD h ∉ k := fun hm => hback (List.mem_cons_of_mem x hm) hq
    exact (hk.link (fun hm => hpk (List.dropLast_subset _ hm)) (List.nodup_cons.mp hkd).1).link_last
      hkd hqk
  have hrest : Run ((m.link (a.getLastD h) x).link (k.getLastD x) (b.headD h)) (b ++ [h]) := by
    have hpb := not_back hd hp
    refine (hb.link (by rwa [List.dropLast_concat]) ?_).link_first (nodup_back hd) ?_
    · exact fun hm => hback hx (List.mem_of_mem_tail hm)
    · exact fun hm => hback hlast (List.mem_append_left _ hm)
  refine path_append.mpr ⟨hrun, ?_, ?_⟩
  · apply linked_link.link
    · exact fun he => hfront hlast (he ▸ hp)
    · exact fun he => hback hx (he ▸ hq)
  · rw [List.append_assoc, run_append]
    exact ⟨hmid, linked_link, hrest⟩

/-- The nodes of a run closed to a ring with a new head. -/
theorem ring_rehead (hr : Run m l) (hd : l.Nodup) (hn : n ∉ l) :
    Ring ((m.link n (l.headD n)).link (l.getLastD n) n) n l := by
  cases l with
  | nil => exact path_last.mpr ⟨run_singleton n, linked_link⟩
  | cons x l =>
    rw [List.mem_cons, not_or] at hn
    have hlast : l.getLastD x ∈ x :: l := List.getLastD_mem_cons
    rw [List.getLastD_cons]
    refine path_cons.mpr ⟨?_, path_last.mpr ⟨?_, linked_link⟩⟩
    · apply linked_link.link
      · intro he
        rw [← he, List.mem_cons] at hlast
        exact hlast.elim hn.1 hn.2
      · exact Ne.symm hn.1
    · apply (hr.link _ (List.nodup_cons.mp hd).1).link_last hd hn.2
      intro hm
      exact (List.mem_cons.mp (List.dropLast_subset _ hm)).elim hn.1 hn.2

end Links

theorem Ring.congr {m' : Cells α} (hr : Ring m h l)
    (hsame : ∀ x ∈ h :: l, m'.next x = m.next x ∧ m'.prev x = m.prev x) : Ring m' h l := by
  have hmem {z : α} (hz : z ∈ h :: (l ++ [h])) : z ∈ h :: l := by
    rw [List.mem_cons, List.mem_append, List.mem_singleton] at hz
    rw [List.mem_cons]
    tauto
  apply List.IsChain.imp_of_mem_imp _ hr
  intro u v hu hv huv
  exact ⟨(hsame u (hmem hu)).1.trans huv.1, (hsame v (hmem hv)).2.trans huv.2⟩

/-- Rings that have no node in common, found by their heads. -/
structure Family (m : Cells α) (L : α → Option (List α)) : Prop where
  ring : ∀ h l, L h = some l → Ring m h l
  nodup : ∀ h l, L h = some l → (h :: l).Nodup
  apart : ∀ g h k l, L g = some k → L h = some l → g ≠ h → ∀ x ∈ g :: k, x ∉ h :: l

def Unlinked (L : α → Option (List α)) (x : α) : Prop := ∀ h l, L h = some l → x ∉ h :: l

/-- The same links, but for nodes that are on no ring. -/
def Agree (L : α → Option (List α)) (m m' : Cells α) : Prop :=
  ∀ z, ¬Unlinked L z → m'.next z = m.next z ∧ m'.prev z = m.prev z

section Family
variable {m' : Cells α} {L : α → Option (List α)}

theorem Agree.refl (L : α → Option (List α)) (m : Cells α) : Agree L m m := fun _ _ => ⟨rfl, rfl⟩

/-- Links of other nodes do not matter to the rings. -/
theorem Family.agree (F : Family m L) (ha : Agree L m m') : Family m' L :=
  ⟨fun h l hl => (F.ring h l hl).congr fun x hx => ha x fun hf => hf h l hl hx, F.nodup, F.apart⟩

variable [DecidableEq α]

/-- A ring that is no longer of interest. -/
theorem Family.drop (F : Family m L) (h : α) : Family m (Function.update L h none) := by
  have hold {g : α} {k : List α} (hk : Function.update L h none g = some k) : L g = some k := by
    by_cases he : g = h
    · rw [he, Function.update_self] at hk
      cases hk
    · rwa [Function.update_of_ne he] at hk
  exact ⟨fun g k hk => F.ring g k (hold hk), fun g k hk => F.nodup g k (hold hk),
    fun g g' k k' hk hk' => F.apart g g' k k' (hold hk) (hold hk')⟩

theorem Unlinked.drop (hx : Unlinked L x) (h : α) : Unlinked (Function.update L h none) x := by
  intro g k hk
  by_cases he : g = h
  · rw [he, Function.update_self] at hk
    cases hk
  · rw [Function.update_of_ne he] at hk
    exact hx g k hk

theorem Unlinked.set (hx : Unlinked L x) (hxl : x ∉ h :: l) :
    Unlinked (Function.update L h (some l)) x := by
  intro g k hk
  by_cases he : g = h
  · subst he
    rw [Function.update_self] at hk
    rwa [← Option.some.inj hk]
  · rw [Function.update_of_ne he] at hk
    exact hx g k hk

/-- A ring that is given up frees its nodes. -/
theorem Family.free_of_mem (F : Family m L) (hl : L h = some l) (hx : x ∈ h :: l) :
    Unlinked (Function.update L h none) x := by
  intro g k hk hxk
  by_cases he : g = h
  · rw [he, Function.update_self] at hk
    cases hk
  · rw [Function.update_of_ne he] at hk
    exact F.apart g h k l hk hl he x hxk hx

/-- A ring of nodes that are on none. -/
theorem Family.add (F : Family m L) (hfree : ∀ x ∈ h :: l, Unlinked L x) (hring : Ring m' h l)
    (hd : (h :: l).Nodup) (hsame : Agree L m m') : Family m' (Function.update L h (some l)) := by
  have hcases {g : α} {k : List α} (hk : Function.update L h (some l) g = some k) :
      g = h ∧ k = l ∨ g ≠ h ∧ L g = some k := by
    by_cases he : g = h
    · rw [he, Function.update_self] at hk
      exact Or.inl ⟨he, (Option.some.inj hk).symm⟩
    · rw [Function.update_of_ne he] at hk
      exact Or.inr ⟨he, hk⟩
  refine ⟨?_, ?_, ?_⟩
  · intro g k hk
    obtain ⟨rfl, rfl⟩ | ⟨-, hk⟩ := hcases hk
    · exact hring
    · exact (F.ring g k hk).congr fun x hx => hsame x fun hf => hf g k hk hx
  · intro g k hk
    obtain ⟨rfl, rfl⟩ | ⟨-, hk⟩ := hcases hk
    · exact hd
    · exact F.nodup g k hk
  · intro g g' k k' hk hk' hne x hx hx'
    obtain ⟨rfl, rfl⟩ | ⟨-, hold⟩ := hcases hk
    · obtain ⟨rfl, rfl⟩ | ⟨-, hk'⟩ := hcases hk'
      · exact hne rfl
      · exact hfree x hx g' k' hk' hx'
    · obtain ⟨rfl, rfl⟩ | ⟨-, hk'⟩ := hcases hk'
      · exact hfree x hx' g k hold hx
      · exact F.apart g g' k k' hold hk' hne x hx hx'

theorem Agree.link (ha : Agree L m m') (hx : Unlinked L x) (hy : Unlinked L y) :
    Agree L m (m'.link x y) := by
  intro z hz
  obtain ⟨hnext, hprev⟩ := ha z hz
  constructor
  · refine (Function.update_of_ne ?_ ..).trans hnext
    rintro rfl
    exact hz hx
  · refine (Function.update_of_ne ?_ ..).trans hprev
    rintro rfl
    exact hz hy

/-- What takes the place of the ring of `h`. -/
theorem Family.set {l' : List α} (F : Family m L) (hl : L h = some l)
    (hfree : ∀ x ∈ l', x ∈ l ∨ Unlinked L x) (hring : Ring m' h l') (hd : (h :: l').Nodup)
    (hsame : Agree (Function.update L h none) m m') :
    Family m' (Function.update L h (some l')) := by
  have hadd := (F.drop h).add (l := l') ?_ hring hd hsame
  · rwa [Function.update_idem] at hadd
  · intro x hx
    obtain rfl | hx := List.mem_cons.mp hx
    · exact F.free_of_mem hl List.mem_cons_self
    · obtain hx | hx := hfree x hx
      · exact F.free_of_mem hl (List.mem_cons_of_mem h hx)
      · exact hx.drop h

end Family

end LinkChain
