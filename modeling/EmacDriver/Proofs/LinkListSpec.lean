import EmacDriver.LinkList

namespace EmacDriver
open LinkChain ListHeads

variable {α : Type} {m : ListHeads α} {L : α → Option (List α)} {h n e : α}
  {a b l : List α}

theorem ring_parts (hr : Ring m h (a ++ b)) : Run m (h :: a) ∧ Run m (b ++ [h]) :=
  ⟨(path_append.mp hr).1, (path_append.mp hr).2.2⟩

/-- The neighbours of an entry, and the list without it. -/
theorem ring_around (hr : Ring m h (a ++ e :: b)) :
    m.prev e = a.getLastD h ∧ m.next e = b.headD h ∧ Run m (h :: a) ∧ Run m (b ++ [h]) := by
  obtain ⟨hfront, hback⟩ := path_through.mp hr
  exact ⟨hfront.prev, hback.next, (path_last.mp hfront).1, (path_first.mp hback).2⟩

theorem mem_of_front (a b : List α) (h : α) : a.getLastD h ∈ h :: (a ++ b) := by
  rw [← List.cons_append]
  exact List.mem_append_left b List.getLastD_mem_cons

theorem mem_of_back (a b : List α) (h : α) : b.headD h ∈ h :: (a ++ b) := by
  cases b with
  | nil => exact List.mem_cons_self
  | cons x b => exact List.mem_cons_of_mem h (List.mem_append_right a List.mem_cons_self)

theorem not_mem_around (hd : (h :: (a ++ e :: b)).Nodup) : e ∉ a := by
  intro ha
  exact (List.nodup_append.mp (List.nodup_cons.mp hd).2).2.2 e ha e List.mem_cons_self rfl

variable [DecidableEq α]

/-- An entry goes in between `a` and `b`. -/
theorem family_insert (F : Family m L) (hl : L h = some (a ++ b)) (hn : Unlinked L n) :
    Family (listAddBetween m n (a.getLastD h) (b.headD h))
      (Function.update L h (some (a ++ n :: b))) := by
  have hd := F.nodup h _ hl
  have hnl := hn h _ hl
  obtain ⟨ha, hb⟩ := ring_parts (F.ring h _ hl)
  have hnd : (h :: (a ++ n :: b)).Nodup := by
    rw [← List.cons_append, List.perm_middle.nodup_iff, List.nodup_cons, List.cons_append]
    exact ⟨hnl, hd⟩
  apply F.set hl _ (ring_insert ha hb hd hnl) hnd
  · exact ((Agree.refl _ m).link (hn.drop h) (F.free_of_mem hl (mem_of_back a b h))).link
      (F.free_of_mem hl (mem_of_front a b h)) (hn.drop h)
  · intro x hx
    rw [List.mem_append, List.mem_cons] at hx
    rw [List.mem_append]
    rcases hx with hx | rfl | hx
    · exact Or.inl (Or.inl hx)
    · exact Or.inr hn
    · exact Or.inl (Or.inr hx)

/-- The entry between `a` and `b` comes off the list. -/
theorem family_remove (F : Family m L) (hl : L h = some (a ++ e :: b)) :
    Family (listDelBetween m (m.prev e) (m.next e)) (Function.update L h (some (a ++ b))) := by
  obtain ⟨hprev, hnext, ha, hb⟩ := ring_around (F.ring h _ hl)
  have hsub : (a ++ b).Sublist (a ++ e :: b) := (List.sublist_cons_self e b).append_left a
  have hd : (h :: (a ++ b)).Nodup := (F.nodup h _ hl).sublist (List.cons_sublist_cons.mpr hsub)
  have hmem {x : α} (hx : x ∈ h :: (a ++ b)) : x ∈ h :: (a ++ e :: b) :=
    (List.cons_sublist_cons.mpr hsub).subset hx
  rw [hprev, hnext]
  apply F.set hl _ (ring_close ha hb hd) hd
  · exact (Agree.refl _ m).link (F.free_of_mem hl (hmem (mem_of_front a b h)))
      (F.free_of_mem hl (hmem (mem_of_back a b h)))
  · exact fun x hx => Or.inl (hsub.subset hx)

/-- Another entry in its place. -/
theorem family_replace (F : Family m L) (hl : L h = some (a ++ e :: b)) (hn : Unlinked L n) :
    Family (listReplace m e n) (Function.update L h (some (a ++ n :: b))) := by
  obtain ⟨hprev, hnext, ha, hb⟩ := ring_around (F.ring h _ hl)
  have hd' := F.nodup h _ hl
  have hsub : (a ++ b).Sublist (a ++ e :: b) := (List.sublist_cons_self e b).append_left a
  have hd : (h :: (a ++ b)).Nodup := hd'.sublist (List.cons_sublist_cons.mpr hsub)
  have hmem {x : α} (hx : x ∈ h :: (a ++ b)) : x ∈ h :: (a ++ e :: b) :=
    (List.cons_sublist_cons.mpr hsub).subset hx
  have hnl : n ∉ h :: (a ++ b) := fun hx => hn h _ hl (hmem hx)
  have hnd : (h :: (a ++ n :: b)).Nodup := by
    rw [← List.cons_append, List.perm_middle.nodup_iff, List.nodup_cons, List.cons_append]
    exact ⟨hnl, hd⟩
  have hne : e ≠ b.headD h := by
    rw [← List.cons_append, List.perm_middle.nodup_iff, List.nodup_cons, List.cons_append] at hd'
    intro he
    apply hd'.1
    rw [he]
    exact mem_of_back a b h
  have hkept : (m.link n (b.headD h)).prev e = a.getLastD h :=
    (Function.update_of_ne hne ..).trans hprev
  simp only [listReplace, hnext, hkept]
  apply F.set hl _ (ring_insert ha hb hd hnl) hnd
  · exact ((Agree.refl _ m).link (hn.drop h) (F.free_of_mem hl (hmem (mem_of_back a b h)))).link
      (F.free_of_mem hl (hmem (mem_of_front a b h))) (hn.drop h)
  · intro x hx
    rw [List.mem_append, List.mem_cons] at hx
    rw [List.mem_append, List.mem_cons]
    rcases hx with hx | rfl | hx
    · exact Or.inl (Or.inl hx)
    · exact Or.inr hn
    · exact Or.inl (Or.inr (Or.inr hx))

/-- The head itself replaced. -/
theorem family_rehead (F : Family m L) (hl : L h = some l) (hn : Unlinked L n) :
    Family (listReplace m h n) (Function.update (Function.update L h none) n (some l)) := by
  have hring := F.ring h l hl
  have hd := F.nodup h l hl
  have hnl := hn h l hl
  rw [List.mem_cons, not_or] at hnl
  have hmem {x : α} (hx : x ∈ l) : Unlinked (Function.update L h none) x :=
    F.free_of_mem hl (List.mem_cons_of_mem h hx)
  have hnd : (n :: l).Nodup := List.nodup_cons.mpr ⟨hnl.2, (List.nodup_cons.mp hd).2⟩
  have hoff : ∀ x ∈ n :: l, Unlinked (Function.update L h none) x := by
    intro x hx
    obtain rfl | hx := List.mem_cons.mp hx
    · exact hn.drop h
    · exact hmem hx
  have hnew := hn.drop h
  have hold := F.free_of_mem hl List.mem_cons_self
  cases l with
  | nil =>
    -- the first two stores are seen by the last two
    have hnext : m.next h = h := hring.next
    have hself : (m.link n h).prev h = n := Function.update_self ..
    simp only [listReplace, hnext, hself]
    apply (F.drop h).add hoff (path_last.mpr ⟨run_singleton n, linked_link⟩) hnd
    exact ((Agree.refl _ m).link hnew hold).link hnew hnew
  | cons x l =>
    have hnext : m.next h = x := hring.next
    have hprev : m.prev h = l.getLastD x := hring.prev.trans (List.getLastD_cons ..)
    have hne : h ≠ x := fun he => (List.nodup_cons.mp hd).1 (he ▸ List.mem_cons_self)
    have hkept : (m.link n x).prev h = l.getLastD x := (Function.update_of_ne hne ..).trans hprev
    have hrun : Run m (x :: l) := (path_last.mp (path_cons.mp hring).2).1
    have hnring := ring_rehead hrun (List.nodup_cons.mp hnd).2 hnl.2
    rw [List.headD_cons, List.getLastD_cons] at hnring
    simp only [listReplace, hnext, hkept]
    apply (F.drop h).add hoff hnring hnd
    exact ((Agree.refl _ m).link hnew (hmem List.mem_cons_self)).link
      (hmem List.getLastD_mem_cons) hnew

/-- An empty list at `h`, whatever was there. -/
theorem family_init (F : Family m L) (hn : Unlinked (Function.update L h none) h) :
    Family (initListHead m h) (Function.update L h (some [])) := by
  have hadd := (F.drop h).add (l := [])
    (fun x hx => (List.mem_singleton.mp hx) ▸ hn)
    (path_last.mpr ⟨run_singleton h, linked_link⟩) (List.nodup_singleton h)
    ((Agree.refl _ m).link hn hn)
  rwa [Function.update_idem] at hadd

/-- All entries of one list go in between `a` and `b`. -/
theorem family_splice {s x : α} {k : List α} (F : Family m L) (hs : L s = some (x :: k))
    (hl : L h = some (a ++ b)) (hne : s ≠ h) :
    Family (listSpliceBetween m s (a.getLastD h) (b.headD h))
      (Function.update (Function.update L s none) h (some (a ++ (x :: k ++ b)))) := by
  have hring := F.ring s _ hs
  have hfirst : m.next s = x := hring.next
  have hlast : m.prev s = k.getLastD x := hring.prev.trans (List.getLastD_cons ..)
  have hrun : Run m (x :: k) := (path_last.mp (path_cons.mp hring).2).1
  have hd := F.nodup h _ hl
  have hkd := (List.nodup_cons.mp (F.nodup s _ hs)).2
  obtain ⟨ha, hb⟩ := ring_parts (F.ring h _ hl)
  have hl' : Function.update L s none h = some (a ++ b) := by
    rwa [Function.update_of_ne (Ne.symm hne)]
  have hfree : ∀ y ∈ x :: k, Unlinked (Function.update L s none) y :=
    fun y hy => F.free_of_mem hs (List.mem_cons_of_mem s hy)
  have hoff : ∀ y ∈ x :: k, y ∉ h :: (a ++ b) := fun y hy => hfree y hy h _ hl'
  have hnd : (h :: (a ++ (x :: k ++ b))).Nodup := by
    have hperm : (h :: (a ++ (x :: k ++ b))).Perm (x :: k ++ (h :: (a ++ b))) := by
      rw [← List.cons_append, ← List.cons_append, ← List.append_assoc, ← List.append_assoc]
      exact List.perm_append_comm.append_right b
    rw [hperm.nodup_iff, List.nodup_append]
    exact ⟨hkd, hd, fun y hy z hz he => hoff y hy (he ▸ hz)⟩
  rw [listSpliceBetween, hfirst, hlast]
  apply (F.drop s).set hl' _ (ring_splice ha hb hrun hd hkd hoff) hnd
  · have hmem {y : α} (hy : y ∈ h :: (a ++ b)) :=
      (F.drop s).free_of_mem hl' hy
    exact ((Agree.refl _ m).link (hmem (mem_of_front a b h))
      ((hfree x List.mem_cons_self).drop h)).link
      ((hfree _ List.getLastD_mem_cons).drop h) (hmem (mem_of_back a b h))
  · intro y hy
    rw [List.mem_append, List.mem_append] at hy
    rw [List.mem_append]
    rcases hy with hy | hy | hy
    · exact Or.inl (Or.inl hy)
    · exact Or.inr (hfree y hy)
    · exact Or.inl (Or.inr hy)

/-- The entries of `h` up to the last of `x :: k` go to `t`, the others stay. -/
theorem family_cut {t x : α} {k : List α} (F : Family m L) (hl : L h = some (x :: k ++ b))
    (ht : Unlinked (Function.update L t none) t) (hne : t ≠ h) :
    Family (listCutBetween m t h (k.getLastD x))
      (Function.update (Function.update L t (some (x :: k))) h (some b)) := by
  have hring := F.ring h _ hl
  have hd := F.nodup h _ hl
  have hfirst : m.next h = x := hring.next
  obtain ⟨hfront, hlink, hback⟩ := path_append.mp hring
  have hnext : m.next (k.getLastD x) = b.headD h := by
    rw [List.getLastD_cons] at hlink
    exact hlink.1
  have hrun : Run m (x :: k) := hfront.of_cons
  have htl : t ∉ h :: (x :: k ++ b) := by
    apply ht h
    rwa [Function.update_of_ne (Ne.symm hne)]
  have hlast : k.getLastD x ∈ x :: k := List.getLastD_mem_cons
  have hheadb : b.headD h ∈ b ++ [h] := headD_mem
  have htk : t ∉ x :: k := fun hm => htl (List.mem_cons_of_mem h (List.mem_append_left b hm))
  have htb : t ∉ b ++ [h] := by
    intro hm
    obtain hm | hm := List.mem_append.mp hm
    · exact htl (List.mem_cons_of_mem h (List.mem_append_right _ hm))
    · exact hne (List.mem_singleton.mp hm)
  have hkb {y : α} (hy : y ∈ x :: k) : y ∉ b ++ [h] := fun hm => not_front hd hm hy
  have hkd : (x :: k).Nodup := (List.nodup_cons.mp (nodup_front hd)).2
  have hhk : h ∉ x :: k := (List.nodup_cons.mp (nodup_front hd)).1
  have htring : Ring (((m.link t x).link (k.getLastD x) t).link h (b.headD h)) t (x :: k) := by
    have hr := ring_rehead hrun hkd htk
    rw [List.headD_cons, List.getLastD_cons] at hr
    apply Run.link hr
    · rw [← List.cons_append, List.dropLast_concat, List.mem_cons, not_or]
      exact ⟨Ne.symm hne, hhk⟩
    · rw [List.tail_cons, List.mem_append, List.mem_singleton, not_or]
      exact ⟨fun hm => hkb hm hheadb, fun he => htb (he ▸ hheadb)⟩
  have hhring : Ring (((m.link t x).link (k.getLastD x) t).link h (b.headD h)) h b := by
    have htd : t ∉ (b ++ [h]).dropLast := fun hm => htb (List.dropLast_subset _ hm)
    have hxt : x ∉ (b ++ [h]).tail := fun hm => hkb List.mem_cons_self (List.mem_of_mem_tail hm)
    have hld : k.getLastD x ∉ (b ++ [h]).dropLast :=
      fun hm => hkb hlast (List.dropLast_subset _ hm)
    have htt : t ∉ (b ++ [h]).tail := fun hm => htb (List.mem_of_mem_tail hm)
    refine path_first.mpr ⟨linked_link, ?_⟩
    exact ((hback.link htd hxt).link hld htt).link_first (nodup_back hd)
      (not_back hd List.mem_cons_self)
  have hcomm : Function.update (Function.update L h none) t none =
      Function.update (Function.update L t none) h none := Function.update_comm hne.symm ..
  have hfree {y : α} (hy : y ∈ h :: (x :: k ++ b)) :
      Unlinked (Function.update (Function.update L t none) h none) y :=
    hcomm ▸ (F.free_of_mem hl hy).drop t
  have hmemk {y : α} (hy : y ∈ x :: k) : y ∈ h :: (x :: k ++ b) :=
    List.mem_cons_of_mem h (List.mem_append_left b hy)
  have htfree := ht.drop h
  rw [listCutBetween, hfirst, hnext]
  have hfirstAdd := ((F.drop t).drop h).add (h := t) (l := x :: k) (by
      intro y hy
      obtain rfl | hy := List.mem_cons.mp hy
      · exact htfree
      · exact hfree (hmemk hy)) htring
    (List.nodup_cons.mpr ⟨htk, hkd⟩)
    ((((Agree.refl _ m).link htfree (hfree (hmemk List.mem_cons_self))).link
      (hfree (hmemk hlast)) htfree).link (hfree List.mem_cons_self)
      (hfree (mem_of_back (x :: k) b h)))
  have hboth := hfirstAdd.add (h := h) (l := b) (by
      intro y hy
      have hyl : y ∈ h :: (x :: k ++ b) := by
        obtain rfl | hy := List.mem_cons.mp hy
        · exact List.mem_cons_self
        · exact List.mem_cons_of_mem h (List.mem_append_right _ hy)
      have hyb : y ∈ b ++ [h] := by
        obtain rfl | hy := List.mem_cons.mp hy
        · exact List.mem_append_right _ List.mem_cons_self
        · exact List.mem_append_left _ hy
      apply (hfree hyl).set
      rw [List.mem_cons, not_or]
      exact ⟨fun he => htb (he ▸ hyb), fun hm => hkb hm hyb⟩) hhring
    (List.nodup_cons.mpr ⟨not_back hd List.mem_cons_self, (List.nodup_append.mp
      (List.nodup_cons.mp hd).2).2.1⟩) (Agree.refl _ _)
  rwa [Function.update_comm hne, Function.update_idem, Function.update_comm hne.symm,
    Function.update_idem] at hboth

end EmacDriver
