import EmacDriver.Proofs.LinkListSpec

namespace EmacDriver
open LinkChain ListHeads Function

abbrev Lists (α : Type) := α → Option (List α)

variable {α : Type}

def Lists.Head (L : Lists α) (h : α) : Prop := ∃ l, L h = some l

def Lists.Listed (L : Lists α) (e : α) : Prop := ∃ h l, L h = some l ∧ e ∈ l

variable [DecidableEq α]

namespace Lists

def drop (L : Lists α) (h : α) : Lists α := update L h none

def set (L : Lists α) (h : α) (l : List α) : Lists α := update L h (some l)

/-- Not an entry of a list and not the head of one, but for its own. -/
def Fresh (L : Lists α) (x : α) : Prop := Unlinked (L.drop x) x

def change (L : Lists α) (h : α) (f : List α → List α) : Lists α := update L h ((L h).map f)

def off (L : Lists α) (e : α) : Lists α := fun h => (L h).map (·.erase e)

def swap (L : Lists α) (old newitem : α) : Lists α :=
  match L old with
  | some l => (L.drop old).set newitem l
  | none => fun h => (L h).map (·.replace old newitem)

/-- The entries of `list` go to `head`, which `f` places. -/
def join (L : Lists α) (list head : α) (f : List α → List α → List α) : Lists α :=
  match L list with
  | some (x :: k) => (L.drop list).change head (f (x :: k))
  | _ => L

def cut (L : Lists α) (list head entry : α) : Lists α :=
  match L head with
  | some (x :: k) =>
    if entry = head then L.set list []
    else
      let n := (x :: k).idxOf entry + 1
      (L.set list ((x :: k).take n)).set head ((x :: k).drop n)
  | _ => L

end Lists

namespace ListOp

def meaning (L : Lists α) : ListOp α → Lists α
  | init list => L.set list []
  | add newitem head => (L.drop newitem).change head (newitem :: ·)
  | addTail newitem head => (L.drop newitem).change head (· ++ [newitem])
  | del entry => L.off entry
  | delInit entry => (L.off entry).set entry []
  | replace old newitem => (L.drop newitem).swap old newitem
  | replaceInit old newitem => ((L.drop newitem).swap old newitem).set old []
  | move list head => (L.off list).change head (list :: ·)
  | moveTail list head => (L.off list).change head (· ++ [list])
  | splice list head => L.join list head fun k l => k ++ l
  | spliceTail list head => L.join list head fun k l => l ++ k
  | spliceInit list head => (L.join list head fun k l => k ++ l).set list []
  | spliceTailInit list head => (L.join list head fun k l => l ++ k).set list []
  | cutPosition list head entry => L.cut list head entry

def Allowed (L : Lists α) : ListOp α → Prop
  | init list => L.Fresh list
  | add newitem head | addTail newitem head => L.Fresh newitem ∧ (L.drop newitem).Head head
  | del entry | delInit entry => L.Listed entry
  | replace old newitem | replaceInit old newitem =>
    L.Fresh newitem ∧ ((L.drop newitem).Head old ∨ (L.drop newitem).Listed old)
  | move list head | moveTail list head => L.Listed list ∧ L.Head head
  | splice list head | spliceTail list head | spliceInit list head | spliceTailInit list head =>
    list ≠ head ∧ L.Head list ∧ L.Head head
  | cutPosition list head entry =>
    L.Fresh list ∧ ∃ l, (L.drop list) head = some l ∧ (entry = head ∨ entry ∈ l)

end ListOp

def allowedRun (L : Lists α) : List (ListOp α) → Prop
  | [] => True
  | op :: ops => op.Allowed L ∧ allowedRun (op.meaning L) ops

def meaningRun (L : Lists α) (ops : List (ListOp α)) : Lists α :=
  ops.foldl (fun L op => op.meaning L) L

variable {m : ListHeads α} {L : Lists α} {h e n p : α} {a b l : List α}

section Queries

theorem isLast_iff (hr : Ring m h (a ++ e :: b)) (hd : (h :: (a ++ e :: b)).Nodup) :
    listIsLast m e h = true ↔ b = [] := by
  rw [listIsLast, decide_eq_true_eq, (path_through.mp hr).2.next]
  cases b with
  | nil => exact iff_of_true rfl rfl
  | cons x b =>
    refine iff_of_false ?_ (List.cons_ne_nil x b)
    intro hx
    rw [List.headD_cons] at hx
    apply (List.nodup_cons.mp hd).1
    rw [← hx]
    exact List.mem_append_right a (List.mem_cons_of_mem e List.mem_cons_self)

theorem empty_iff (hr : Ring m h l) (hd : (h :: l).Nodup) : listEmpty m h = true ↔ l = [] := by
  rw [listEmpty, decide_eq_true_eq, hr.next]
  cases l with
  | nil => exact iff_of_true rfl rfl
  | cons x l =>
    refine iff_of_false ?_ (List.cons_ne_nil x l)
    intro hx
    rw [List.headD_cons] at hx
    apply (List.nodup_cons.mp hd).1
    rw [hx]
    exact List.mem_cons_self

theorem emptyCareful_iff (hr : Ring m h l) (hd : (h :: l).Nodup) :
    listEmptyCareful m h = true ↔ l = [] := by
  have hempty := empty_iff hr hd
  rw [listEmpty, decide_eq_true_eq] at hempty
  rw [listEmptyCareful, Bool.and_eq_true, decide_eq_true_eq, decide_eq_true_eq, hempty]
  refine and_iff_left_of_imp ?_
  rintro rfl
  exact hr.next.trans hr.prev.symm

theorem singular_iff (hr : Ring m h l) (hd : (h :: l).Nodup) :
    listIsSingular m h = true ↔ ∃ x, l = [x] := by
  have hempty := empty_iff hr hd
  rw [listIsSingular, Bool.and_eq_true, Bool.not_eq_true', ← Bool.not_eq_true, hempty,
    decide_eq_true_eq, hr.next, hr.prev]
  cases l with
  | nil => exact iff_of_false (fun hc => hc.1 rfl) (fun ⟨_, hx⟩ => List.cons_ne_nil _ _ hx.symm)
  | cons x l =>
    rw [List.headD_cons, List.getLastD_cons]
    constructor
    · rintro ⟨-, hx⟩
      cases l with
      | nil => exact ⟨x, rfl⟩
      | cons y l =>
        refine absurd ?_ (List.nodup_cons.mp (List.nodup_cons.mp hd).2).1
        rw [hx, List.getLastD_cons]
        exact List.getLastD_mem_cons
    · rintro ⟨y, hy⟩
      obtain ⟨rfl, rfl⟩ := List.cons.inj hy
      exact ⟨List.cons_ne_nil _ _, rfl⟩

/-- The loop goes through the rest of the list, from behind `p` on. -/
theorem forEach_rest {fuel : Nat} (hp : Path m p l h) (hh : h ∉ l) (hf : l.length < fuel) :
    listForEach m h fuel (m.next p) = some l := by
  induction l generalizing p fuel with
  | nil =>
    obtain _ | fuel := fuel
    · exact absurd hf (Nat.lt_irrefl 0)
    · rw [listForEach, hp.next]
      exact if_pos rfl
  | cons x l ih =>
    obtain ⟨hlink, hrest⟩ := path_cons.mp hp
    rw [List.mem_cons, not_or] at hh
    obtain _ | fuel := fuel
    · exact absurd hf (Nat.not_lt_zero _)
    · rw [listForEach, hlink.1, if_neg (Ne.symm hh.1),
        ih hrest hh.2 (Nat.lt_of_succ_lt_succ hf)]
      rfl

end Queries

section Steps

theorem change_some {f : List α → List α} (hl : L h = some l) :
    L.change h f = update L h (some (f l)) := by
  rw [Lists.change, hl]
  rfl

/-- The other lists are not concerned. -/
theorem others_unchanged {f : List α → List α} {l' : List α} (F : Family m L)
    (hl : L h = some (a ++ e :: b)) (hf : f (a ++ e :: b) = l')
    (hother : ∀ k, e ∉ k → f k = k) : (fun g => (L g).map f) = update L h (some l') := by
  funext g
  by_cases hg : g = h
  · rw [hg, update_self, hl, Option.map_some, hf]
  · rw [update_of_ne hg]
    cases hk : L g with
    | none => rfl
    | some k =>
      have hek : e ∉ k := by
        intro hm
        apply F.apart g h k _ hk hl hg e (List.mem_cons_of_mem g hm)
        exact List.mem_cons_of_mem h (List.mem_append_right a List.mem_cons_self)
      rw [Option.map_some, hother k hek]

theorem off_eq (F : Family m L) (hl : L h = some (a ++ e :: b)) :
    L.off e = update L h (some (a ++ b)) := by
  apply others_unchanged F hl
  · rw [List.erase_append_right _ (not_mem_around (F.nodup h _ hl)), List.erase_cons_head]
  · exact fun k hk => List.erase_of_not_mem hk

theorem swap_eq (F : Family m L) (hl : L h = some (a ++ e :: b)) :
    L.swap e n = update L h (some (a ++ n :: b)) := by
  have hnone : L e = none := by
    cases hk : L e with
    | none => rfl
    | some k =>
      by_cases he : e = h
      · refine absurd ?_ (List.nodup_cons.mp (F.nodup h _ hl)).1
        rw [← he]
        exact List.mem_append_right a List.mem_cons_self
      · refine absurd ?_ (F.apart e h k _ hk hl he e List.mem_cons_self)
        exact List.mem_cons_of_mem h (List.mem_append_right a List.mem_cons_self)
  rw [Lists.swap, hnone]
  apply others_unchanged F hl
  · rw [List.replace_append_right (not_mem_around (F.nodup h _ hl)), List.replace_cons_self]
  · exact fun k hk => List.replace_of_not_mem hk

/-- An entry at the front. -/
theorem add_step (F : Family m L) (hn : Unlinked L n) (hl : L h = some l) :
    Family (listAdd m n h) (L.change h (n :: ·)) := by
  have hnext : m.next h = l.headD h := (F.ring h l hl).next
  have hins := family_insert (a := []) F hl hn
  rw [change_some hl, listAdd, hnext]
  exact hins

/-- An entry at the back. -/
theorem addTail_step (F : Family m L) (hn : Unlinked L n) (hl : L h = some l) :
    Family (listAddTail m n h) (L.change h (· ++ [n])) := by
  have hprev : m.prev h = l.getLastD h := (F.ring h l hl).prev
  have hins := family_insert (b := []) F ((List.append_nil l).symm ▸ hl) hn
  rw [change_some hl, listAddTail, hprev]
  exact hins

theorem off_step (F : Family m L) (hlisted : L.Listed e) :
    Family (listDelBetween m (m.prev e) (m.next e)) (L.off e) ∧ Unlinked (L.off e) e := by
  obtain ⟨h, l, hl, he⟩ := hlisted
  obtain ⟨a, b, rfl⟩ := List.append_of_mem he
  have hd := F.nodup h _ hl
  rw [off_eq F hl]
  refine ⟨family_remove F hl, ?_⟩
  have hfree := (F.free_of_mem hl (List.mem_cons_of_mem h he)).set (h := h) (l := a ++ b) ?_
  · rwa [update_idem] at hfree
  · rw [← List.cons_append, List.perm_middle.nodup_iff, List.nodup_cons, List.cons_append] at hd
    exact hd.1

theorem fresh_init (F : Family m L) (hn : L.Fresh n) :
    Family (initListHead m n) (L.set n []) := family_init F hn

/-- The second half of the operations whose name ends in `_init`. -/
theorem init_step (F : Family m L) (hn : Unlinked L n) : Family (initListHead m n) (L.set n []) :=
  family_init F (hn.drop n)

/-- The poison is seen by no list. -/
theorem poison_step (null : α) (F : Family m L) (he : Unlinked L e) :
    Family { next := update m.next e null, prev := update m.prev e null } L := by
  apply F.agree
  intro z hz
  have hne : z ≠ e := fun hze => hz (hze ▸ he)
  exact ⟨update_of_ne hne .., update_of_ne hne ..⟩

theorem swap_step (F : Family m L) (hn : Unlinked L n) (ho : L.Head e ∨ L.Listed e) :
    Family (listReplace m e n) (L.swap e n) ∧ Unlinked (L.swap e n) e := by
  have hne {h : α} {l : List α} (hl : L h = some l) (he : e ∈ h :: l) : e ≠ n :=
    fun h' => hn h l hl (h' ▸ he)
  obtain ⟨l, hl⟩ | ⟨h, l, hl, he⟩ := ho
  · have hswap : L.swap e n = (L.drop e).set n l := by rw [Lists.swap, hl]
    rw [hswap]
    refine ⟨family_rehead F hl hn, (F.free_of_mem hl List.mem_cons_self).set ?_⟩
    rw [List.mem_cons, not_or]
    exact ⟨hne hl List.mem_cons_self, (List.nodup_cons.mp (F.nodup e l hl)).1⟩
  · obtain ⟨a, b, rfl⟩ := List.append_of_mem he
    have hd := F.nodup h _ hl
    rw [swap_eq F hl]
    refine ⟨family_replace F hl hn, ?_⟩
    have hfree := (F.free_of_mem hl (List.mem_cons_of_mem h he)).set (h := h) (l := a ++ n :: b) ?_
    · rwa [update_idem] at hfree
    · rw [← List.cons_append, List.perm_middle.nodup_iff, List.nodup_cons, List.cons_append,
        List.mem_cons, List.mem_append, not_or, not_or] at hd
      rw [List.mem_cons, List.mem_append, List.mem_cons, not_or, not_or, not_or]
      exact ⟨hd.1.1, hd.1.2.1, hne hl (List.mem_cons_of_mem h he), hd.1.2.2⟩

/-- What `__list_splice` is called for, at the front or at the back. -/
theorem join_step {s : α} {k : List α} {f : List α → List α → List α} (F : Family m L)
    (hs : L s = some k) (hl : L h = some (a ++ b)) (hne : s ≠ h)
    (hf : ∀ k, f k (a ++ b) = a ++ (k ++ b)) :
    Family (if listEmpty m s then m else listSpliceBetween m s (a.getLastD h) (b.headD h))
      (L.join s h f) ∧ (k ≠ [] → Unlinked (L.join s h f) s) := by
  have hempty := empty_iff (F.ring s k hs) (F.nodup s k hs)
  cases k with
  | nil =>
    rw [if_pos (hempty.mpr rfl), Lists.join, hs]
    exact ⟨F, fun hc => absurd rfl hc⟩
  | cons x k =>
    have hl' : L.drop s h = some (a ++ b) := by rwa [Lists.drop, update_of_ne (Ne.symm hne)]
    have hjoin : L.join s h f = update (L.drop s) h (some (a ++ (x :: k ++ b))) := by
      rw [Lists.join, hs]
      simp only [change_some hl', hf]
    have hno : ¬listEmpty m s = true := fun hc => List.cons_ne_nil x k (hempty.mp hc)
    rw [if_neg hno, hjoin]
    refine ⟨family_splice F hs hl hne, fun _ => ?_⟩
    apply (F.free_of_mem hs List.mem_cons_self).set
    rw [List.mem_cons, List.mem_append, List.mem_append, not_or, not_or, not_or]
    have happ : s ∉ h :: (a ++ b) := F.apart s h _ _ hs hl hne s List.mem_cons_self
    rw [List.mem_cons, List.mem_append, not_or, not_or] at happ
    exact ⟨hne, happ.2.1, (List.nodup_cons.mp (F.nodup s _ hs)).1, happ.2.2⟩

theorem joinInit_step {s : α} {k : List α} {f : List α → List α → List α} (F : Family m L)
    (hs : L s = some k) (hl : L h = some (a ++ b)) (hne : s ≠ h)
    (hf : ∀ k, f k (a ++ b) = a ++ (k ++ b)) :
    Family (if listEmpty m s then m
      else initListHead (listSpliceBetween m s (a.getLastD h) (b.headD h)) s)
      ((L.join s h f).set s []) := by
  obtain ⟨hjoin, hfree⟩ := join_step F hs hl hne hf
  have hempty := empty_iff (F.ring s k hs) (F.nodup s k hs)
  by_cases hk : k = []
  · have hsame : (L.join s h f).set s [] = L := by
      rw [Lists.join, hs, hk]
      exact (update_eq_iff.mpr ⟨by rw [hs, hk], fun _ _ => rfl⟩)
    rw [if_pos (hempty.mpr hk), hsame]
    exact F
  · rw [if_neg fun hc => hk (hempty.mp hc)] at hjoin ⊢
    exact init_step hjoin (hfree hk)

/-- The front part moves to its new head; what that headed before is given up. -/
theorem cut_step {t : α} (F : Family m L) (ht : L.Fresh t) (hl : (L.drop t) h = some l)
    (he : e = h ∨ e ∈ l) : Family (listCutPosition m t h e) (L.cut t h e) := by
  have hne : t ≠ h := by
    rintro rfl
    rw [Lists.drop, update_self] at hl
    cases hl
  rw [Lists.drop, update_of_ne (Ne.symm hne)] at hl
  have hring := F.ring h l hl
  have hd := F.nodup h l hl
  cases l with
  | nil =>
    rw [listCutPosition, if_pos ((empty_iff hring hd).mpr rfl), Lists.cut, hl]
    exact F
  | cons x k =>
    -- the entry is the head or on the list, so that the check of a list of one is passed
    have hone : ¬((listIsSingular m h && (m.next h ≠ e && h ≠ e)) = true) := by
      rw [Bool.and_eq_true, Bool.and_eq_true, decide_eq_true_eq, decide_eq_true_eq]
      rintro ⟨hsing, hnext, hhead⟩
      obtain ⟨y, hy⟩ := (singular_iff hring hd).mp hsing
      obtain ⟨rfl, rfl⟩ := List.cons.inj hy
      obtain rfl | he := he
      · exact hhead rfl
      · exact hnext (hring.next.trans (List.mem_singleton.mp he).symm)
    have hno : ¬listEmpty m h = true := fun hc => List.cons_ne_nil x k ((empty_iff hring hd).mp hc)
    rw [listCutPosition, if_neg hno, if_neg hone, Lists.cut, hl]
    by_cases heh : e = h
    · simp only [if_pos heh]
      exact fresh_init F ht
    · obtain ⟨a, b, hab⟩ := List.append_of_mem (he.resolve_left heh)
      have hea : e ∉ a := by
        rw [hab] at hd
        exact not_mem_around hd
      have hidx : (x :: k).idxOf e = a.length := by
        rw [hab, List.idxOf_append_of_notMem hea, List.idxOf_cons_self, Nat.add_zero]
      have hsplit : x :: k = (a ++ [e]) ++ b := by rw [hab, List.append_assoc]; rfl
      have hlen : a.length + 1 = (a ++ [e]).length := by rw [List.length_append]; rfl
      simp only [if_neg heh, hidx]
      rw [hsplit] at hl ⊢
      rw [hlen, List.take_left, List.drop_left]
      cases a with
      | nil => exact family_cut (k := []) F hl ht hne
      | cons y a =>
        have hcut := family_cut (k := a ++ [e]) F hl ht hne
        rwa [List.getLastD_concat] at hcut

end Steps

/-- One operation. -/
theorem listOp_step (null : α) (F : Family m L) {op : ListOp α} (hop : op.Allowed L) :
    Family (op.apply null m) (op.meaning L) := by
  cases op with
  | init list => exact fresh_init F hop
  | add newitem head =>
    obtain ⟨hn, l, hl⟩ := hop
    exact add_step (F.drop newitem) hn hl
  | addTail newitem head =>
    obtain ⟨hn, l, hl⟩ := hop
    exact addTail_step (F.drop newitem) hn hl
  | del entry =>
    obtain ⟨hoff, hfree⟩ := off_step F hop
    exact poison_step null hoff hfree
  | delInit entry =>
    obtain ⟨hoff, hfree⟩ := off_step F hop
    exact init_step hoff hfree
  | replace old newitem => exact (swap_step (F.drop newitem) hop.1 hop.2).1
  | replaceInit old newitem =>
    obtain ⟨hswap, hfree⟩ := swap_step (F.drop newitem) hop.1 hop.2
    exact init_step hswap hfree
  | move list head =>
    obtain ⟨hlisted, l, hl⟩ := hop
    obtain ⟨hoff, hfree⟩ := off_step F hlisted
    exact add_step (l := l.erase list) hoff hfree (by rw [Lists.off, hl]; rfl)
  | moveTail list head =>
    obtain ⟨hlisted, l, hl⟩ := hop
    obtain ⟨hoff, hfree⟩ := off_step F hlisted
    exact addTail_step (l := l.erase list) hoff hfree (by rw [Lists.off, hl]; rfl)
  | splice list head =>
    obtain ⟨hne, ⟨k, hk⟩, l, hl⟩ := hop
    have hjoin := (join_step (a := []) F hk hl hne fun _ => rfl).1
    rwa [← (F.ring head l hl).next] at hjoin
  | spliceTail list head =>
    obtain ⟨hne, ⟨k, hk⟩, l, hl⟩ := hop
    have hjoin := (join_step (b := []) (f := fun k l => l ++ k) F hk
      ((List.append_nil l).symm ▸ hl) hne (by simp)).1
    rwa [← (F.ring head l hl).prev] at hjoin
  | spliceInit list head =>
    obtain ⟨hne, ⟨k, hk⟩, l, hl⟩ := hop
    have hjoin := joinInit_step (a := []) (f := fun k l => k ++ l) F hk hl hne fun _ => rfl
    rwa [← (F.ring head l hl).next] at hjoin
  | spliceTailInit list head =>
    obtain ⟨hne, ⟨k, hk⟩, l, hl⟩ := hop
    have hjoin := joinInit_step (b := []) (f := fun k l => l ++ k) F hk
      ((List.append_nil l).symm ▸ hl) hne (by simp)
    rwa [← (F.ring head l hl).prev] at hjoin
  | cutPosition list head entry =>
    obtain ⟨hfresh, l, hl, he⟩ := hop
    exact cut_step F hfresh hl he

/-- By induction on the operations. -/
theorem listRun_family (null : α) {ops : List (ListOp α)} (F : Family m L)
    (hops : allowedRun L ops) : Family (listRun null m ops) (meaningRun L ops) := by
  induction ops generalizing m L with
  | nil => exact F
  | cons op ops ih => exact ih (listOp_step null F hops.1) hops.2

/-- What the loop and the tests of the caller find at a head. -/
structure Shows (m : ListHeads α) (h : α) (l : List α) : Prop where
  forEach : ∀ fuel, l.length < fuel → listForEach m h fuel (m.next h) = some l
  backward : (l ++ [h]).map m.prev = h :: l
  empty : listEmpty m h = true ↔ l = []
  emptyCareful : listEmptyCareful m h = true ↔ l = []
  singular : listIsSingular m h = true ↔ ∃ x, l = [x]
  isLast : ∀ e ∈ l, listIsLast m e h = true ↔ l.getLast? = some e
  firstEntry : l ≠ [] → l.head? = some (m.next h)
  lastEntry : l ≠ [] → l.getLast? = some (m.prev h)

/-- What the caller finds at a head is the list it stands for. -/
theorem family_shows (F : Family m L) (hl : L h = some l) : Shows m h l := by
  have hring := F.ring h l hl
  have hd := F.nodup h l hl
  refine ⟨fun fuel hf => forEach_rest hring (List.nodup_cons.mp hd).1 hf, hring.backward,
    empty_iff hring hd,
    emptyCareful_iff hring hd, singular_iff hring hd, ?_, ?_, ?_⟩
  · intro e he
    obtain ⟨a, b, rfl⟩ := List.append_of_mem he
    rw [isLast_iff hring hd]
    cases b with
    | nil => exact iff_of_true rfl List.getLast?_concat
    | cons x b =>
      refine iff_of_false (List.cons_ne_nil x b) ?_
      rw [List.getLast?_append_of_ne_nil _ (List.cons_ne_nil e _), List.getLast?_cons_cons]
      intro hlast
      have hmid := (List.nodup_append.mp (List.nodup_cons.mp hd).2).2.1
      exact (List.nodup_cons.mp hmid).1 (List.mem_of_getLast? hlast)
  · intro hne
    obtain ⟨x, k, rfl⟩ := List.exists_cons_of_ne_nil hne
    rw [hring.next]
    rfl
  · intro hne
    obtain ⟨x, k, rfl⟩ := List.exists_cons_of_ne_nil hne
    rw [hring.prev, List.getLast?_cons, List.getLastD_cons, List.getLastD_eq_getLast?]

/-- From no list at all, and whatever is in memory, the links show the lists that the
operations stand for. -/
theorem linklist_refines (null : α) (m : ListHeads α) (ops : List (ListOp α))
    (hops : allowedRun (fun _ => none) ops) (h : α) (l : List α)
    (hl : meaningRun (fun _ => none) ops h = some l) : Shows (listRun null m ops) h l := by
  have hnone : Family m fun _ => none := by
    refine ⟨?_, ?_, ?_⟩
    · intro _ _ hn
      cases hn
    · intro _ _ hn
      cases hn
    · intro _ _ _ _ hn
      cases hn
  exact family_shows (listRun_family null hnone hops) hl

theorem linklist_refines_cut :
    Shows (listRun 99 (⟨id, id⟩ : ListHeads Nat) [.init 0, .init 1, .addTail 1 0, .addTail 2 0,
      .add 3 0, .cutPosition 10 0 1, .spliceInit 0 10, .del 1]) 10 [2, 3] := by
  refine linklist_refines 99 ⟨id, id⟩ _ ?_ 10 _ ?_
  · simp only [allowedRun, ListOp.Allowed, ListOp.meaning, Lists.Fresh, Unlinked, Lists.drop, Lists.set,
      Lists.change, Lists.cut, Lists.join, Lists.Head, Lists.Listed, update_apply]
    refine ⟨?_, ?_, ⟨?_, [], rfl⟩, ⟨?_, [1], rfl⟩, ⟨?_, [1, 2], rfl⟩, ⟨?_, [3, 1, 2], rfl, by decide⟩,
      ⟨by decide, ⟨[2], rfl⟩, [3, 1], rfl⟩, ⟨10, [2, 3, 1], rfl, by decide⟩, trivial⟩
    all_goals grind
  · decide

def Links.heads (m : Links) : ListHeads Link := ⟨m.next, m.prev⟩

theorem links_initListHead (m : Links) (list : Link) :
    (m.initListHead list).heads = initListHead m.heads list := rfl

theorem links_listAddTail (m : Links) (newitem head : Link) :
    (m.listAddTail newitem head).heads = listAddTail m.heads newitem head := rfl

theorem links_listDel (m : Links) (entry : Link) :
    (m.listDel entry).heads = listDel .null m.heads entry := rfl

end EmacDriver
