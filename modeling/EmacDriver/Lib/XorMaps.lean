import Mathlib.Data.Nat.Prime.Basic
import Mathlib.Dynamics.PeriodicPts.Defs
import Mathlib.Logic.Function.Iterate
import Mathlib.Tactic.NormNum.Prime

namespace XorMaps

variable {m n w : Nat}

def Linear (f : BitVec m → BitVec n) : Prop := ∀ x y, f (x ^^^ y) = f x ^^^ f y

section Linear
variable {f g : BitVec m → BitVec n}

theorem Linear.zero (hf : Linear f) : f 0#m = 0#n := by
  have h := hf 0#m 0#m
  rwa [BitVec.xor_self, BitVec.xor_self] at h

theorem Linear.ite (hf : Linear f) (b : Bool) (x : BitVec m) :
    f (if b then x else 0#m) = if b then f x else 0#n := by
  cases b with
  | false => exact hf.zero
  | true => rfl

theorem Linear.comp {l : Nat} {h : BitVec n → BitVec l} (hh : Linear h) (hf : Linear f) :
    Linear (fun x => h (f x)) :=
  fun x y => (congrArg h (hf x y)).trans (hh (f x) (f y))

theorem Linear.xor (hf : Linear f) (hg : Linear g) : Linear (fun x => f x ^^^ g x) := by
  intro x y
  show f (x ^^^ y) ^^^ g (x ^^^ y) = f x ^^^ g x ^^^ (f y ^^^ g y)
  rw [hf, hg]
  ac_rfl

theorem Linear.iterate {f : BitVec m → BitVec m} (hf : Linear f) (k : Nat) : Linear (f^[k]) := by
  induction k with
  | zero => exact fun _ _ => rfl
  | succ k ih =>
    intro x y
    rw [Function.iterate_succ_apply, hf, ih, Function.iterate_succ_apply,
      Function.iterate_succ_apply]

theorem linear_id : Linear (fun x : BitVec m => x) := fun _ _ => rfl

theorem linear_shiftLeft (k : Nat) : Linear (fun x : BitVec m => x <<< k) :=
  fun x y => BitVec.shiftLeft_xor_distrib x y k

theorem linear_ushiftRight (k : Nat) : Linear (fun x : BitVec m => x >>> k) :=
  fun x y => BitVec.ushiftRight_xor_distrib x y k

theorem linear_setWidth : Linear (fun x : BitVec m => x.setWidth n) :=
  fun _ _ => BitVec.setWidth_xor

/-- A linear map is known by what it makes of the single bits. -/
theorem linear_ext (hf : Linear f) (hg : Linear g)
    (h : ∀ i < m, f (BitVec.twoPow m i) = g (BitVec.twoPow m i)) : f = g := by
  have hupto : ∀ k ≤ m, ∀ x : BitVec m, (∀ i, k ≤ i → x.getLsbD i = false) → f x = g x := by
    intro k
    induction k with
    | zero =>
      intro _ x hx
      have hzero : x = 0#m := by
        apply BitVec.eq_of_getLsbD_eq
        intro i _
        rw [hx i (Nat.zero_le i)]
        exact BitVec.getLsbD_zero.symm
      rw [hzero, hf.zero, hg.zero]
    | succ k ih =>
      intro hk x hx
      have hbelow := ih (Nat.le_of_succ_le hk)
      by_cases hbit : x.getLsbD k = true
      · have hsplit : x = (x ^^^ BitVec.twoPow m k) ^^^ BitVec.twoPow m k := by
          rw [BitVec.xor_assoc, BitVec.xor_self, BitVec.xor_zero]
        have hclear : ∀ i, k ≤ i → (x ^^^ BitVec.twoPow m k).getLsbD i = false := by
          intro i hi
          rw [BitVec.getLsbD_xor, BitVec.getLsbD_twoPow]
          by_cases he : k = i
          · subst he
            have hlt : k < m := hk
            simp [hbit, hlt]
          · rw [hx i (by omega)]
            simp [he]
        rw [hsplit, hf, hg, hbelow _ hclear, h k hk]
      · apply hbelow
        intro i hi
        by_cases he : k = i
        · exact he ▸ Bool.not_eq_true _ ▸ hbit
        · exact hx i (by omega)
  funext x
  exact hupto m (Nat.le_refl m) x fun i hi => BitVec.getLsbD_of_ge x i hi

end Linear

/-- The map that makes the words of `cols` of the single bits. -/
def ofCols (n : Nat) : List (BitVec n) → BitVec m → BitVec n
  | [], _ => 0#n
  | c :: cols, v => (if v.getLsbD 0 then c else 0#n) ^^^ ofCols n cols (v >>> 1)

theorem ofCols_linear (cols : List (BitVec n)) : Linear (ofCols (m := m) n cols) := by
  induction cols with
  | nil => exact fun _ _ => BitVec.xor_self.symm
  | cons c cols ih =>
    apply Linear.xor _ (ih.comp (linear_ushiftRight 1))
    intro x y
    show (if (x ^^^ y).getLsbD 0 then c else 0#n) =
      (if x.getLsbD 0 then c else 0#n) ^^^ if y.getLsbD 0 then c else 0#n
    rw [BitVec.getLsbD_xor]
    cases x.getLsbD 0 with
    | false =>
      rw [Bool.false_xor]
      exact BitVec.zero_xor.symm
    | true =>
      cases y.getLsbD 0 with
      | false => exact BitVec.xor_zero.symm
      | true => exact BitVec.xor_self.symm

/-- Multiplication with the unknown, of polynomials modulo `p`, each the word of its coefficients. -/
def xtimes (p a : BitVec w) : BitVec w := (a <<< 1) ^^^ (if a.getLsbD (w - 1) then p else 0#w)

/-- The `k` lowest coefficients of `a`, from the highest on. -/
def mulFrom (p a b : BitVec w) : Nat → BitVec w → BitVec w
  | 0, acc => acc
  | k + 1, acc => mulFrom p a b k (xtimes p acc ^^^ if a.getLsbD k then b else 0#w)

def mul (p a b : BitVec w) : BitVec w := mulFrom p a b w 0#w

/-- The `e`th power of the unknown, for `e` below `2 ^ k`. -/
def pow (p : BitVec w) : Nat → Nat → BitVec w
  | 0, _ => 1#w
  | k + 1, e =>
    let half := pow p k (e / 2)
    let square := mul p half half
    if e % 2 = 1 then xtimes p square else square

/-- The `k` lowest terms of the polynomial `a` in `f`. -/
def actTo (f : BitVec m → BitVec m) (a : BitVec w) : Nat → BitVec m → BitVec m
  | 0, _ => 0#m
  | k + 1, v => actTo f a k v ^^^ if a.getLsbD k then f^[k] v else 0#m

def act (f : BitVec m → BitVec m) (a : BitVec w) (v : BitVec m) : BitVec m := actTo f a w v

variable {f : BitVec m → BitVec m} {p : BitVec w}

theorem actTo_linear (hf : Linear f) (a : BitVec w) (k : Nat) : Linear (actTo f a k) := by
  induction k with
  | zero => exact fun _ _ => (BitVec.xor_self).symm
  | succ k ih =>
    apply Linear.xor ih
    intro x y
    cases a.getLsbD k with
    | false => exact (BitVec.xor_self).symm
    | true => exact hf.iterate k x y

/-- Polynomials are added bit by bit. -/
theorem actTo_xor (a b : BitVec w) (k : Nat) (v : BitVec m) :
    actTo f (a ^^^ b) k v = actTo f a k v ^^^ actTo f b k v := by
  induction k with
  | zero => exact (BitVec.xor_self).symm
  | succ k ih =>
    rw [actTo, actTo, actTo, ih, BitVec.getLsbD_xor]
    cases a.getLsbD k with
    | false =>
      simp only [Bool.false_bne, Bool.false_eq_true, if_false, BitVec.xor_zero]
      ac_rfl
    | true =>
      cases b.getLsbD k with
      | false =>
        simp only [Bool.true_bne, Bool.not_false, Bool.false_eq_true, if_false, if_true,
          BitVec.xor_zero]
        ac_rfl
      | true =>
        have hsame : ∀ u x y : BitVec m, u ^^^ x ^^^ (y ^^^ x) = u ^^^ y := by
          intro u x y
          rw [BitVec.xor_comm y x, ← BitVec.xor_assoc, BitVec.xor_assoc u x x, BitVec.xor_self,
            BitVec.xor_zero]
        simp only [bne_self_eq_false, Bool.false_eq_true, if_false, if_true, BitVec.xor_zero,
          hsame]

theorem act_linear (hf : Linear f) (a : BitVec w) : Linear (act f a) := actTo_linear hf a w

theorem act_xor (a b : BitVec w) (v : BitVec m) : act f (a ^^^ b) v = act f a v ^^^ act f b v :=
  actTo_xor a b w v

theorem actTo_zero (k : Nat) (v : BitVec m) : actTo f 0#w k v = 0#m := by
  induction k with
  | zero => rfl
  | succ k ih =>
    rw [actTo, ih, BitVec.getLsbD_zero]
    exact BitVec.xor_self

theorem act_zero (v : BitVec m) : act f 0#w v = 0#m := actTo_zero w v

theorem act_ite (c : Bool) (b : BitVec w) (v : BitVec m) :
    act f (if c then b else 0#w) v = if c then act f b v else 0#m := by
  cases c with
  | false => exact act_zero v
  | true => rfl

/-- One place up is one application of the map more. -/
theorem actTo_shift (hf : Linear f) (a : BitVec w) (v : BitVec m) {k : Nat} (hk : k < w) :
    actTo f (a <<< 1) (k + 1) v = f (actTo f a k v) := by
  induction k with
  | zero =>
    have hlow : (a <<< 1).getLsbD 0 = false := by simp
    have hnone : actTo f (a <<< 1) 1 v = 0#m := by
      rw [actTo, actTo, hlow]
      exact BitVec.xor_self
    exact hnone.trans hf.zero.symm
  | succ k ih =>
    have hbit : (a <<< 1).getLsbD (k + 1) = a.getLsbD k := by
      rw [BitVec.getLsbD_shiftLeft]
      simp [hk]
    have hstep : f^[k + 1] v = f (f^[k] v) := Function.iterate_succ_apply' f k v
    rw [actTo, ih (Nat.lt_of_succ_lt hk), hbit, actTo, hf, hf.ite, hstep]

/-- The unknown stands for one more step of the map. -/
theorem act_xtimes (hf : Linear f) (hw : 0 < w) {v : BitVec m} (hp : f^[w] v = act f p v)
    (a : BitVec w) : act f (xtimes p a) v = f (act f a v) := by
  obtain ⟨k, rfl⟩ : ∃ k, w = k + 1 := ⟨w - 1, by omega⟩
  have hstep : f (f^[k] v) = act f p v := by
    rw [← hp]
    exact (Function.iterate_succ_apply' f k v).symm
  have htop : act f a v = actTo f a k v ^^^ if a.getLsbD k then f^[k] v else 0#m := rfl
  have hshift : act f (a <<< 1) v = f (actTo f a k v) :=
    actTo_shift hf a v (Nat.lt_succ_self k)
  rw [xtimes, act_xor, hshift, act_ite, htop, hf, hf.ite, hstep]
  rfl

/-- Multiplication of polynomials is composition of the maps. -/
theorem act_mulFrom (hf : Linear f) (hw : 0 < w) (hp : ∀ v, f^[w] v = act f p v)
    (a b acc : BitVec w) (k : Nat) (v : BitVec m) :
    act f (mulFrom p a b k acc) v = f^[k] (act f acc v) ^^^ actTo f a k (act f b v) := by
  induction k generalizing acc with
  | zero => exact (BitVec.xor_zero).symm
  | succ k ih =>
    have hiter := hf.iterate k
    rw [mulFrom, ih, act_xor, act_xtimes hf hw (hp v), act_ite, hiter, hiter.ite, actTo,
      Function.iterate_succ_apply]
    ac_rfl

/-- The product of two polynomials stands for one map after the other. -/
theorem act_mul (hf : Linear f) (hw : 0 < w) (hp : ∀ v, f^[w] v = act f p v) (a b : BitVec w)
    (v : BitVec m) : act f (mul p a b) v = act f a (act f b v) := by
  rw [mul, act_mulFrom hf hw hp, act_zero, (hf.iterate w).zero, BitVec.zero_xor]
  rfl

theorem act_one (hw : 0 < w) (v : BitVec m) : act f 1#w v = v := by
  have hone : ∀ k, k + 1 ≤ w → actTo f 1#w (k + 1) v = v := by
    intro k
    induction k with
    | zero =>
      intro _
      have hbit : (1#w).getLsbD 0 = true := by simp [hw]
      rw [actTo, actTo, hbit]
      exact BitVec.zero_xor
    | succ k ih =>
      intro hk
      have hbit : (1#w).getLsbD (k + 1) = false := by simp
      rw [actTo, ih (Nat.le_of_succ_le hk), hbit]
      exact BitVec.xor_zero
  have hall := hone (w - 1) (by omega)
  rwa [Nat.sub_add_cancel hw] at hall

/-- A power of the unknown stands for as many applications. -/
theorem act_pow (hf : Linear f) (hw : 0 < w) (hp : ∀ v, f^[w] v = act f p v) {k e : Nat}
    (he : e < 2 ^ k) (v : BitVec m) : act f (pow p k e) v = f^[e] v := by
  induction k generalizing e v with
  | zero =>
    have hzero : e = 0 := by omega
    rw [hzero]
    exact act_one hw v
  | succ k ih =>
    have hhalf : e / 2 < 2 ^ k := by
      rw [Nat.pow_succ] at he
      omega
    have hsquare : act f (mul p (pow p k (e / 2)) (pow p k (e / 2))) v = f^[e / 2 + e / 2] v := by
      rw [act_mul hf hw hp, ih hhalf, ih hhalf, Function.iterate_add_apply]
    simp only [pow]
    by_cases hodd : e % 2 = 1
    · have hsum : e = (e / 2 + e / 2).succ := by omega
      rw [if_pos hodd, act_xtimes hf hw (hp v), hsquare, ← Function.iterate_succ_apply' f, ← hsum]
    · have hsum : e = e / 2 + e / 2 := by omega
      rw [if_neg hodd, hsquare, ← hsum]

open Function in
/-- It is enough to try the period without each of its prime factors. -/
theorem minimalPeriod_of_primes {α : Type} {g : α → α} {x : α} {N : Nat}
    (hx : IsPeriodicPt g N x) (hq : ∀ q, q.Prime → q ∣ N → ¬IsPeriodicPt g (N / q) x) :
    minimalPeriod g x = N := by
  obtain ⟨c, hc⟩ := hx.minimalPeriod_dvd
  by_contra hne
  have hc1 : c ≠ 1 := by
    rintro rfl
    exact hne (hc.trans (Nat.mul_one _)).symm
  have hdvd : c.minFac ∣ N := hc ▸ Dvd.dvd.mul_left c.minFac_dvd _
  apply hq c.minFac (Nat.minFac_prime hc1) hdvd
  rw [isPeriodicPt_iff_minimalPeriod_dvd]
  obtain ⟨d, hd⟩ := c.minFac_dvd
  have hN : N = c.minFac * (minimalPeriod g x * d) :=
    calc N = minimalPeriod g x * c := hc
      _ = minimalPeriod g x * (c.minFac * d) := congrArg _ hd
      _ = c.minFac * (minimalPeriod g x * d) := Nat.mul_left_comm ..
  exact ⟨d, Nat.div_eq_of_eq_mul_right (Nat.minFac_pos c) hN⟩

open Function in
/-- A map with a polynomial modulo which the unknown has order `N` moves every word but zero
round in a cycle of `N`. -/
theorem minimalPeriod_eq (hf : Linear f) (hw : 0 < w) (hp : ∀ v, f^[w] v = act f p v) {k N : Nat}
    (hk : N < 2 ^ k) (hone : pow p k N = 1#w)
    (hcert : ∀ q, q.Prime → q ∣ N → ∃ i, mul p i (pow p k (N / q) ^^^ 1#w) = 1#w) {v : BitVec m}
    (hv : v ≠ 0#m) : minimalPeriod f v = N := by
  apply minimalPeriod_of_primes
  · have h := act_pow hf hw hp hk v
    rw [hone, act_one hw] at h
    exact h.symm
  · intro q hprime hdvd hper
    obtain ⟨i, hi⟩ := hcert q hprime hdvd
    have hlt : N / q < 2 ^ k := Nat.lt_of_le_of_lt (Nat.div_le_self N q) hk
    have hfix : f^[N / q] v = v := hper
    have hnull : act f (pow p k (N / q) ^^^ 1#w) v = 0#m := by
      rw [act_xor, act_pow hf hw hp hlt, act_one hw, hfix]
      exact BitVec.xor_self
    have hback := act_mul hf hw hp i (pow p k (N / q) ^^^ 1#w) v
    rw [hi, act_one hw, hnull, (act_linear hf i).zero] at hback
    exact hv hback

/-- For words of 32 bits the cycle can be of all words but zero. -/
theorem prime_of_dvd_full {q : Nat} (hq : q.Prime) (h : q ∣ 4294967295) :
    q = 3 ∨ q = 5 ∨ q = 17 ∨ q = 257 ∨ q = 65537 := by
  have hfactors : 4294967295 = 3 * (5 * (17 * (257 * 65537))) := rfl
  have hprime {r : Nat} (hr : r.Prime) (hd : q ∣ r) : q = r :=
    (Nat.prime_dvd_prime_iff_eq hq hr).mp hd
  rw [hfactors, hq.dvd_mul, hq.dvd_mul, hq.dvd_mul, hq.dvd_mul] at h
  rcases h with h | h | h | h | h
  · exact Or.inl (hprime (by norm_num) h)
  · exact Or.inr (Or.inl (hprime (by norm_num) h))
  · exact Or.inr (Or.inr (Or.inl (hprime (by norm_num) h)))
  · exact Or.inr (Or.inr (Or.inr (Or.inl (hprime (by norm_num) h))))
  · exact Or.inr (Or.inr (Or.inr (Or.inr (hprime (by norm_num) h))))

end XorMaps
