import EmacDriver.Lib.Utf16
import EmacDriver.Vsnprintf

namespace EmacDriver
open Utf16

/-- The lead byte of a code with at most `i` bits left for it. -/
theorem leadByte {x k : UInt32} {i : Nat} (hx : x.toNat < 2 ^ i) (hi : i ≤ 8) :
    (x ||| k).toUInt8 = x.toUInt8 &&& UInt8.ofNat (2 ^ i - 1) ||| k.toUInt8 := by
  have hpow : 2 ^ i ≤ 2 ^ 8 := Nat.pow_le_pow_right (by decide) hi
  have hmask : x.toUInt8 &&& UInt8.ofNat (2 ^ i - 1) = x.toUInt8 := by
    apply UInt8.toNat_inj.mp
    rw [UInt8.toNat_and, UInt8.toNat_ofNat', UInt32.toNat_toUInt8,
      Nat.mod_eq_of_lt (by omega : x.toNat < 2 ^ 8),
      Nat.mod_eq_of_lt (by omega : 2 ^ i - 1 < 2 ^ 8), Nat.and_two_pow_sub_one_eq_mod,
      Nat.mod_eq_of_lt hx]
  rw [UInt32.toUInt8_or, hmask]

theorem shift_lt {x s : UInt32} {i : Nat} (hs : s.toNat < 32) (h : x.toNat < 2 ^ (s.toNat + i)) :
    (x >>> s).toNat < 2 ^ i := by
  rw [UInt32.toNat_shiftRight, Nat.mod_eq_of_lt hs, Nat.shiftRight_eq_div_pow]
  exact Nat.div_lt_of_lt_mul (by rwa [← Nat.pow_add])

theorem tailByte (x : UInt32) :
    ((x &&& 0x3F) ||| 0x80).toUInt8 = x.toUInt8 &&& 0x3f ||| 0x80 := by
  rw [UInt32.toUInt8_or, UInt32.toUInt8_and]
  rfl

theorem utf8_one {c : Char} (h : c.val ≤ 0x7f) : String.utf8EncodeChar c = [c.val.toUInt8] := by
  rw [String.utf8EncodeChar_eq_utf8EncodeCharFast, String.utf8EncodeCharFast, if_pos h]

theorem utf8_two {c : Char} (h : ¬ c.val ≤ 0x7f) (h' : c.val ≤ 0x7ff) :
    String.utf8EncodeChar c =
      [((c.val >>> 6) ||| 0xC0).toUInt8, ((c.val &&& 0x3F) ||| 0x80).toUInt8] := by
  have hlead : (c.val >>> 6).toNat < 2 ^ 5 := by
    refine shift_lt (by decide) ?_
    exact Nat.lt_of_le_of_lt h' (by decide)
  rw [String.utf8EncodeChar_eq_utf8EncodeCharFast, String.utf8EncodeCharFast, if_neg h, if_pos h',
    leadByte hlead (by decide), tailByte]
  rfl

theorem utf8_three {c : Char} (h : ¬ c.val ≤ 0x7ff) (h' : c.val ≤ 0xffff) :
    String.utf8EncodeChar c =
      [((c.val >>> 12) ||| 0xE0).toUInt8, (((c.val >>> 6) &&& 0x3F) ||| 0x80).toUInt8,
        ((c.val &&& 0x3F) ||| 0x80).toUInt8] := by
  have hone : ¬ c.val ≤ 0x7f := fun hle => h (Nat.le_trans hle (by decide))
  have hlead : (c.val >>> 12).toNat < 2 ^ 4 := by
    refine shift_lt (by decide) ?_
    exact Nat.lt_of_le_of_lt h' (by decide)
  rw [String.utf8EncodeChar_eq_utf8EncodeCharFast, String.utf8EncodeCharFast, if_neg hone, if_neg h,
    if_pos h', leadByte hlead (by decide), tailByte, tailByte]
  rfl

theorem utf8_four {c : Char} (h : ¬ c.val ≤ 0xffff) :
    String.utf8EncodeChar c = utf8Four c.val := by
  have htwo : ¬ c.val ≤ 0x7ff := fun hle => h (Nat.le_trans hle (by decide))
  have hone : ¬ c.val ≤ 0x7f := fun hle => htwo (Nat.le_trans hle (by decide))
  have hlead : (c.val >>> 18).toNat < 2 ^ 3 := by
    refine shift_lt (by decide) ?_
    have hvalid : c.val.toNat < 0x110000 := by
      rcases c.valid with h | h
      · exact Nat.lt_trans h (by decide)
      · exact h.2
    exact Nat.lt_trans hvalid (by decide)
  rw [String.utf8EncodeChar_eq_utf8EncodeCharFast, String.utf8EncodeCharFast, if_neg hone,
    if_neg htwo, if_neg h, utf8Four, leadByte hlead (by decide), tailByte, tailByte, tailByte]
  rfl

theorem code_high {u : UInt16} :
    u.toUInt32 ≥ 0xD800 ∧ u.toUInt32 ≤ 0xDBFF ↔ isHigh u := by
  rw [isHigh, ge_iff_le, UInt32.le_iff_toNat_le, UInt32.le_iff_toNat_le, UInt16.toNat_toUInt32]
  rfl

theorem code_low {u : UInt16} : u.toUInt32 ≥ 0xDC00 ∧ u.toUInt32 ≤ 0xDFFF ↔ isLow u := by
  rw [isLow, ge_iff_le, UInt32.le_iff_toNat_le, UInt32.le_iff_toNat_le, UInt16.toNat_toUInt32]
  rfl

theorem code_le {u : UInt16} {n : UInt32} : u.toUInt32 ≤ n ↔ u.toNat ≤ n.toNat := by
  rw [UInt32.le_iff_toNat_le, UInt16.toNat_toUInt32]

theorem utf16Loop_alone (n : Nat) {u : UInt16} (l : List UInt16) (h : ¬ isHigh u) :
    utf16Loop (n + 1) (u :: l) 0 =
      String.utf8EncodeChar (alone '?' u) ++ utf16Loop n l 0 := by
  rw [utf16Loop, if_neg (by decide), List.headD_cons, List.tail_cons]
  by_cases hl : isLow u
  · have hone : ¬ u.toUInt32 ≤ 0x007F := by
      rw [code_le]
      exact fun hle => absurd (Nat.le_trans hl.1 hle) (by decide)
    have htwo : ¬ u.toUInt32 ≤ 0x07FF := by
      rw [code_le]
      exact fun hle => absurd (Nat.le_trans hl.1 hle) (by decide)
    rw [if_neg hone, if_neg htwo, if_neg (fun hh => h (code_high.mp hh)), if_pos (code_low.mpr hl),
      alone_bad (Or.inr hl)]
    rfl
  · have hval := alone_val '?' h hl
    rw [← hval]
    by_cases hone : (alone '?' u).val ≤ 0x007F
    · rw [if_pos hone, utf8_one hone]
      rfl
    · by_cases htwo : (alone '?' u).val ≤ 0x07FF
      · rw [if_neg hone, if_pos htwo, utf8_two hone htwo]
        rfl
      · have hmax : (alone '?' u).val ≤ 0xffff := by
          rw [hval, code_le]
          exact Nat.le_of_lt_succ u.toNat_lt
        have hlt : (alone '?' u).val < 0x10000 := Nat.lt_succ_of_le hmax
        rw [if_neg hone, if_neg htwo, hval, if_neg (fun hh => h (code_high.mp hh)),
          if_neg (fun hh => hl (code_low.mp hh)), ← hval, if_pos hlt, utf8_three htwo hmax]
        rfl

theorem high_ne_zero {u : UInt16} (h : isHigh u) : u.toUInt32 ≠ 0 := by
  intro hz
  have hle : u.toUInt32 ≥ 0xD800 := (code_high.mpr h).1
  rw [hz] at hle
  exact absurd hle (by decide)

/-- Nothing is written for a high surrogate until the next unit is known. -/
theorem utf16Loop_high (n : Nat) {u : UInt16} (l : List UInt16) (h : isHigh u) :
    utf16Loop (n + 1) (u :: l) 0 = utf16Loop n l u.toUInt32 := by
  have hone : ¬ u.toUInt32 ≤ 0x007F := by
    rw [code_le]
    exact fun hle => absurd (Nat.le_trans h.1 hle) (by decide)
  have htwo : ¬ u.toUInt32 ≤ 0x07FF := by
    rw [code_le]
    exact fun hle => absurd (Nat.le_trans h.1 hle) (by decide)
  rw [utf16Loop, if_neg (by decide), List.headD_cons, List.tail_cons]
  rw [if_neg hone, if_neg htwo, if_pos (code_high.mpr h)]

theorem pair_code {u v : UInt16} (h : isHigh u) (h' : isLow v) :
    ((u.toUInt32 - 0xD800) <<< 10) + (v.toUInt32 - 0xDC00) + 0x10000 = (pair u v).val := by
  have hu : (u.toUInt32 - 0xD800).toNat = u.toNat - 0xD800 := by
    rw [UInt32.toNat_sub_of_le _ _ (code_high.mpr h).1, UInt16.toNat_toUInt32]
    rfl
  have hv : (v.toUInt32 - 0xDC00).toNat = v.toNat - 0xDC00 := by
    rw [UInt32.toNat_sub_of_le _ _ (code_low.mpr h').1, UInt16.toNat_toUInt32]
    rfl
  have hshift : ((u.toUInt32 - 0xD800) <<< 10).toNat = (u.toNat - 0xD800) * 0x400 := by
    have hlt : (u.toNat - 0xD800) * 0x400 < 2 ^ 32 := by
      have := h.2
      omega
    rw [UInt32.toNat_shiftLeft, hu, Nat.shiftLeft_eq]
    exact Nat.mod_eq_of_lt hlt
  have hten : (0x10000 : UInt32).toNat = 0x10000 := rfl
  apply UInt32.toNat_inj.mp
  rw [UInt32.toNat_add, UInt32.toNat_add, hshift, hv, hten, pair_val h h']
  have := h.2
  have := h'.2
  omega

theorem utf16Loop_pair (n : Nat) {u v : UInt16} (l : List UInt16) (h : isHigh u) (h' : isLow v) :
    utf16Loop (n + 1) (v :: l) u.toUInt32 =
      String.utf8EncodeChar (pair u v) ++ utf16Loop n l 0 := by
  have hbig : ¬ (pair u v).val ≤ 0xffff := by
    rw [UInt32.le_iff_toNat_le, pair_val h h']
    have hmax : (0xffff : UInt32).toNat = 0xffff := rfl
    omega
  rw [utf16Loop, if_pos (high_ne_zero h), utf8_four hbig, ← pair_code h h']
  exact if_pos (code_low.mpr h')

/-- The unit put back is read again, the count having gone down for both. -/
theorem utf16Loop_back (n : Nat) {u v : UInt16} (l : List UInt16) (h : isHigh u)
    (h' : ¬ isLow v) :
    utf16Loop (n + 1) (v :: l) u.toUInt32 =
      String.utf8EncodeChar (alone '?' u) ++ utf16Loop n (v :: l) 0 := by
  rw [utf16Loop, if_pos (high_ne_zero h), alone_bad (Or.inl h)]
  exact if_neg fun hl => h' (code_low.mp hl)

theorem utf8EncodeChar_pos (c : Char) : 0 < (String.utf8EncodeChar c).length := by
  rw [String.length_utf8EncodeChar]
  exact c.utf8Size_pos

/-- All of the text is written where `p` holds, and less of it elsewhere. -/
def Whole (p : Prop) (out text : List UInt8) : Prop :=
  (p → out = text) ∧ (¬ p → out.length < text.length)

theorem Whole.append {p : Prop} {out text : List UInt8} (h : Whole p out text) (b : List UInt8) :
    Whole p (b ++ out) (b ++ text) := by
  refine ⟨fun hp => by rw [h.1 hp], fun hp => ?_⟩
  rw [List.length_append, List.length_append]
  exact Nat.add_lt_add_left (h.2 hp) _

theorem Whole.congr {p q : Prop} {out text : List UInt8} (h : Whole p out text) (hpq : p ↔ q) :
    Whole q out text :=
  ⟨fun hq => h.1 (hpq.mpr hq), fun hq => h.2 fun hp => hq (hpq.mp hp)⟩

theorem Whole.less {p : Prop} {out text : List UInt8} (hp : ¬ p)
    (hlt : out.length < text.length) : Whole p out text :=
  ⟨fun h => absurd h hp, fun _ => hlt⟩

theorem Whole.eq_iff {p : Prop} {out text : List UInt8} (h : Whole p out text) :
    out = text ↔ p := by
  refine ⟨fun he => ?_, h.1⟩
  by_contra hp
  exact absurd (h.2 hp) (by rw [he]; exact Nat.lt_irrefl _)

theorem utf8_pos (u : UInt16) (l : List UInt16) : 0 < (utf8 '?' (u :: l)).length := by
  have hpos (c : Char) (t : List UInt8) : 0 < (String.utf8EncodeChar c ++ t).length := by
    rw [List.length_append]
    exact Nat.lt_of_lt_of_le (utf8EncodeChar_pos c) (Nat.le_add_right _ _)
  cases l with
  | nil => exact hpos _ _
  | cons v l =>
    by_cases h : isHigh u ∧ isLow v
    · rw [utf8_pair l h.1 h.2]
      exact hpos _ _
    · rw [utf8_alone fun w hw => by
        cases hw
        exact h]
      exact hpos _ _

/-- The whole text is written when all units are counted and paired. -/
theorem utf16Loop_whole (l : List UInt16) {n : Nat} (hn : n ≤ l.length) :
    Whole (n = l.length ∧ Paired l) (utf16Loop n l 0) (utf8 '?' l) := by
  induction l using chars.induct generalizing n with
  | case1 =>
    obtain rfl : n = 0 := Nat.le_zero.mp hn
    exact ⟨fun _ => rfl, fun h => absurd ⟨rfl, trivial⟩ h⟩
  | case2 u =>
    cases n with
    | zero => exact Whole.less (by simp) (utf8_pos u [])
    | succ n =>
      obtain rfl : n = 0 := by simpa using hn
      by_cases h : isHigh u
      · rw [utf16Loop_high 0 [] h]
        exact Whole.less (fun hp => hp.2 h) (utf8_pos u [])
      · rw [utf16Loop_alone 0 [] h, utf8_alone (by simp)]
        have hnil : Whole (¬ isHigh u) (utf16Loop 0 [] 0) (utf8 '?' []) :=
          ⟨fun _ => rfl, fun hn => absurd h hn⟩
        exact (hnil.append _).congr ⟨fun hp => ⟨rfl, hp⟩, fun hp => hp.2⟩
  | case3 u v l h ih =>
    cases n with
    | zero => exact Whole.less (by simp) (utf8_pos u _)
    | succ n =>
      rw [utf16Loop_high n _ h.1]
      cases n with
      | zero => exact Whole.less (by simp) (utf8_pos u _)
      | succ n =>
        rw [utf16Loop_pair n l h.1 h.2, utf8_pair l h.1 h.2]
        have hrest := ih (n := n) (by simpa using hn)
        refine (hrest.append _).congr ?_
        rw [paired_pair h.2, List.length_cons, List.length_cons, Nat.add_right_cancel_iff,
          Nat.add_right_cancel_iff]
  | case4 u v l h ih =>
    cases n with
    | zero => exact Whole.less (by simp) (utf8_pos u _)
    | succ n =>
      rw [utf8_alone (u := u) (by simpa using h)]
      by_cases hu : isHigh u
      · have hv : ¬ isLow v := fun hv => h ⟨hu, hv⟩
        have hp : ¬ (n + 1 = (u :: v :: l).length ∧ Paired (u :: v :: l)) :=
          fun hp => hv (hp.2.1 hu)
        rw [utf16Loop_high n _ hu]
        cases n with
        | zero =>
          refine Whole.less hp ?_
          rw [← utf8_alone (u := u) (by simpa using h)]
          exact utf8_pos u _
        | succ n =>
          have hn' : n + 1 ≤ (v :: l).length := by simpa using hn
          rw [utf16Loop_back n l hu hv]
          have hrest := ih (n := n) (Nat.le_of_succ_le hn')
          refine (hrest.append _).congr ⟨fun hq => ?_, fun hq => absurd hq hp⟩
          exact absurd hq.1 (Nat.ne_of_lt hn')
      · rw [utf16Loop_alone n _ hu]
        have hrest := ih (n := n) (by simpa using hn)
        refine (hrest.append _).congr ?_
        rw [paired_tail hu, List.length_cons (a := u), Nat.add_right_cancel_iff]

/-- The text is written in full when no high surrogate is on its own. -/
theorem utf16ToUtf8_text (src : List UInt16) :
    utf16ToUtf8 src = utf8 '?' src ↔ Paired src :=
  (utf16Loop_whole src (Nat.le_refl _)).eq_iff.trans ⟨And.right, fun h => ⟨rfl, h⟩⟩

/-- The `A` after a high surrogate is not written. -/
theorem utf16ToUtf8_eats :
    utf16ToUtf8 [0xD800, 0x41] = [63] ∧ utf8 '?' [0xD800, 0x41] = [63, 0x41] ∧
      utf16ToUtf8 [0xD800, 0x41] ≠ utf8 '?' [0xD800, 0x41] := by
  decide +kernel

end EmacDriver
