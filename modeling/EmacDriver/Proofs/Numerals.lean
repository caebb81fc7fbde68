import EmacDriver.Environment
import Mathlib.Algebra.Ring.Nat

namespace EmacDriver

def digitCode (d : Nat) : UInt8 := UInt8.ofNat d.digitChar.toNat

def numeralIn (b k : Nat) : CStr := (Nat.toDigits b k).map (fun c => UInt8.ofNat c.toNat)

theorem numeralIn_digit {b k : Nat} (h : k < b) : numeralIn b k = [digitCode k] := by
  rw [numeralIn, Nat.toDigits_of_lt_base h]
  rfl

theorem numeralIn_step {b k : Nat} (hb : 1 < b) (h : b ≤ k) :
    numeralIn b k = numeralIn b (k / b) ++ [digitCode (k % b)] := by
  rw [numeralIn, Nat.toDigits_of_base_le hb h, List.map_append]
  rfl

theorem numeralIn_ten (k : Nat) : numeralIn 10 k = cstr (toString k) := by
  simp only [cstr, Nat.toString_eq_repr, Nat.toList_repr]
  rfl

section Base
variable {b : Nat}

/-- It begins with a digit, which is `0` only for zero. -/
theorem numeralIn_head (hb : 1 < b) (k : Nat) :
    ∃ d t, numeralIn b k = digitCode d :: t ∧ d < b ∧ (0 < k → 0 < d) := by
  induction k using Nat.strongRecOn with
  | ind k ih =>
    by_cases h : k < b
    · exact ⟨k, [], numeralIn_digit h, h, id⟩
    · have hle := Nat.le_of_not_lt h
      have hlt : k / b < k := Nat.div_lt_self (by omega) hb
      obtain ⟨d, t, ht, hd, hpos⟩ := ih (k / b) hlt
      refine ⟨d, t ++ [digitCode (k % b)], ?_, hd, fun _ => hpos (Nat.div_pos hle (by omega))⟩
      rw [numeralIn_step hb hle, ht]
      rfl

theorem length_numeralIn (hb : 1 < b) (n : Nat) {k : Nat} (h : k < b ^ (n + 1)) :
    (numeralIn b k).length ≤ n + 1 := by
  induction n generalizing k with
  | zero =>
    have hk : k < b := by rwa [Nat.zero_add, Nat.pow_one] at h
    exact Nat.le_of_eq (congrArg List.length (numeralIn_digit hk))
  | succ n ih =>
    by_cases hk : k < b
    · rw [numeralIn_digit hk, List.length_singleton]
      omega
    · have hdiv : k / b < b ^ (n + 1) := by
        rw [Nat.pow_succ] at h
        exact Nat.div_lt_of_lt_mul (by rwa [Nat.mul_comm])
      rw [numeralIn_step hb (Nat.le_of_not_lt hk), List.length_append, List.length_singleton]
      exact Nat.succ_le_succ (ih hdiv)

theorem digitCode_spec {d : Nat} (h : d < 16) :
    isxdigit (digitCode d) = true ∧ digitValue (digitCode d) = UInt64.ofNat d ∧
      (digitCode d = 48 → d = 0) ∧ tolower (digitCode d) ≠ 120 := by
  have hall : ∀ d : Fin 16, isxdigit (digitCode d) = true ∧
      digitValue (digitCode d) = UInt64.ofNat d ∧ (digitCode d = 48 → d.val = 0) ∧
      tolower (digitCode d) ≠ 120 := by
    decide
  exact hall ⟨d, h⟩

theorem numeralIn_digits (hb : 1 < b) (k : Nat) : ∀ c ∈ numeralIn b k, ∃ d < b, c = digitCode d := by
  induction k using Nat.strongRecOn with
  | ind k ih =>
    intro c hc
    by_cases h : k < b
    · rw [numeralIn_digit h, List.mem_singleton] at hc
      exact ⟨k, h, hc⟩
    · have hle := Nat.le_of_not_lt h
      rw [numeralIn_step hb hle, List.mem_append, List.mem_singleton] at hc
      rcases hc with hc | hc
      · exact ih (k / b) (Nat.div_lt_self (by omega) hb) c hc
      · exact ⟨k % b, Nat.mod_lt k (by omega), hc⟩

/-- One digit read. -/
theorem strtoulLoop_digitCode (hb : b ≤ 16) {d : Nat} (hd : d < b) (cp : CStr) (result : UInt64) :
    strtoulLoop b (digitCode d :: cp) result =
      strtoulLoop b cp (result * UInt64.ofNat b + UInt64.ofNat d) := by
  obtain ⟨hx, hv, -⟩ := digitCode_spec (Nat.lt_of_lt_of_le hd hb)
  have hlt : (UInt64.ofNat d).toNat < b := by
    rw [UInt64.toNat_ofNat']
    omega
  rw [strtoulLoop, hv, if_pos ⟨hx, hlt⟩]

/-- A numeral read: the value is there when the rest is. -/
theorem strtoulLoop_numeralIn (hb : 1 < b) (hb' : b ≤ 16) (k : Nat) (cp : CStr) :
    strtoulLoop b (numeralIn b k ++ cp) 0 = strtoulLoop b cp (UInt64.ofNat k) := by
  induction k using Nat.strongRecOn generalizing cp with
  | ind k ih =>
    by_cases h : k < b
    · rw [numeralIn_digit h, List.singleton_append, strtoulLoop_digitCode hb' h, UInt64.zero_mul,
        UInt64.zero_add]
    · have hvalue : UInt64.ofNat (k / b) * UInt64.ofNat b + UInt64.ofNat (k % b) =
          UInt64.ofNat k := by
        have hk := congrArg UInt64.ofNat (Nat.div_add_mod' k b)
        rwa [UInt64.ofNat_add, UInt64.ofNat_mul] at hk
      rw [numeralIn_step hb (Nat.le_of_not_lt h), List.append_assoc,
        ih (k / b) (Nat.div_lt_self (by omega) hb), List.singleton_append,
        strtoulLoop_digitCode hb' (Nat.mod_lt k (by omega)), hvalue]

/-- No prefix is taken off a numeral. -/
theorem simpleStrtoul_numeralIn (hb : 1 < b) (hb' : b ≤ 16) (n : UInt64) :
    simpleStrtoul (numeralIn b n.toNat) b = (n, []) := by
  have hfixup : parseIntegerFixupRadix (numeralIn b n.toNat) b = (numeralIn b n.toNat, b) := by
    have hx : tolower ((numeralIn b n.toNat).getD 1 0) ≠ 120 := by
      rw [List.getD_eq_getElem?_getD]
      cases hc : (numeralIn b n.toNat)[1]? with
      | none => decide
      | some c =>
        obtain ⟨d, hd, rfl⟩ := numeralIn_digits hb n.toNat c (List.mem_of_getElem? hc)
        exact (digitCode_spec (Nat.lt_of_lt_of_le hd hb')).2.2.2
    have h0 : b ≠ 0 := by omega
    rw [parseIntegerFixupRadix, if_neg h0]
    exact if_neg fun h => hx h.2.2
  have hloop := strtoulLoop_numeralIn hb hb' n.toNat []
  rw [List.append_nil] at hloop
  rw [simpleStrtoul, hfixup]
  dsimp only
  rw [hloop, strtoulLoop, UInt64.ofNat_toNat]

end Base

def digitByte (d : Nat) : UInt8 := UInt8.ofNat (48 + d)

theorem digitByte_spec {d : Nat} (h : d < 10) :
    digitCode d = digitByte d ∧ isdigit (digitByte d) = true ∧ (digitByte d).toNat - 48 = d := by
  have hall : ∀ d : Fin 10, digitCode d = digitByte d ∧ isdigit (digitByte d) = true ∧
      (digitByte d).toNat - 48 = d := by
    decide
  exact hall ⟨d, h⟩

theorem cstr_toString_step {k : Nat} (h : 10 ≤ k) :
    cstr (toString k) = cstr (toString (k / 10)) ++ [digitByte (k % 10)] := by
  rw [← numeralIn_ten, ← numeralIn_ten, numeralIn_step (by decide) h,
    (digitByte_spec (Nat.mod_lt k (by decide))).1]

theorem cstr_toString_digit {k : Nat} (h : k < 10) : cstr (toString k) = [digitByte k] := by
  rw [← numeralIn_ten, numeralIn_digit h, (digitByte_spec h).1]

theorem cstr_toString_head (k : Nat) :
    ∃ d t, cstr (toString k) = digitByte d :: t ∧ d < 10 ∧ (0 < k → 0 < d) := by
  obtain ⟨d, t, ht, hd, hpos⟩ := numeralIn_head (by decide : 1 < 10) k
  rw [numeralIn_ten, (digitByte_spec hd).1] at ht
  exact ⟨d, t, ht, hd, hpos⟩

theorem toString_digits (k : Nat) : ∀ c ∈ cstr (toString k), ∃ d < 10, c = digitByte d := by
  intro c hc
  rw [← numeralIn_ten] at hc
  obtain ⟨d, hd, rfl⟩ := numeralIn_digits (by decide) k c hc
  exact ⟨d, hd, (digitByte_spec hd).1⟩

def numeral (f : CStr) : Nat := f.foldl (fun v c => v * 10 + (c.toNat - 48)) 0

theorem digitValue_iff : ∀ c : UInt8,
    (isxdigit c ∧ (digitValue c).toNat < 10 ↔ isdigit c = true) ∧
      (isdigit c = true → digitValue c = UInt64.ofNat (c.toNat - 48)) := by
  have hall : ∀ n : Fin 256,
      (isxdigit (UInt8.ofNat n.val) ∧ (digitValue (UInt8.ofNat n.val)).toNat < 10 ↔
        isdigit (UInt8.ofNat n.val) = true) ∧
      (isdigit (UInt8.ofNat n.val) = true →
        digitValue (UInt8.ofNat n.val) = UInt64.ofNat ((UInt8.ofNat n.val).toNat - 48)) := by
    decide +kernel
  intro c
  have hc := hall ⟨c.toNat, c.toNat_lt⟩
  simpa only [UInt8.ofNat_toNat] using hc

/-- The digit loop goes over a run of digits, and wraps at 2^64. -/
theorem strtoulLoop_ten (s : CStr) (v : Nat) :
    strtoulLoop 10 s (UInt64.ofNat v) =
      (UInt64.ofNat ((s.takeWhile isdigit).foldl (fun v c => v * 10 + (c.toNat - 48)) v),
        s.dropWhile isdigit) := by
  induction s generalizing v with
  | nil => rfl
  | cons c s ih =>
    obtain ⟨hiff, hvalue⟩ := digitValue_iff c
    rw [strtoulLoop]
    cases hd : isdigit c with
    | true =>
      have hstep : UInt64.ofNat v * UInt64.ofNat 10 + digitValue c =
          UInt64.ofNat (v * 10 + (c.toNat - 48)) := by
        rw [hvalue hd, UInt64.ofNat_add, UInt64.ofNat_mul]
      rw [if_pos (hiff.mpr hd), hstep, ih, List.takeWhile_cons_of_pos hd,
        List.dropWhile_cons_of_pos hd, List.foldl_cons]
    | false =>
      have hno : ¬ (isxdigit c ∧ (digitValue c).toNat < 10) := by
        rw [hiff, hd]
        exact Bool.false_ne_true
      have hd' : ¬ isdigit c = true := by simp [hd]
      rw [if_neg hno, List.takeWhile_cons_of_neg hd', List.dropWhile_cons_of_neg hd']
      rfl

theorem numeral_append (f : CStr) (c : UInt8) :
    numeral (f ++ [c]) = numeral f * 10 + (c.toNat - 48) := by
  rw [numeral, List.foldl_append]
  rfl

/-- A numeral has the value it was written for. -/
theorem numeral_toString (k : Nat) : numeral (cstr (toString k)) = k := by
  induction k using Nat.strongRecOn with
  | ind k ih =>
    by_cases h : k < 10
    · rw [cstr_toString_digit h]
      exact (Nat.zero_add _).trans (digitByte_spec h).2.2
    · have hd := (digitByte_spec (Nat.mod_lt k (by decide : 0 < 10))).2.2
      rw [cstr_toString_step (by omega), numeral_append, ih (k / 10) (by omega), hd]
      omega

theorem numeral_digits (k : Nat) : ∀ c ∈ cstr (toString k), isdigit c = true := by
  intro c hc
  obtain ⟨d, hd, rfl⟩ := toString_digits k c hc
  exact (digitByte_spec hd).2.1

end EmacDriver
