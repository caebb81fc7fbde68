import EmacDriver.IpText
import EmacDriver.Proofs.FormatText

namespace EmacDriver
open Bytes

def maskDigit (d : Nat) (locase : UInt8) : UInt8 :=
  (cstr "0123456789ABCDEF").getD d 0 ||| locase

/-- The digit loop of base `2 ^ s` writes the numeral back to front. -/
theorem maskDigits_eq {s : Nat} {locase : UInt8} (hs : 0 < s ∧ s ≤ 4)
    (hdigit : ∀ d < 2 ^ s, maskDigit d locase = digitCode d) (n : Nat) {k : Nat}
    (hk : k < (2 ^ s) ^ n) (hn : 0 < n) :
    maskDigits (2 ^ s - 1) s locase n k = (numeralIn (2 ^ s) k).reverse := by
  have hbase : 1 < 2 ^ s := Nat.one_lt_two_pow (by omega)
  induction n generalizing k with
  | zero => omega
  | succ n ih =>
    have hpos : 0 < 2 ^ s := Nat.two_pow_pos s
    have hmask : k % 256 &&& 2 ^ s - 1 = k % 2 ^ s := by
      have hdvd : 2 ^ s ∣ 256 := Nat.pow_dvd_pow 2 (by omega : s ≤ 8)
      rw [Nat.and_two_pow_sub_one_eq_mod, Nat.mod_mod_of_dvd _ hdvd]
    have hfirst : (cstr "0123456789ABCDEF").getD (k % 256 &&& 2 ^ s - 1) 0 ||| locase =
        digitCode (k % 2 ^ s) := by
      rw [hmask]
      exact hdigit _ (Nat.mod_lt k hpos)
    rw [maskDigits, hfirst, Nat.shiftRight_eq_div_pow]
    by_cases h : k < 2 ^ s
    · rw [if_pos (Nat.div_eq_of_lt h), numeralIn_digit h, Nat.mod_eq_of_lt h]
      rfl
    · have hle := Nat.le_of_not_lt h
      have hdiv : k / 2 ^ s < (2 ^ s) ^ n := by
        rw [Nat.pow_succ] at hk
        exact Nat.div_lt_of_lt_mul (by rwa [Nat.mul_comm])
      have hmore : 0 < k / 2 ^ s := Nat.div_pos hle hpos
      have hn' : 0 < n := by
        by_contra h0
        rw [Nat.eq_zero_of_not_pos h0, Nat.pow_zero] at hdiv
        omega
      rw [if_neg (by omega), ih hdiv hn', numeralIn_step hbase hle, List.reverse_append]
      rfl

theorem numberDigits_hex (num : UInt64) :
    numberDigits num 16 0x20 = (numeralIn 16 num.toNat).reverse := by
  by_cases h : num = 0
  · subst h
    rfl
  · rw [numberDigits, if_neg h, if_pos (by decide)]
    exact maskDigits_eq (s := 4) (by decide) (by decide) 22
      (Nat.lt_trans num.toNat_lt (by decide)) (by decide)

theorem numberDigits_octal (num : UInt64) :
    numberDigits num 8 0 = (numeralIn 8 num.toNat).reverse := by
  by_cases h : num = 0
  · subst h
    rfl
  · rw [numberDigits, if_neg h, if_pos (by decide)]
    exact maskDigits_eq (s := 3) (by decide) (by decide) 22
      (Nat.lt_trans num.toNat_lt (by decide)) (by decide)

theorem number_unsigned {num : UInt64} {base : Nat} {type : Flags} (hleft : type.left = false)
    (hzero : type.zeropad = false) (hspecial : type.special = false) (hsign : type.sign = false)
    (hdigits : numberDigits num base (if type.small then 0x20 else 0) =
      (numeralIn base num.toNat).reverse) :
    number num base (-1) (-1) type = numeralIn base num.toNat := by
  have hnosign : signOf num (-1) type = ([], num, -1) := by simp [signOf, hsign]
  rw [number_plain base hleft hzero hspecial hnosign (by decide), hdigits, List.reverse_reverse]
  rfl

def ulongConversions : List (CStr × Nat) := [(cstr "%lu", 10), (cstr "%lx", 16), (cstr "%lo", 8)]

theorem formatPieces_ulong (args : Nat → Arg) {fmt : CStr} {base : Nat}
    (h : (fmt, base) ∈ ulongConversions) :
    formatPieces fmt args = some [.chars (numeralIn base (args 0).word.toNat)] := by
  simp only [ulongConversions, List.mem_cons, Prod.mk.injEq, List.not_mem_nil, or_false] at h
  rcases h with ⟨rfl, rfl⟩ | ⟨rfl, rfl⟩ | ⟨rfl, rfl⟩
  · have hpieces : formatPieces (cstr "%lu") args =
        some [.chars (number (args 0).word 10 (-1) (-1) Flags.none)] := rfl
    have hdigits : numberDigits (args 0).word 10 0 = (numeralIn 10 (args 0).word.toNat).reverse := by
      rw [numberDigits_ten, numeralIn_ten, lastFirst]
    rw [hpieces, number_unsigned rfl rfl rfl rfl hdigits]
  · have hpieces : formatPieces (cstr "%lx") args =
        some [.chars (number (args 0).word 16 (-1) (-1) { Flags.none with small := true })] := rfl
    rw [hpieces, number_unsigned rfl rfl rfl rfl (numberDigits_hex _)]
  · have hpieces : formatPieces (cstr "%lo") args =
        some [.chars (number (args 0).word 8 (-1) (-1) Flags.none)] := rfl
    rw [hpieces, number_unsigned rfl rfl rfl rfl (numberDigits_octal _)]

theorem ulong_base {fmt : CStr} {base : Nat} (h : (fmt, base) ∈ ulongConversions) :
    1 < base ∧ base ≤ 16 ∧ 2 ^ 64 < base ^ 22 := by
  have hall : ∀ p ∈ ulongConversions, 1 < p.2 ∧ p.2 ≤ 16 ∧ 2 ^ 64 < p.2 ^ 22 := by decide
  exact hall _ h

theorem numeralIn_no_nul {b : Nat} (hb : 1 < b) (hb' : b ≤ 16) (k : Nat) : 0 ∉ numeralIn b k := by
  intro h
  obtain ⟨d, hd, hc⟩ := numeralIn_digits hb k 0 h
  have hall : ∀ d : Fin 16, 0 ≠ digitCode d := by decide
  exact hall ⟨d, Nat.lt_of_lt_of_le hd hb'⟩ hc

theorem itoa_digit (i : UInt64) : (48 + i % 10).toUInt8 = digitCode (i.toNat % 10) := by
  have hmod : (i % 10).toNat = i.toNat % 10 := UInt64.toNat_mod ..
  have hsum : (48 + i % 10).toNat = 48 + i.toNat % 10 := by
    rw [UInt64.toNat_add, hmod]
    have h48 : (48 : UInt64).toNat = 48 := rfl
    rw [h48]
    omega
  apply UInt8.toNat_inj.mp
  rw [(digitByte_spec (Nat.mod_lt _ (by decide))).1, digitByte, UInt64.toNat_toUInt8, hsum,
    UInt8.toNat_ofNat']

theorem itoaLoop_succ (n : Nat) (i : UInt64) (p : CStr) :
    itoaLoop (n + 1) i p =
      if i.toNat < 10 then some (digitCode (i.toNat % 10) :: p)
      else itoaLoop n (i / 10) (digitCode (i.toNat % 10) :: p) := by
  have hmore : i / 10 > 0 ↔ ¬ i.toNat < 10 := by
    have hdiv : (i / 10).toNat = i.toNat / 10 := UInt64.toNat_div ..
    have hzero : (0 : UInt64).toNat = 0 := rfl
    rw [gt_iff_lt, UInt64.lt_iff_toNat_lt, hdiv, hzero]
    omega
  rw [itoaLoop, itoa_digit]
  by_cases h : i.toNat < 10
  · rw [if_pos h, if_neg (fun hm => hmore.mp hm h)]
  · rw [if_neg h, if_pos (hmore.mpr h)]

/-- The digits of `simple_itoa`, as long as there is room for them. -/
theorem itoaLoop_eq (n : Nat) {i : UInt64} (h : i.toNat < 10 ^ (n + 1)) (p : CStr) :
    itoaLoop (n + 1) i p = some (numeralIn 10 i.toNat ++ p) := by
  induction n generalizing i p with
  | zero =>
    have hi : i.toNat < 10 := by simpa using h
    rw [itoaLoop_succ, if_pos hi, numeralIn_digit hi, Nat.mod_eq_of_lt hi]
    rfl
  | succ n ih =>
    rw [itoaLoop_succ]
    by_cases hi : i.toNat < 10
    · rw [if_pos hi, numeralIn_digit hi, Nat.mod_eq_of_lt hi]
      rfl
    · have hdiv : (i / 10).toNat = i.toNat / 10 := UInt64.toNat_div ..
      have hrest : (i / 10).toNat < 10 ^ (n + 1) := by
        rw [hdiv]
        rw [Nat.pow_succ] at h
        exact Nat.div_lt_of_lt_mul (by rwa [Nat.mul_comm])
      rw [if_neg hi, ih hrest, hdiv, numeralIn_step (by decide) (Nat.le_of_not_lt hi),
        List.append_assoc]
      rfl

theorem simpleItoa_eq (i : UInt64) : simpleItoa i = some (numeralIn 10 i.toNat) := by
  have h := itoaLoop_eq 20 (Nat.lt_trans i.toNat_lt (by decide)) []
  rwa [List.append_nil] at h

/-- The text of a conversion, in a buffer with room for the longest. -/
theorem sprintf_ulong (mem : Buf) {buf : UInt64} (args : Nat → Arg) {fmt : CStr} {base : Nat}
    (h : (fmt, base) ∈ ulongConversions) (hroom : buf.toNat + 23 < 2 ^ 64) :
    ∃ mem', sprintf mem buf fmt args =
        some (mem', ((numeralIn base (args 0).word.toNat).length : Int)) ∧
      cstrAt mem' buf 23 = numeralIn base (args 0).word.toNat := by
  obtain ⟨hb, hb', hpow⟩ := ulong_base h
  have hpieces := formatPieces_ulong args h
  have htext : formatText fmt args = numeralIn base (args 0).word.toNat := by
    rw [formatText, hpieces]
    exact List.append_nil _
  have hlen := length_numeralIn hb 21 (Nat.lt_trans (args 0).word.toNat_lt hpow)
  obtain ⟨mem', hcall, htrunc⟩ := vsnprintfInternal_chars hpieces (by simp) mem buf 2147483647
    (by rw [htext]; omega)
  rw [htext] at htrunc hcall
  rw [toInt_of_range (by omega) (by omega)] at hcall
  refine ⟨mem', hcall, ?_⟩
  have hsize : (2147483647 : UInt64).toNat = 2147483647 := rfl
  exact htrunc.string (numeralIn_no_nul hb hb' _) (by omega) (by omega)

/-- What is written for a 64-bit number is its numeral, and is read back. -/
theorem number_text_round_trip (mem : Buf) (buf : UInt64) (args : Nat → Arg)
    (hroom : buf.toNat + 23 < 2 ^ 64) :
    (∀ fmt base, (fmt, base) ∈ ulongConversions → ∃ mem' text,
      sprintf mem buf fmt args = some (mem', (text.length : Int)) ∧ text.length < 23 ∧
      cstrAt mem' buf 23 = text ∧ text = numeralIn base (args 0).word.toNat ∧
      ((args 0).word ≠ 0 → text.head? ≠ some 48) ∧
      simpleStrtoul text base = ((args 0).word, [])) ∧
    simpleItoa (args 0).word = some (numeralIn 10 (args 0).word.toNat) := by
  refine ⟨?_, simpleItoa_eq _⟩
  intro fmt base h
  obtain ⟨hb, hb', hpow⟩ := ulong_base h
  obtain ⟨mem', hcall, htext⟩ := sprintf_ulong mem args h hroom
  have hlen := length_numeralIn hb 21 (Nat.lt_trans (args 0).word.toNat_lt hpow)
  refine ⟨mem', _, hcall, by omega, htext, rfl, ?_, simpleStrtoul_numeralIn hb hb' _⟩
  intro hne hhead
  obtain ⟨d, t, ht, hd, hpos⟩ := numeralIn_head hb (args 0).word.toNat
  have hzero : digitCode d = 48 := by
    rw [ht] at hhead
    exact Option.some.inj hhead
  have hd0 := (digitCode_spec (Nat.lt_of_lt_of_le hd hb')).2.2.1 hzero
  have hword : 0 < (args 0).word.toNat :=
    Nat.pos_of_ne_zero fun h0 => hne (UInt64.toNat_inj.mp h0)
  exact Nat.ne_of_gt (hpos hword) hd0

theorem number_text_round_trip_max :
    (∀ fmt base, (fmt, base) ∈ ulongConversions → ∃ mem' text,
      sprintf (fun _ => 255) 4096 fmt (fun _ => ⟨0xffffffffffffffff, none, fun _ => 0⟩) =
        some (mem', (text.length : Int)) ∧ text.length < 23 ∧
      cstrAt mem' 4096 23 = text ∧ text = numeralIn base 18446744073709551615 ∧
      ((0xffffffffffffffff : UInt64) ≠ 0 → text.head? ≠ some 48) ∧
      simpleStrtoul text base = (0xffffffffffffffff, [])) ∧
    simpleItoa 0xffffffffffffffff = some (numeralIn 10 18446744073709551615) :=
  number_text_round_trip (fun _ => 255) 4096 (fun _ => ⟨0xffffffffffffffff, none, fun _ => 0⟩)
    (by decide)

end EmacDriver
