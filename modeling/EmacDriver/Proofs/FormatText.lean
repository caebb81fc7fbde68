import EmacDriver.EthAddr
import EmacDriver.Proofs.DigitSpec
import EmacDriver.Proofs.EnvMap
import EmacDriver.Proofs.FormatSpec

namespace EmacDriver
open Bytes

theorem strnlen_eq {s : CStr} {n : Nat} (h0 : 0 ∉ s) (hn : s.length ≤ n) :
    strnlen s n = s.length := by
  induction s generalizing n with
  | nil => rfl
  | cons c s ih =>
    cases n with
    | zero => simp at hn
    | succ n =>
      have hc : c ≠ 0 := fun h => h0 (h ▸ List.mem_cons_self)
      have hrest := ih (fun h => h0 (List.mem_cons_of_mem c h)) (Nat.le_of_succ_le_succ hn)
      rw [strnlen, if_neg hc, hrest, List.length_cons]

/-- A plain `%s` writes its string. -/
theorem string_plain {s : CStr} (h0 : 0 ∉ s) (h : s.length < 2 ^ 31) (flags : Flags) :
    string (some s) (-1) (-1) flags = s := by
  have hlen : strnlen s (toSize (-1)) = s.length :=
    strnlen_eq h0 (Nat.le_trans (Nat.le_of_lt h) (by decide))
  have hint : toInt (s.length : Int) = s.length := toInt_of_range (by omega) (by omega)
  have hpad : (-1 - (s.length : Int)).toNat = 0 := by omega
  have hpad' : (min (-1) (s.length : Int) - 1 - s.length).toNat = 0 := by omega
  simp only [string, Option.getD_some, hlen, hint, fieldLoop]
  by_cases h : flags.left = true
  · simp only [if_pos h, hpad]
    simp
  · simp only [if_neg h, hpad, hpad']
    simp

def decimal (num : UInt64) : CStr :=
  if num ≥ 0x8000000000000000 then 45 :: cstr (toString (-num).toNat)
  else cstr (toString num.toNat)

theorem numberDigits_ten (num : UInt64) (locase : UInt8) :
    numberDigits num 10 locase = lastFirst num.toNat := by
  by_cases h : num = 0
  · subst h
    rw [numberDigits, if_pos rfl]
    decide
  · simp only [numberDigits, if_neg h]
    exact putDec_eq num.toNat_lt

/-- Without a width and a precision there are the sign and the digits only. -/
theorem number_plain {num n : UInt64} {size : Int} {sign : List UInt8} {type : Flags} (base : Nat)
    (hleft : type.left = false) (hzero : type.zeropad = false) (hspecial : type.special = false)
    (hsign : signOf num (-1) type = (sign, n, size)) (hsize : size ≤ -1) :
    number num base (-1) (-1) type =
      sign ++ (numberDigits n base (if type.small then 0x20 else 0)).reverse := by
  have hlen := Int.natCast_nonneg (numberDigits n base (if type.small then 0x20 else 0)).length
  generalize hds : numberDigits n base (if type.small then 0x20 else 0) = ds at hlen
  have hmax : max (ds.length : Int) (-1) = ds.length := by omega
  have hlead : (size - (ds.length : Int)).toNat = 0 := by omega
  have hrest : (min (size - (ds.length : Int)) 0 - 1).toNat = 0 := by omega
  have hlast : (min (min (size - (ds.length : Int)) 0 - 1) 0 - 1).toNat = 0 := by omega
  simp only [number, hleft, Bool.false_eq_true, if_false, hsign, hds, hmax, hzero, Bool.or_false,
    padLoop, hspecial, Bool.false_and, hlead, hrest, hlast]
  simp

/-- A plain `%d` writes its numeral. -/
theorem number_signed (num : UInt64) : number num 10 (-1) (-1) signFlag = decimal num := by
  have hdigits : ∀ n : UInt64, (numberDigits n 10 0).reverse = cstr (toString n.toNat) := by
    intro n
    rw [numberDigits_ten]
    exact List.reverse_reverse _
  by_cases h : num ≥ 0x8000000000000000
  · have hsign : signOf num (-1) signFlag = ([45], -num, -2) := by
      rw [signOf]
      simp [signFlag, h]
    rw [decimal, if_pos h, ← hdigits]
    exact number_plain 10 rfl rfl rfl hsign (by decide)
  · have hsign : signOf num (-1) signFlag = ([], num, -1) := by
      rw [signOf]
      simp [signFlag, Flags.none, h]
    rw [decimal, if_neg h, ← hdigits]
    exact number_plain 10 rfl rfl rfl hsign (by decide)

/-- A numeral is as long as its number is big. -/
theorem length_toString_le (n : Nat) {k : Nat} (h : k < 10 ^ (n + 1)) :
    (cstr (toString k)).length ≤ n + 1 := by
  rw [← numeralIn_ten]
  exact length_numeralIn (by decide) n h

/-- A minus sign and digits: all of them in front of the letters. -/
theorem decimal_bytes (num : UInt64) : ∀ c ∈ decimal num, c ≠ 0 ∧ c < 58 := by
  have hdigit : ∀ d : Fin 10, digitByte d ≠ 0 ∧ digitByte d < 58 := by decide
  have hnumeral : ∀ k : Nat, ∀ c ∈ cstr (toString k), c ≠ 0 ∧ c < 58 := by
    intro k c hc
    obtain ⟨d, hd, rfl⟩ := toString_digits k c hc
    exact hdigit ⟨d, hd⟩
  rw [decimal]
  split
  · intro c hc
    rcases List.mem_cons.mp hc with rfl | hc
    · decide
    · exact hnumeral _ c hc
  · exact hnumeral _

/-- An `int` argument has at most eleven characters. -/
theorem decimal_int_length (a : Arg) : (decimal (numArg a none signFlag)).length ≤ 11 := by
  have hnum : numArg a none signFlag = a.word.toUInt32.toInt32.toInt64.toUInt64 := rfl
  have hint := Int32.toInt_toInt64 a.word.toUInt32.toInt32
  have hlo := a.word.toUInt32.toInt32.le_toInt
  have hhi := a.word.toUInt32.toInt32.toInt_lt
  rw [hnum]
  generalize a.word.toUInt32.toInt32.toInt64 = x at *
  rw [← hint] at hlo hhi
  have hto : x.toInt = if 2 * x.toUInt64.toNat < 2 ^ 64 then (x.toUInt64.toNat : Int)
      else x.toUInt64.toNat - 2 ^ 64 := BitVec.toInt_eq_toNat_cond ..
  have hlt := x.toUInt64.toNat_lt
  have hbig : x.toUInt64 ≥ 0x8000000000000000 ↔ 2 ^ 63 ≤ x.toUInt64.toNat :=
    UInt64.le_iff_toNat_le
  rw [decimal]
  by_cases hneg : x.toUInt64 ≥ 0x8000000000000000
  · have hmag : (-x.toUInt64).toNat < 10 ^ 10 := by
      have := hbig.mp hneg
      rw [UInt64.toNat_neg, UInt64.size]
      omega
    rw [if_pos hneg, List.length_cons]
    exact Nat.succ_le_succ (length_toString_le 9 hmag)
  · have hmag : x.toUInt64.toNat < 10 ^ 10 := by
      have := mt hbig.mpr hneg
      omega
    rw [if_neg hneg]
    exact Nat.le_succ_of_le (length_toString_le 9 hmag)

/-- A slice in two parts. -/
theorem slice_add (b : Buf) (o m n : Nat) :
    slice b o (m + n) = slice b o m ++ slice b (o + m) n := by
  simp only [slice, List.range_add, List.map_append, List.map_map]
  congr 2
  funext i
  exact congrArg b (by simp; omega)

/-- Text with room for its NUL is the string that is then there. -/
theorem Truncated.string {mem mem' : Buf} {buf size n : Nat} {out : List UInt8}
    (h : Truncated mem buf size out mem') (h0 : 0 ∉ out) (hsize : out.length < size)
    (hn : out.length < n) : (slice mem' buf n).takeWhile (· ≠ 0) = out := by
  have htext := h.text (by omega)
  rw [Nat.min_eq_left (by omega), List.take_of_length_le (by omega)] at htext
  have hslice : slice mem' buf n = out ++ 0 ::
      slice mem' (buf + (out.length + 1)) (n - (out.length + 1)) := by
    rw [← List.singleton_append, ← List.append_assoc, ← htext, ← slice_add]
    congr 1
    omega
  have hkeep : ∀ c ∈ out, decide (c ≠ 0) = true :=
    fun c hc => decide_eq_true (fun hz => h0 (hz ▸ hc))
  rw [hslice, List.takeWhile_append_of_pos hkeep, List.takeWhile_cons, if_neg (by simp),
    List.append_nil]

/-- A local array takes text that fits, and only that. -/
theorem sprintfLocal_text {n : Nat} {fmt : CStr} {args : Nat → Arg} (hs : StoresNothing fmt args)
    (h0 : 0 ∉ formatText fmt args) (hlen : (formatText fmt args).length < 2147483647) :
    sprintfLocal n fmt args =
      if (formatText fmt args).length < n then some (formatText fmt args) else none := by
  have hzero : (0 : UInt64).toNat = 0 := rfl
  have hsize : (2147483647 : UInt64).toNat = 2147483647 := rfl
  obtain ⟨mem', hcall, htrunc⟩ := vsnprintfInternal_text hs (fun _ => 0) 0 2147483647
    (by rw [hzero]; omega)
  rw [hzero, hsize] at htrunc
  rw [toInt_of_range (by omega) (by omega)] at hcall
  simp only [sprintfLocal, sprintf, hcall, Option.bind_eq_bind, Option.bind_some]
  by_cases hfit : (formatText fmt args).length < n
  · rw [if_pos (by omega), if_pos hfit, htrunc.string h0 hlen hfit]
  · rw [if_neg (by omega), if_neg hfit]

/-- Text that fits its array is the string. -/
theorem sprintfLocal_eq {n : Nat} {fmt : CStr} {args : Nat → Arg} (hs : StoresNothing fmt args)
    (h0 : 0 ∉ formatText fmt args) (hlen : (formatText fmt args).length < n) (hn : n < 2 ^ 31) :
    sprintfLocal n fmt args = some (formatText fmt args) := by
  rw [sprintfLocal_text hs h0 (by omega), if_pos hlen]

end EmacDriver
