import EmacDriver.Proofs.IpFields

namespace EmacDriver
open Bytes

/-- The octet above bit `n`. -/
theorem octet_toNat (x : UInt32) {n : Nat} (hn : n < 32) :
    (x >>> UInt32.ofNat n &&& 0xff).toNat = x.toNat / 2 ^ n % 256 := by
  have hmask := Nat.and_two_pow_sub_one_eq_mod (x.toNat >>> n) 8
  have hshift : (x >>> UInt32.ofNat n).toNat = x.toNat >>> n := by
    rw [UInt32.toNat_shiftRight, UInt32.toNat_ofNat', Nat.mod_eq_of_lt (b := 2 ^ 32) (by omega),
      Nat.mod_eq_of_lt hn]
  rw [UInt32.toNat_and, hshift, ← Nat.shiftRight_eq_div_pow]
  exact hmask

def intText (a : Arg) : CStr := number (numArg a none signFlag) 10 (-1) (-1) signFlag

theorem decimal_ofNat {k : Nat} (h : k < 256) : decimal (UInt64.ofNat k) = cstr (toString k) := by
  have hk : (UInt64.ofNat k).toNat = k := by
    rw [UInt64.toNat_ofNat']
    omega
  have hsmall : ¬ UInt64.ofNat k ≥ 0x8000000000000000 := by
    rw [ge_iff_le, UInt64.le_iff_toNat_le, hk]
    exact Nat.not_le.mpr (Nat.lt_trans h (by decide))
  rw [decimal, if_neg hsmall, hk]

/-- An octet is passed as an `int`, and written as its number. -/
theorem intText_octet {x n : UInt32} {k : Nat} (h : (x >>> n &&& 0xff).toNat = k) (hk : k < 256) :
    intText (octetArg x n) = cstr (toString k) := by
  have hall : ∀ k : Fin 256,
      numArg ⟨(UInt32.ofNat k).toUInt64, none, fun _ => 0⟩ none signFlag = UInt64.ofNat k := by
    decide +kernel
  have hoctet : x >>> n &&& 0xff = UInt32.ofNat k := by
    rw [← h, UInt32.ofNat_toNat]
  rw [intText, number_signed, octetArg, hoctet, hall ⟨k, hk⟩, decimal_ofNat hk]

def dotted (a b c d : Nat) : CStr :=
  cstr (toString a) ++ 46 :: (cstr (toString b) ++ 46 :: (cstr (toString c) ++
    46 :: cstr (toString d)))

theorem formatPieces_ip (args : Nat → Arg) : formatPieces (cstr "%d.%d.%d.%d") args =
    some [.chars (intText (args 0)), .chars [46], .chars (intText (args 1)), .chars [46],
      .chars (intText (args 2)), .chars [46], .chars (intText (args 3))] := rfl

theorem formatText_ip {args : Nat → Arg} {a b c d : Nat}
    (ha : intText (args 0) = cstr (toString a)) (hb : intText (args 1) = cstr (toString b))
    (hc : intText (args 2) = cstr (toString c)) (hd : intText (args 3) = cstr (toString d)) :
    formatText (cstr "%d.%d.%d.%d") args = dotted a b c d := by
  rw [formatText, formatPieces_ip, ha, hb, hc, hd]
  simp [Piece.text, dotted]

theorem begins_last (f : CStr) : Begins f [f] :=
  ⟨[], (List.append_nil f).symm, rfl, fun h => absurd rfl h⟩

theorem Begins.dot {s f : CStr} {fs : List CStr} (h : Begins s fs) :
    Begins (f ++ 46 :: s) (f :: fs) :=
  ⟨46 :: s, rfl, rfl, fun _ => ⟨rfl, h⟩⟩

/-- Four numerals with dots between are read as these. -/
theorem quad_dotted (a b c d : Nat) :
    Quad (dotted a b c d) [cstr (toString a), cstr (toString b), cstr (toString c),
      cstr (toString d)] := by
  refine ⟨rfl, (begins_last _).dot.dot.dot, ?_⟩
  intro f hf
  simp only [List.mem_cons, List.not_mem_nil, or_false] at hf
  rcases hf with rfl | rfl | rfl | rfl <;> exact numeral_digits _

theorem dotted_short {a b c d : Nat} (ha : a < 256) (hb : b < 256) (hc : c < 256) (hd : d < 256) :
    (dotted a b c d).length ≤ 15 := by
  have hlen : ∀ {k : Nat}, k < 256 → (cstr (toString k)).length ≤ 3 :=
    fun hk => length_toString_le 2 (Nat.lt_trans hk (by decide))
  have h1 := hlen ha
  have h2 := hlen hb
  have h3 := hlen hc
  have h4 := hlen hd
  simp only [dotted, List.length_append, List.length_cons]
  omega

theorem dotted_no_nul (a b c d : Nat) : 0 ∉ dotted a b c d := by
  have h0 : ∀ k : Nat, 0 ∉ cstr (toString k) := by
    intro k h
    exact absurd (numeral_digits k 0 h) (by decide)
  simp only [dotted, List.mem_append, List.mem_cons, not_or]
  have hdot : (0 : UInt8) ≠ 46 := by decide
  exact ⟨h0 a, hdot, h0 b, hdot, h0 c, hdot, h0 d⟩

theorem fieldValue_toString {k : Nat} (h : k < 256) : fieldValue (cstr (toString k)) = k := by
  rw [fieldValue, numeral_toString]
  exact Nat.mod_eq_of_lt (Nat.lt_trans h (by decide))

/-- Four numbers in decimal are read as the address they name. -/
theorem stringToIp_dotted {a b c d : Nat} (ha : a < 256) (hb : b < 256) (hc : c < 256)
    (hd : d < 256) : stringToIp (some (dotted a b c d)) = networkAddr [a, b, c, d] := by
  have hvalues : [cstr (toString a), cstr (toString b), cstr (toString c),
      cstr (toString d)].map fieldValue = [a, b, c, d] := by
    simp only [List.map_cons, List.map_nil, fieldValue_toString, ha, hb, hc, hd]
  have hsmall : ∀ v ∈ [a, b, c, d], v ≤ 255 := by
    simp only [List.forall_mem_cons, List.not_mem_nil, false_implies, implies_true, and_true]
    omega
  rw [← hvalues] at hsmall ⊢
  exact stringToIp_quad (quad_dotted a b c d) (List.forall_mem_map.mp hsmall)

def ipText (x : UInt32) : CStr :=
  dotted (x.toNat % 256) (x.toNat / 256 % 256) (x.toNat / 65536 % 256) (x.toNat / 16777216 % 256)

theorem ipText_short (x : UInt32) : (ipText x).length ≤ 15 :=
  dotted_short (by omega) (by omega) (by omega) (by omega)

/-- The address is read back from its text. -/
theorem stringToIp_ipText (x : UInt32) : stringToIp (some (ipText x)) = x := by
  have hx := x.toNat_lt
  rw [ipText, stringToIp_dotted (by omega) (by omega) (by omega) (by omega)]
  apply UInt32.toNat_inj.mp
  rw [networkAddr_toNat (by omega) (by omega) (by omega) (by omega)]
  omega

/-- The swap puts the first byte in memory at the top. -/
theorem ntohl_octets (x : UInt32) :
    (ntohl x >>> 24 &&& 0xff).toNat = x.toNat % 256 ∧
    (ntohl x >>> 16 &&& 0xff).toNat = x.toNat / 256 % 256 ∧
    (ntohl x >>> 8 &&& 0xff).toNat = x.toNat / 65536 % 256 ∧
    (ntohl x >>> 0 &&& 0xff).toNat = x.toNat / 16777216 % 256 := by
  have hx := x.toNat_lt
  obtain ⟨h0, h1, h2, h3⟩ :=
    bytes_of_sum (swap32_toNat x) (by omega) (by omega) (by omega)
  have hoctet : ∀ n : Nat, n < 32 →
      (ntohl x >>> UInt32.ofNat n &&& 0xff).toNat = (swap32 x).toNat / 2 ^ n % 256 :=
    fun n hn => octet_toNat (ntohl x) hn
  refine ⟨?_, ?_, ?_, ?_⟩
  · exact (hoctet 24 (by decide)).trans (by omega)
  · exact (hoctet 16 (by decide)).trans (by omega)
  · exact (hoctet 8 (by decide)).trans (by omega)
  · exact (hoctet 0 (by decide)).trans (by omega)

/-- A buffer with room for any address gets the text and its NUL. -/
theorem ipToString_text (mem : Buf) (x : UInt32) {s : UInt64} (h : s.toNat + 16 < 2 ^ 64) :
    ∃ mem', ipToString mem s x = some mem' ∧ cstrAt mem' s 16 = ipText x := by
  obtain ⟨h24, h16, h8, h0⟩ := ntohl_octets x
  have hshort := ipText_short x
  rw [ipToString]
  dsimp only
  generalize hargs : (fun k => if k = 0 then octetArg (ntohl x) 24
    else if k = 1 then octetArg (ntohl x) 16
    else if k = 2 then octetArg (ntohl x) 8
    else octetArg (ntohl x) 0) = args
  have htext : formatText (cstr "%d.%d.%d.%d") args = ipText x := by
    subst hargs
    exact formatText_ip (intText_octet h24 (by omega)) (intText_octet h16 (by omega))
      (intText_octet h8 (by omega)) (intText_octet h0 (by omega))
  obtain ⟨mem', hcall, htrunc⟩ := vsnprintfInternal_chars (formatPieces_ip args) (by simp) mem s
    2147483647 (by rw [htext]; omega)
  rw [htext] at htrunc
  refine ⟨mem', ?_, ?_⟩
  · rw [sprintf, hcall]
    rfl
  · have hsize : (2147483647 : UInt64).toNat = 2147483647 := rfl
    exact htrunc.string (dotted_no_nul _ _ _ _) (by omega) (by omega)

/-- Any address, written to a buffer of sixteen bytes. -/
theorem ip_round_trip (mem : Buf) (s : UInt64) (x : UInt32) (h : s.toNat + 16 < 2 ^ 64) :
    ∃ mem', ipToString mem s x = some mem' ∧ (cstrAt mem' s 16).length < 16 ∧
      stringToIp (some (cstrAt mem' s 16)) = x := by
  obtain ⟨mem', hcall, htext⟩ := ipToString_text mem x h
  refine ⟨mem', hcall, ?_, ?_⟩
  · rw [htext]
    exact Nat.lt_succ_of_le (ipText_short x)
  · rw [htext]
    exact stringToIp_ipText x

/-- 192.168.100.3. -/
theorem ip_round_trip_host : ∃ mem', ipToString (fun _ => 255) 4096 0x0364a8c0 = some mem' ∧
    (cstrAt mem' 4096 16).length < 16 ∧
    stringToIp (some (cstrAt mem' 4096 16)) = 0x0364a8c0 :=
  ip_round_trip (fun _ => 255) 4096 0x0364a8c0 (by decide)

end EmacDriver
