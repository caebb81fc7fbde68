import EmacDriver.IpText
import EmacDriver.Proofs.FormatText

namespace EmacDriver
open Bytes

/-- The runs of digits, possibly empty, between dots: the first `n`, the last
one followed by anything. -/
def ipFields : Nat → CStr → Option (List CStr)
  | 0, _ => some []
  | n + 1, s =>
    if n ≠ 0 ∧ (s.dropWhile isdigit).getD 0 0 ≠ 46 then none
    else (ipFields n ((s.dropWhile isdigit).drop 1)).map (s.takeWhile isdigit :: ·)

/-- What the parser takes a field for: its value modulo 2^64. -/
def fieldValue (f : CStr) : Nat := numeral f % 18446744073709551616

/-- In base ten there is no prefix to skip. -/
theorem simpleStrtoul_ten (s : CStr) :
    simpleStrtoul s 10 = (UInt64.ofNat (numeral (s.takeWhile isdigit)), s.dropWhile isdigit) := by
  have hradix : parseIntegerFixupRadix s 10 = (s, 10) := by simp [parseIntegerFixupRadix]
  rw [simpleStrtoul, hradix]
  exact strtoulLoop_ten s 0

def shiftIn (addr : UInt32) (v : Nat) : UInt32 := addr <<< 8 ||| UInt32.ofNat v

theorem low_byte {v : Nat} (h : v % 18446744073709551616 ≤ 255) :
    (UInt64.ofNat v &&& 0xff).toUInt32 = UInt32.ofNat (v % 18446744073709551616) := by
  apply UInt32.toNat_inj.mp
  have hmask := Nat.and_two_pow_sub_one_eq_mod (v % 18446744073709551616) 8
  rw [UInt64.toNat_toUInt32, UInt64.toNat_and, UInt64.toNat_ofNat', UInt32.toNat_ofNat']
  exact (congrArg (· % 2 ^ 32) hmask).trans (by omega)

/-- The loop looks at the fields alone. -/
theorem stringToIpLoop_eq (n : Nat) (s : CStr) (addr : UInt32) :
    stringToIpLoop n s addr =
      match ipFields n s with
      | none => 0
      | some fs =>
        if ∀ f ∈ fs, fieldValue f ≤ 255 then htonl ((fs.map fieldValue).foldl shiftIn addr)
        else 0 := by
  induction n generalizing s addr with
  | zero => simp [stringToIpLoop, ipFields]
  | succ n ih =>
    have hbig : UInt64.ofNat (numeral (s.takeWhile isdigit)) > 255 ↔
        ¬ fieldValue (s.takeWhile isdigit) ≤ 255 := by
      rw [gt_iff_lt, UInt64.lt_iff_toNat_lt, UInt64.toNat_ofNat']
      exact Nat.not_le.symm
    generalize hf : s.takeWhile isdigit = f at hbig
    generalize he : s.dropWhile isdigit = e
    rw [stringToIpLoop, simpleStrtoul_ten, ipFields, hf, he]
    dsimp only
    by_cases hdot : n ≠ 0 ∧ e.getD 0 0 ≠ 46
    · rw [if_pos hdot, if_pos hdot, ite_self]
    · have hnext : ipFields n (if e.getD 0 0 ≠ 0 then e.drop 1 else e) =
          ipFields n (e.drop 1) := by
        cases n with
        | zero => rfl
        | succ n =>
          have h46 : e.getD 0 0 = 46 := by simpa using hdot
          rw [h46, if_pos (by decide)]
      rw [if_neg hdot, if_neg hdot]
      by_cases hv : fieldValue f ≤ 255
      · have hbyte : (UInt64.ofNat (numeral f) &&& 0xff).toUInt32 = UInt32.ofNat (fieldValue f) :=
          low_byte hv
        rw [if_neg (fun h => hbig.mp h hv), ih, hnext, hbyte]
        cases ipFields n (e.drop 1) with
        | none => rfl
        | some fs => simp [hv, shiftIn]
      · rw [if_pos (hbig.mpr hv)]
        cases ipFields n (e.drop 1) with
        | none => rfl
        | some fs => simp [hv]

theorem shiftIn_toNat {addr : UInt32} {v : Nat} (ha : addr.toNat < 16777216) (hv : v ≤ 255) :
    (shiftIn addr v).toNat = addr.toNat * 256 + v := by
  have hlt : v < 2 ^ 8 := by omega
  have hshift : (addr <<< 8).toNat = addr.toNat <<< 8 := by
    have hfit : addr.toNat * 2 ^ 8 < 2 ^ 32 := by omega
    rw [UInt32.toNat_shiftLeft, Nat.shiftLeft_eq]
    exact (Nat.mod_eq_of_lt hfit).trans (Nat.shiftLeft_eq _ _).symm
  rw [shiftIn, UInt32.toNat_or, hshift, UInt32.toNat_ofNat', Nat.mod_eq_of_lt (by omega),
    ← Nat.shiftLeft_add_eq_or_of_lt hlt, Nat.shiftLeft_eq]

def networkAddr (l : List Nat) : UInt32 := load32 (ofList (l.map UInt8.ofNat)) 0

theorem networkAddr_toNat {a b c d : Nat} (ha : a ≤ 255) (hb : b ≤ 255) (hc : c ≤ 255)
    (hd : d ≤ 255) :
    (networkAddr [a, b, c, d]).toNat = a + 256 * b + 65536 * c + 16777216 * d := by
  simp [networkAddr, load32, ofList]
  omega

theorem htonl_shiftIn {a b c d : Nat} (ha : a ≤ 255) (hb : b ≤ 255) (hc : c ≤ 255)
    (hd : d ≤ 255) : htonl ([a, b, c, d].foldl shiftIn 0) = networkAddr [a, b, c, d] := by
  have h1 : (shiftIn 0 a).toNat = a := by
    rw [shiftIn_toNat (by decide) ha]
    exact Nat.zero_add a
  have h2 : (shiftIn (shiftIn 0 a) b).toNat = a * 256 + b := by
    rw [shiftIn_toNat (by omega) hb, h1]
  have h3 : (shiftIn (shiftIn (shiftIn 0 a) b) c).toNat = (a * 256 + b) * 256 + c := by
    rw [shiftIn_toNat (by omega) hc, h2]
  have h4 : (shiftIn (shiftIn (shiftIn (shiftIn 0 a) b) c) d).toNat =
      a * 16777216 + b * 65536 + c * 256 + d := by
    rw [shiftIn_toNat (by omega) hd, h3]
    omega
  obtain ⟨hd', hc', hb', ha'⟩ := bytes_of_sum h4 (by omega) (by omega) (by omega)
  apply UInt32.toNat_inj.mp
  rw [networkAddr_toNat ha hb hc hd]
  simp only [List.foldl_cons, List.foldl_nil, htonl, swap32_toNat, hd', hc', hb', ha']
  omega

/-- `s` begins with the fields `fs`, each of them reaching to the next dot or,
the last, to whatever is no digit. -/
def Begins : CStr → List CStr → Prop
  | _, [] => True
  | s, f :: fs => ∃ rest, s = f ++ rest ∧ isdigit (rest.getD 0 0) = false ∧
      (fs ≠ [] → rest.getD 0 0 = 46 ∧ Begins (rest.drop 1) fs)

structure Quad (s : CStr) (fs : List CStr) : Prop where
  four : fs.length = 4
  begins : Begins s fs
  digits : ∀ f ∈ fs, ∀ c ∈ f, isdigit c = true

/-- A run of digits ends at the first byte that is none. -/
theorem run_unique {f rest : CStr} (hf : ∀ c ∈ f, isdigit c = true)
    (hr : isdigit (rest.getD 0 0) = false) :
    (f ++ rest).takeWhile isdigit = f ∧ (f ++ rest).dropWhile isdigit = rest := by
  have hrest : rest.takeWhile isdigit = [] ∧ rest.dropWhile isdigit = rest := by
    cases rest with
    | nil => exact ⟨rfl, rfl⟩
    | cons c rest =>
      have hc : ¬ isdigit c = true := by simpa using hr
      exact ⟨List.takeWhile_cons_of_neg hc, List.dropWhile_cons_of_neg hc⟩
  rw [List.takeWhile_append_of_pos hf, List.dropWhile_append_of_pos hf, hrest.1, hrest.2,
    List.append_nil]
  exact ⟨rfl, rfl⟩

theorem dropWhile_stops (s : CStr) : isdigit ((s.dropWhile isdigit).getD 0 0) = false := by
  induction s with
  | nil => rfl
  | cons c s ih =>
    cases hc : isdigit c with
    | true => rwa [List.dropWhile_cons_of_pos hc]
    | false =>
      rw [List.dropWhile_cons_of_neg (by simp [hc])]
      exact hc

/-- The fields are read off the string in one way. -/
theorem ipFields_iff (n : Nat) (s : CStr) (fs : List CStr) :
    ipFields n s = some fs ↔
      fs.length = n ∧ Begins s fs ∧ ∀ f ∈ fs, ∀ c ∈ f, isdigit c = true := by
  induction n generalizing s fs with
  | zero =>
    constructor
    · intro h
      cases h
      exact ⟨rfl, trivial, by simp⟩
    · rintro ⟨hlen, -, -⟩
      rw [List.eq_nil_of_length_eq_zero hlen]
      rfl
  | succ n ih =>
    rw [ipFields]
    constructor
    · intro h
      split at h
      · cases h
      · rename_i hdot
        obtain ⟨gs, hgs, rfl⟩ := Option.map_eq_some_iff.mp h
        obtain ⟨hlen, hbegins, hdigits⟩ := (ih _ gs).mp hgs
        refine ⟨by rw [List.length_cons, hlen],
          ⟨s.dropWhile isdigit, ?_, dropWhile_stops s, ?_⟩, ?_⟩
        · exact List.takeWhile_append_dropWhile.symm
        · intro hne
          have hn : n ≠ 0 := by
            rintro rfl
            exact hne (List.eq_nil_of_length_eq_zero hlen)
          exact ⟨Decidable.not_not.mp fun h46 => hdot ⟨hn, h46⟩, hbegins⟩
        · intro f hf
          rcases List.mem_cons.mp hf with rfl | hf
          · intro c hc
            exact List.all_eq_true.mp List.all_takeWhile c hc
          · exact hdigits f hf
    · rintro ⟨hlen, hbegins, hdigits⟩
      cases fs with
      | nil => cases hlen
      | cons f fs =>
        obtain ⟨rest, rfl, hstop, hmore⟩ := hbegins
        obtain ⟨htake, hdrop⟩ := run_unique (hdigits f List.mem_cons_self) hstop
        rw [htake, hdrop]
        have hlen : fs.length = n := by simpa using hlen
        have hrest : ipFields n (rest.drop 1) = some fs := by
          cases fs with
          | nil =>
            subst hlen
            rfl
          | cons g fs =>
            exact (ih _ _).mpr ⟨hlen, (hmore (by simp)).2,
              fun h hh => hdigits h (List.mem_cons_of_mem _ hh)⟩
        have hdot : ¬ (n ≠ 0 ∧ rest.getD 0 0 ≠ 46) := by
          rintro ⟨hn, h46⟩
          have hne : fs ≠ [] := by
            rintro rfl
            exact hn hlen.symm
          exact h46 (hmore hne).1
        rw [if_neg hdot, hrest]
        rfl

/-- The parser's fields are the four runs between dots. -/
theorem quad_iff {s : CStr} {fs : List CStr} : ipFields 4 s = some fs ↔ Quad s fs :=
  (ipFields_iff 4 s fs).trans ⟨fun h => ⟨h.1, h.2.1, h.2.2⟩, fun h => ⟨h.four, h.begins, h.digits⟩⟩

theorem Quad.unique {s : CStr} {fs gs : List CStr} (hf : Quad s fs) (hg : Quad s gs) : gs = fs :=
  Option.some.inj ((quad_iff.mpr hg).symm.trans (quad_iff.mpr hf))

/-- Accepted fields go into the address by their values. -/
theorem stringToIp_quad {s : CStr} {fs : List CStr} (h : Quad s fs)
    (hv : ∀ f ∈ fs, fieldValue f ≤ 255) :
    stringToIp (some s) = networkAddr (fs.map fieldValue) := by
  rw [stringToIp, stringToIpLoop_eq, quad_iff.mpr h]
  match fs, h.four, hv with
  | [a, b, c, d], _, hv =>
    simp only [List.forall_mem_cons] at hv
    obtain ⟨ha, hb, hc, hd, -⟩ := hv
    simp only [List.forall_mem_cons, ha, hb, hc, hd, true_and, List.not_mem_nil, false_implies,
      implies_true, if_true, List.map_cons, List.map_nil]
    exact htonl_shiftIn ha hb hc hd

/-- Without four fields, or with one above 255, the result is 0. -/
theorem stringToIp_rejects {s : CStr}
    (h : ∀ fs, Quad s fs → ¬ ∀ f ∈ fs, fieldValue f ≤ 255) : stringToIp (some s) = 0 := by
  rw [stringToIp, stringToIpLoop_eq]
  cases hf : ipFields 4 s with
  | none => rfl
  | some fs => exact if_neg (h fs (quad_iff.mp hf))

/-- Only 0.0.0.0 is the address 0. -/
theorem networkAddr_eq_zero {l : List Nat} (hlen : l.length = 4) (hl : ∀ v ∈ l, v ≤ 255) :
    networkAddr l = 0 ↔ ∀ v ∈ l, v = 0 := by
  match l, hlen, hl with
  | [a, b, c, d], _, hl =>
    simp only [List.forall_mem_cons] at hl ⊢
    obtain ⟨ha, hb, hc, hd, -⟩ := hl
    rw [← UInt32.toNat_inj, networkAddr_toNat ha hb hc hd]
    simp only [UInt32.toNat_ofNat, List.not_mem_nil, false_implies, implies_true, and_true]
    omega

/-- `s` begins with four numbers of at least one digit and at most 255, and `a`
is the address they name. -/
def DottedQuad (s : CStr) (a : UInt32) : Prop :=
  ∃ fs, Quad s fs ∧ (∀ f ∈ fs, f ≠ [] ∧ numeral f ≤ 255) ∧ a = networkAddr (fs.map numeral)

/-- An accepted string is a dotted quad unless one of its fields is empty or has
a value that wraps. -/
theorem string_to_ip_iff (s : CStr) :
    (stringToIp (some s) ≠ 0 → DottedQuad s (stringToIp (some s))) ↔
      ∀ fs, Quad s fs → (∀ f ∈ fs, fieldValue f ≤ 255) → (∃ f ∈ fs, fieldValue f ≠ 0) →
        ∀ f ∈ fs, f ≠ [] ∧ numeral f < 18446744073709551616 := by
  constructor
  · rintro h fs hquad hv ⟨g, hg, hg0⟩ f hf
    have hne : stringToIp (some s) ≠ 0 := by
      have hv' : ∀ v ∈ fs.map fieldValue, v ≤ 255 := List.forall_mem_map.mpr hv
      rw [stringToIp_quad hquad hv, Ne, networkAddr_eq_zero (by simpa using hquad.four) hv']
      exact fun hzero => hg0 (hzero _ (List.mem_map_of_mem hg))
    obtain ⟨gs, hgs, hgood, -⟩ := h hne
    rw [hquad.unique hgs] at hgood
    exact ⟨(hgood f hf).1, Nat.lt_of_le_of_lt (hgood f hf).2 (by decide)⟩
  · intro h hne
    by_cases hacc : ∃ fs, Quad s fs ∧ ∀ f ∈ fs, fieldValue f ≤ 255
    · obtain ⟨fs, hquad, hv⟩ := hacc
      have hsome : ∃ f ∈ fs, fieldValue f ≠ 0 := by
        by_contra hnone
        have hv' : ∀ v ∈ fs.map fieldValue, v ≤ 255 := List.forall_mem_map.mpr hv
        apply hne
        rw [stringToIp_quad hquad hv, networkAddr_eq_zero (by simpa using hquad.four) hv']
        exact List.forall_mem_map.mpr fun f hf => Decidable.not_not.mp fun h0 => hnone ⟨f, hf, h0⟩
      have hfields := h fs hquad hv hsome
      have hvalue : ∀ f ∈ fs, fieldValue f = numeral f :=
        fun f hf => Nat.mod_eq_of_lt (hfields f hf).2
      refine ⟨fs, hquad, fun f hf => ⟨(hfields f hf).1, ?_⟩, ?_⟩
      · rw [← hvalue f hf]
        exact hv f hf
      · rw [stringToIp_quad hquad hv, List.map_congr_left hvalue]
    · exact absurd (stringToIp_rejects fun fs hquad hv => hacc ⟨fs, hquad, hv⟩) hne

/-- An empty field, and the value 2^64 + 1. -/
theorem string_to_ip_lax :
    (stringToIp (some (cstr "1..2.3")) ≠ 0 ∧
      ¬ DottedQuad (cstr "1..2.3") (stringToIp (some (cstr "1..2.3")))) ∧
    (stringToIp (some (cstr "18446744073709551617.0.0.1")) ≠ 0 ∧
      ¬ DottedQuad (cstr "18446744073709551617.0.0.1")
        (stringToIp (some (cstr "18446744073709551617.0.0.1")))) := by
  refine ⟨⟨by decide +kernel, ?_⟩, by decide +kernel, ?_⟩
  · rintro ⟨fs, hquad, hgood, -⟩
    have hfields : ipFields 4 (cstr "1..2.3") = some [[49], [], [50], [51]] := by decide +kernel
    rw [(quad_iff.mp hfields).unique hquad] at hgood
    exact (hgood [] (by decide)).1 rfl
  · rintro ⟨fs, hquad, hgood, -⟩
    have hfields : ipFields 4 (cstr "18446744073709551617.0.0.1") =
        some [cstr "18446744073709551617", [48], [48], [49]] := by decide +kernel
    rw [(quad_iff.mp hfields).unique hquad] at hgood
    exact absurd (hgood _ List.mem_cons_self).2 (by decide +kernel)

end EmacDriver
