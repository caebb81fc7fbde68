import EmacDriver.Proofs.FormatText

namespace EmacDriver
open Bytes

theorem hexAsc_spec {n : Nat} (h : n < 16) :
    isxdigit (hexAsc n) = true ∧ digitValue (hexAsc n) = UInt64.ofNat n ∧
      tolower (hexAsc n) ≠ 120 ∧ hexAsc n ≠ 0 := by
  have hall : ∀ n : Fin 16, isxdigit (hexAsc n.val) = true ∧
      digitValue (hexAsc n.val) = UInt64.ofNat n.val ∧
      tolower (hexAsc n.val) ≠ 120 ∧ hexAsc n.val ≠ 0 := by decide
  exact hall ⟨n, h⟩

theorem strtoulLoop_hex {n : Nat} (h : n < 16) (cp : CStr) (result : UInt64) :
    strtoulLoop 16 (hexAsc n :: cp) result =
      strtoulLoop 16 cp (result * 16 + UInt64.ofNat n) := by
  obtain ⟨hx, hv, -, -⟩ := hexAsc_spec h
  have hlt : (UInt64.ofNat n).toNat < 16 := by
    rw [UInt64.toNat_ofNat']
    omega
  rw [strtoulLoop, if_pos ⟨hx, by rw [hv]; exact hlt⟩, hv]
  rfl

theorem hexBytePack_eq (b : UInt8) :
    hexBytePack b = [hexAsc (b.toNat / 16), hexAsc (b.toNat % 16)] := by
  have hhi : (b &&& 0xf0).toNat >>> 4 = b.toNat / 16 := by
    rw [UInt8.toNat_and, Nat.shiftRight_and_distrib, Nat.shiftRight_eq_div_pow]
    have := b.toNat_lt
    exact (Nat.and_two_pow_sub_one_eq_mod (b.toNat / 2 ^ 4) 4).trans
      (Nat.mod_eq_of_lt (by omega))
  have hlo : (b &&& 0x0f).toNat = b.toNat % 16 := by
    rw [UInt8.toNat_and]
    exact Nat.and_two_pow_sub_one_eq_mod b.toNat 4
  rw [hexBytePack, hhi, hlo]

/-- Two digits and no more: a leading zero does not make a radix. -/
theorem simpleStrtoul_hex (b : UInt8) {r : CStr} (hr : isxdigit (r.getD 0 0) = false) :
    simpleStrtoul (hexBytePack b ++ r) 16 = (b.toUInt64, r) := by
  have hb := b.toNat_lt
  have hlo := hexAsc_spec (Nat.mod_lt b.toNat (show 0 < 16 by decide))
  have hradix : parseIntegerFixupRadix (hexBytePack b ++ r) 16 = (hexBytePack b ++ r, 16) := by
    rw [hexBytePack_eq]
    simp [parseIntegerFixupRadix, hlo.2.2.1]
  have hvalue : 0 * 16 + UInt64.ofNat (b.toNat / 16) = UInt64.ofNat (b.toNat / 16) := by simp
  have hbyte : UInt64.ofNat (b.toNat / 16) * 16 + UInt64.ofNat (b.toNat % 16) = b.toUInt64 := by
    have hk := congrArg UInt64.ofNat (Nat.div_add_mod' b.toNat 16)
    rw [UInt64.ofNat_add, UInt64.ofNat_mul] at hk
    exact hk.trans (UInt64.toNat_inj.mp (by simp))
  have hstop : strtoulLoop 16 r b.toUInt64 = (b.toUInt64, r) := by
    cases r with
    | nil => rfl
    | cons c r =>
      have hc : isxdigit c = false := hr
      simp [strtoulLoop, hc]
  rw [simpleStrtoul, hradix]
  dsimp only
  rw [hexBytePack_eq, List.cons_append, List.cons_append, List.nil_append,
    strtoulLoop_hex (by omega), strtoulLoop_hex (by omega), hvalue, hbyte, hstop]

theorem parseByte_sep (b : UInt8) (r : CStr) :
    parseByte (some (hexBytePack b ++ 58 :: r)) = (b, some r) := by
  rw [parseByte, simpleStrtoul_hex b (r := 58 :: r) rfl]
  simp

theorem parseByte_last (b : UInt8) : parseByte (some (hexBytePack b)) = (b, some []) := by
  have h := simpleStrtoul_hex b (r := []) rfl
  rw [List.append_nil] at h
  rw [parseByte, h]
  simp

def macText (addr : Buf) : CStr :=
  hexBytePack (addr 0) ++ 58 :: (hexBytePack (addr 1) ++ 58 :: (hexBytePack (addr 2) ++ 58 ::
    (hexBytePack (addr 3) ++ 58 :: (hexBytePack (addr 4) ++ 58 :: hexBytePack (addr 5)))))

/-- Six bytes in their order, each by its two digits. -/
theorem parseBytes_macText (addr : Buf) :
    parseBytes 6 (some (macText addr)) = slice addr 0 6 := by
  simp only [parseBytes, macText, parseByte_sep, parseByte_last]
  rfl

/-- Every address is read back from its text. -/
theorem ethParseEnetaddr_macText (addr : Mac) :
    ethParseEnetaddr (some (macText (ofList addr.toList))) = addr := by
  apply Vector.ext
  intro i hi
  simp only [ethParseEnetaddr, parseBytes_macText]
  simp [ofList, slice, hi]

theorem hexBytePack_no_nul (b : UInt8) : 0 ∉ hexBytePack b := by
  have hb := b.toNat_lt
  rw [hexBytePack_eq]
  simp only [List.mem_cons, List.not_mem_nil, or_false, not_or]
  exact ⟨(hexAsc_spec (by omega)).2.2.2.symm, (hexAsc_spec (by omega)).2.2.2.symm⟩

theorem macText_no_nul (addr : Buf) : 0 ∉ macText addr := by
  simp [macText, hexBytePack_no_nul]

theorem length_macText (addr : Buf) : (macText addr).length = 17 := by
  simp [macText, hexBytePack]

theorem formatPieces_mac (args : Nat → Arg) : formatPieces (cstr "%pM") args =
    some [.pointer (macAddressString (args 0).mem (-1) (-1) Flags.none)] := by
  rfl

theorem macAddressString_eq (addr : Buf) :
    macAddressString addr (-1) (-1) Flags.none = macText addr := by
  have hflat : (List.range 6).flatMap (fun i => hexBytePack (addr i) ++
      if !Flags.none.special && i != 5 then [58] else []) = macText addr := by
    rfl
  rw [macAddressString]
  simp only [hflat]
  exact string_plain (macText_no_nul addr) (by rw [length_macText]; decide) _

/-- `%pM` writes the text of an address. -/
theorem formatText_mac (args : Nat → Arg) :
    formatText (cstr "%pM") args = macText (args 0).mem := by
  rw [formatText, formatPieces_mac, macAddressString_eq]
  exact List.append_nil _

/-- The array of eighteen bytes is just large enough. -/
theorem sprintfLocal_mac (args : Nat → Arg) :
    sprintfLocal 18 (cstr "%pM") args = some (macText (args 0).mem) := by
  have hs : StoresNothing (cstr "%pM") args := by
    rw [StoresNothing, formatPieces_mac]
    simp
  rw [← formatText_mac]
  apply sprintfLocal_eq hs
  · rw [formatText_mac]
    exact macText_no_nul _
  · rw [formatText_mac, length_macText]
    decide
  · decide

def addrPieces : List Piece := [.chars [97], .chars [100], .chars [100], .chars [114]]

theorem formatPieces_first (args : Nat → Arg) : formatPieces (cstr "%saddr") args =
    some (.chars (string (args 0).str (-1) (-1) Flags.none) :: addrPieces) := by
  rfl

theorem formatPieces_indexed (args : Nat → Arg) : formatPieces (cstr "%s%daddr") args =
    some (.chars (string (args 0).str (-1) (-1) Flags.none) ::
      .chars (number (numArg (args 1) none signFlag) 10 (-1) (-1) signFlag) :: addrPieces) := by
  rfl

theorem storesNothing_of_chars {fmt : CStr} {args : Nat → Arg} {ps : List Piece}
    (h : formatPieces fmt args = some ps) (hc : ∀ p ∈ ps, ∃ l, p = .chars l ∨ p = .pointer l) :
    StoresNothing fmt args := by
  intro p hp ip width heq
  rw [h] at hp
  obtain ⟨l, hl | hl⟩ := hc p hp
  · cases hl.symm.trans heq
  · cases hl.symm.trans heq

structure IndexText (digits : CStr) : Prop where
  short : digits.length ≤ 11
  bytes : ∀ c ∈ digits, c ≠ 0 ∧ c < 58

theorem indexText_decimal (a : Arg) : IndexText (decimal (numArg a none signFlag)) :=
  ⟨decimal_int_length a, decimal_bytes _⟩

theorem indexText_nil : IndexText [] := ⟨by decide, by simp⟩

/-- Digits between other characters of a name. -/
theorem IndexText.not_mem {digits pre post : CStr} (h : IndexText digits) {c : UInt8}
    (hc : c = 0 ∨ 58 ≤ c) (hpre : c ∉ pre) (hpost : c ∉ post) : c ∉ pre ++ (digits ++ post) := by
  simp only [List.mem_append, not_or]
  refine ⟨hpre, ?_, hpost⟩
  intro hd
  obtain ⟨hne, hlt⟩ := h.bytes c hd
  rcases hc with rfl | hge
  · exact hne rfl
  · exact absurd hlt (UInt8.not_lt.mpr hge)

/-- A name made of `eth`, a number and a suffix, written to a local array. -/
theorem IndexText.written {fmt digits : CStr} {args : Nat → Arg} {ps : List Piece} {n : Nat}
    (hd : IndexText digits) (suffix : CStr) (hpieces : formatPieces fmt args = some ps)
    (hc : ∀ p ∈ ps, ∃ l, p = .chars l ∨ p = .pointer l)
    (htext : ps.flatMap Piece.text = cstr "eth" ++ (digits ++ suffix))
    (h0 : 0 ∉ suffix) (hsuffix : suffix.length < 2048) :
    sprintfLocal n fmt args = if (cstr "eth" ++ (digits ++ suffix)).length < n
      then some (cstr "eth" ++ (digits ++ suffix)) else none := by
  have hfmt : formatText fmt args = cstr "eth" ++ (digits ++ suffix) := by
    rw [formatText, hpieces]
    exact htext
  have hnul : 0 ∉ cstr "eth" ++ (digits ++ suffix) := hd.not_mem (.inl rfl) (by decide) h0
  have hlen : (cstr "eth" ++ (digits ++ suffix)).length < 2147483647 := by
    have hshort := hd.short
    have heth : (cstr "eth").length = 3 := by decide
    simp only [List.length_append, heth]
    omega
  rw [← hfmt] at hnul hlen ⊢
  exact sprintfLocal_text (storesNothing_of_chars hpieces hc) hnul hlen

/-- The name for every index. -/
theorem enetvar_eth (index : Int) :
    ∃ digits, enetvar (cstr "eth") index = some (cstr "eth" ++ (digits ++ cstr "addr")) ∧
      IndexText digits := by
  have heth : ∀ flags, string (some (cstr "eth")) (-1) (-1) flags = cstr "eth" :=
    string_plain (by decide) (by decide)
  have haddr : addrPieces.flatMap Piece.text = cstr "addr" := by decide
  have hfits : ∀ digits, IndexText digits →
      (cstr "eth" ++ (digits ++ cstr "addr")).length < 32 := by
    intro digits hd
    have hshort := hd.short
    have hlen : (cstr "eth").length = 3 ∧ (cstr "addr").length = 4 := by decide
    simp only [List.length_append, hlen]
    omega
  rw [enetvar]
  generalize hargs : (fun k => if k = 0 then (⟨0, some (cstr "eth"), fun _ => 0⟩ : Arg)
    else ⟨UInt64.ofInt index, none, fun _ => 0⟩) = args
  have hname : (args 0).str = some (cstr "eth") := by rw [← hargs]; rfl
  by_cases h : index = 0
  · have hpieces := formatPieces_first args
    rw [hname, heth] at hpieces
    have hwritten := indexText_nil.written (n := 32) (cstr "addr") hpieces (by simp [addrPieces])
      (by rw [← haddr]; rfl) (by decide) (by decide)
    refine ⟨[], ?_, indexText_nil⟩
    rw [if_neg (not_not.mpr h), hwritten, if_pos (hfits [] indexText_nil)]
  · have hpieces := formatPieces_indexed args
    rw [hname, heth, number_signed] at hpieces
    have hd := indexText_decimal (args 1)
    have hwritten := hd.written (n := 32) (cstr "addr") hpieces (by simp [addrPieces])
      (by rw [← haddr]; rfl) (by decide) (by decide)
    refine ⟨_, ?_, hd⟩
    rw [if_pos h, hwritten, if_pos (hfits _ hd)]

/-- It fits a slot of the environment. -/
theorem IndexText.name_fits {digits : CStr} (h : IndexText digits) :
    cstr "eth" ++ (digits ++ cstr "addr") ≠ [] ∧
      (cstr "eth" ++ (digits ++ cstr "addr")).length < 20 := by
  have hshort := h.short
  have hlen : (cstr "eth").length = 3 ∧ (cstr "addr").length = 4 := by decide
  refine ⟨List.append_ne_nil_of_left_ne_nil (by decide) _, ?_⟩
  simp only [List.length_append, hlen]
  omega

/-- The slot found holds the value last set. -/
theorem envGet_envSet_val {e e' : Env} {name v : CStr} (h : envSet e name (some v) = some e')
    (hn : name ≠ []) : (envGet e' name).map e'.vals = some v := by
  obtain ⟨idx, rfl, hidx⟩ := envSet_slot h
  generalize he' : ({ keys := _, vals := _ } : Env) = e'
  have hat : e'.holds name idx = true := by simp [← he', Env.holds, hn, strcmp_self]
  have hoff : ∀ j < idx, e'.holds name j = false := by
    intro j hj
    have hsame : e'.holds name j = e.holds name j := by
      have hne : j ≠ idx := by omega
      simp [← he', Env.holds, hne]
    rw [hsame]
    rcases hidx with ⟨_, hget⟩ | ⟨h19, hfree⟩
    · exact (envGet_eq_some.mp hget).2.2 j hj
    · exact hfree j (by omega)
  have hget : envGet e' name = some idx := envGet_eq_some.mpr ⟨hat, by omega, hoff⟩
  rw [hget, ← he']
  simp

/-- Every address survives its text; a valid one also the variable of a device
that has no valid address yet. -/
theorem mac_round_trip (enetaddr : Mac) :
    (∃ text, sprintfLocal 18 (cstr "%pM") (fun _ => ⟨0, none, ofList enetaddr.toList⟩) =
        some text ∧ ethParseEnetaddr (some text) = enetaddr) ∧
    ∀ (e : Env) (index : Int), isValidEthaddr enetaddr = true →
      (∀ r, ethEnvGetEnetaddrByIndex e (cstr "eth") index = some r → r.2 = false) →
      ∃ e', ethEnvSetEnetaddrByIndex e (cstr "eth") index enetaddr = some (e', 0) ∧
        ethEnvGetEnetaddrByIndex e' (cstr "eth") index = some (enetaddr, true) := by
  have htext := sprintfLocal_mac (fun _ => ⟨0, none, ofList enetaddr.toList⟩)
  refine ⟨⟨_, htext, ethParseEnetaddr_macText enetaddr⟩, ?_⟩
  intro e index hvalid hunset
  obtain ⟨digits, hname, hdigits⟩ := enetvar_eth index
  obtain ⟨hne, hlen⟩ := hdigits.name_fits
  generalize cstr "eth" ++ (digits ++ cstr "addr") = name at hname hne hlen
  have hget : ∀ e', ethEnvGetEnetaddrByIndex e' (cstr "eth") index =
      some (ethEnvGetEnetaddr e' name) := by
    intro e'
    simp only [ethEnvGetEnetaddrByIndex, hname, Option.bind_eq_bind, Option.bind_some]
  have hfree := hunset _ (hget e)
  have hfits : name.length < 20 ∧ (macText (ofList enetaddr.toList)).length < 20 :=
    ⟨hlen, by rw [length_macText]; decide⟩
  obtain ⟨e', hset⟩ : ∃ e', envSet e name (some (macText (ofList enetaddr.toList))) = some e' := by
    simp only [envSet, if_pos hfits]
    exact ⟨_, rfl⟩
  refine ⟨e', ?_, ?_⟩
  · simp only [ethEnvSetEnetaddrByIndex, hname, Option.bind_eq_bind, Option.bind_some,
      ethEnvSetEnetaddr, hfree, htext, hset]
    rfl
  · rw [hget, ethEnvGetEnetaddr, envGet_envSet_val hset hne, ethParseEnetaddr_macText, hvalid]

theorem mac_round_trip_eth3 :
    ∃ e', ethEnvSetEnetaddrByIndex emptyEnv (cstr "eth") 3 #v[2, 0x0a, 0xa0, 0xff, 0, 7] =
        some (e', 0) ∧
      ethEnvGetEnetaddrByIndex e' (cstr "eth") 3 =
        some (#v[2, 0x0a, 0xa0, 0xff, 0, 7], true) := by
  refine (mac_round_trip #v[2, 0x0a, 0xa0, 0xff, 0, 7]).2 emptyEnv 3 (by decide) ?_
  intro r hr
  have hunset : (ethEnvGetEnetaddrByIndex emptyEnv (cstr "eth") 3).map Prod.snd = some false := by
    decide +kernel
  rw [hr] at hunset
  exact Option.some.inj hunset

end EmacDriver
