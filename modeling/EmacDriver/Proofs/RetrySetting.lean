import EmacDriver.Proofs.EnvSpec
import EmacDriver.Proofs.Numerals

namespace EmacDriver

inductive Allows : CStr → Nat → Prop where
  | no : Allows (cstr "no") 0
  | once : Allows (cstr "once") 1
  | count {k : Nat} (fits : k < 2 ^ 64) : Allows (cstr (toString k)) k

theorem digitByte_ne {d : Nat} (h : d < 10) : digitByte d ∉ cstr "yno" := by
  have hall : ∀ d : Fin 10, digitByte d ∉ cstr "yno" := by decide
  exact hall ⟨d, h⟩

/-- Without a leading zero the base is ten. -/
theorem simpleStrtoul_toString (k : Nat) :
    (simpleStrtoul (cstr (toString k)) 0).1 = UInt64.ofNat k := by
  by_cases h : k = 0
  · subst h
    decide
  · obtain ⟨d, t, ht, hd, hpos⟩ := cstr_toString_head k
    have hne : digitByte d ≠ 48 := by
      have hall : ∀ d : Fin 10, 0 < d.val → digitByte d ≠ 48 := by decide
      exact hall ⟨d, hd⟩ (hpos (by omega))
    have hradix : parseIntegerFixupRadix (cstr (toString k)) 0 = (cstr (toString k), 10) := by
      rw [ht]
      simp [parseIntegerFixupRadix, hne]
    have hloop : strtoulLoop 10 (cstr (toString k)) 0 =
        (UInt64.ofNat (numeral ((cstr (toString k)).takeWhile isdigit)),
          (cstr (toString k)).dropWhile isdigit) := strtoulLoop_ten _ 0
    have hrun : (cstr (toString k)).takeWhile isdigit = cstr (toString k) := by
      have hpos : (cstr (toString k) ++ []).takeWhile isdigit =
          cstr (toString k) ++ [].takeWhile isdigit :=
        List.takeWhile_append_of_pos (numeral_digits k)
      simpa only [List.append_nil, List.takeWhile_nil] using hpos
    rw [simpleStrtoul, hradix]
    dsimp only
    rw [hloop, hrun, numeral_toString]

theorem strcmp_cons_ne {c d : UInt8} (h : c ≠ d) (s t : CStr) : strcmp (c :: s) (d :: t) ≠ 0 := by
  have hne : c.toNat ≠ d.toNat := by
    intro he
    exact h (UInt8.toNat_inj.mp he)
  rw [strcmp, if_neg h]
  omega

theorem retrySetting_allows {e : Env} {i k : Nat} (hi : envGet e (cstr "netretry") = some i)
    (h : Allows (e.vals i) k) : (retrySetting e).1 = false ∧ (retrySetting e).2.toNat = k := by
  unfold retrySetting
  rw [hi]
  dsimp only
  generalize e.vals i = v at h
  cases h with
  | no => decide
  | once => decide
  | count fits =>
    obtain ⟨d, t, ht, hd, -⟩ := cstr_toString_head k
    have hne : ∀ c ∈ cstr "yno", digitByte d ≠ c := by
      intro c hc he
      exact digitByte_ne hd (he ▸ hc)
    have hyes : strcmp (cstr (toString k)) (cstr "yes") ≠ 0 := by
      rw [ht]
      exact strcmp_cons_ne (hne _ (by decide)) _ _
    have hno : strcmp (cstr (toString k)) (cstr "no") ≠ 0 := by
      rw [ht]
      exact strcmp_cons_ne (hne _ (by decide)) _ _
    have honce : strcmp (cstr (toString k)) (cstr "once") ≠ 0 := by
      rw [ht]
      exact strcmp_cons_ne (hne _ (by decide)) _ _
    simp only [hyes, hno, honce, if_false, simpleStrtoul_toString]
    exact ⟨trivial, by rw [UInt64.toNat_ofNat', Nat.mod_eq_of_lt fits]⟩

end EmacDriver
