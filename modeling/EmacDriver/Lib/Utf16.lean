namespace Utf16

def isHigh (u : UInt16) : Prop := 0xD800 ≤ u.toNat ∧ u.toNat ≤ 0xDBFF

def isLow (u : UInt16) : Prop := 0xDC00 ≤ u.toNat ∧ u.toNat ≤ 0xDFFF

instance (u : UInt16) : Decidable (isHigh u) := inferInstanceAs (Decidable (_ ∧ _))

instance (u : UInt16) : Decidable (isLow u) := inferInstanceAs (Decidable (_ ∧ _))

def alone (bad : Char) (u : UInt16) : Char :=
  if isHigh u ∨ isLow u then bad else Char.ofNat u.toNat

def pair (u v : UInt16) : Char :=
  Char.ofNat (0x10000 + (u.toNat - 0xD800) * 0x400 + (v.toNat - 0xDC00))

def chars (bad : Char) : List UInt16 → List Char
  | [] => []
  | [u] => [alone bad u]
  | u :: v :: l =>
    if isHigh u ∧ isLow v then pair u v :: chars bad l else alone bad u :: chars bad (v :: l)

def utf8 (bad : Char) (units : List UInt16) : List UInt8 :=
  (chars bad units).flatMap String.utf8EncodeChar

/-- Every high surrogate has its low one right after it. -/
def Paired : List UInt16 → Prop
  | [] => True
  | [u] => ¬ isHigh u
  | u :: v :: l => (isHigh u → isLow v) ∧ Paired (v :: l)

theorem not_low_of_high {u : UInt16} (h : isHigh u) : ¬ isLow u := by
  intro hl
  have := h.2
  have := hl.1
  omega

theorem val_ofNat {n : Nat} (h : n.isValidChar) : (Char.ofNat n).val.toNat = n := by
  rw [Char.ofNat, dif_pos h]
  rfl

theorem alone_val (bad : Char) {u : UInt16} (h : ¬ isHigh u) (h' : ¬ isLow u) :
    (alone bad u).val = u.toUInt32 := by
  have hu := u.toNat_lt
  have hvalid : u.toNat.isValidChar := by
    unfold isHigh at h
    unfold isLow at h'
    unfold Nat.isValidChar
    omega
  apply UInt32.toNat_inj.mp
  rw [alone, if_neg (not_or.mpr ⟨h, h'⟩), val_ofNat hvalid, UInt16.toNat_toUInt32]

theorem pair_val {u v : UInt16} (h : isHigh u) (h' : isLow v) :
    (pair u v).val.toNat = 0x10000 + (u.toNat - 0xD800) * 0x400 + (v.toNat - 0xDC00) := by
  apply val_ofNat
  unfold isHigh at h
  unfold isLow at h'
  unfold Nat.isValidChar
  omega

theorem alone_bad {bad : Char} {u : UInt16} (h : isHigh u ∨ isLow u) : alone bad u = bad := by
  rw [alone, if_pos h]

/-- A unit that is not a high surrogate with its low one stands alone. -/
theorem utf8_alone {bad : Char} {u : UInt16} {l : List UInt16}
    (h : ∀ v, l.head? = some v → ¬ (isHigh u ∧ isLow v)) :
    utf8 bad (u :: l) = String.utf8EncodeChar (alone bad u) ++ utf8 bad l := by
  cases l with
  | nil => rfl
  | cons v l =>
    rw [utf8, chars, if_neg (h v rfl)]
    rfl

/-- Two units make one character. -/
theorem utf8_pair {bad : Char} {u v : UInt16} (l : List UInt16) (h : isHigh u) (h' : isLow v) :
    utf8 bad (u :: v :: l) = String.utf8EncodeChar (pair u v) ++ utf8 bad l := by
  rw [utf8, chars, if_pos ⟨h, h'⟩]
  rfl

theorem paired_tail {u : UInt16} {l : List UInt16} (h : ¬ isHigh u) :
    Paired (u :: l) ↔ Paired l := by
  cases l with
  | nil => exact ⟨fun _ => trivial, fun _ => h⟩
  | cons v l => exact ⟨And.right, fun hp => ⟨fun hh => absurd hh h, hp⟩⟩

theorem paired_pair {u v : UInt16} {l : List UInt16} (h : isLow v) :
    Paired (u :: v :: l) ↔ Paired l := by
  have hv : ¬ isHigh v := fun hh => not_low_of_high hh h
  exact ⟨fun hp => (paired_tail hv).mp hp.2, fun hp => ⟨fun _ => h, (paired_tail hv).mpr hp⟩⟩

end Utf16
