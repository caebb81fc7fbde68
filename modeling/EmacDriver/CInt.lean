namespace EmacDriver

/-- Conversion to `int`, modulo the 32 bits it has. -/
def toInt (x : Int) : Int := x.bmod 4294967296

def toUnsigned (x : Int) : Nat := (x % 4294967296).toNat

/-- Conversion to `unsigned long`, the type of every `sizeof`. -/
def toSize (x : Int) : Nat := (x % 18446744073709551616).toNat

theorem toInt_of_range {x : Int} (hl : -2147483648 ≤ x) (hu : x < 2147483648) : toInt x = x := by
  unfold toInt
  rw [Int.bmod_def]
  split <;> omega

theorem toSize_of_range {x : Int} (hl : 0 ≤ x) (hu : x < 2147483648) : toSize x = x.toNat := by
  unfold toSize
  rw [Int.emod_eq_of_lt hl (by omega)]

theorem toUnsigned_of_range {x : Int} (hl : 0 ≤ x) (hu : x < 4294967296) :
    toUnsigned x = x.toNat := by
  unfold toUnsigned
  rw [Int.emod_eq_of_lt hl hu]

theorem toUnsigned_of_neg {x : Int} (hl : -4294967296 ≤ x) (hu : x < 0) :
    (toUnsigned x : Int) = 4294967296 + x := by
  unfold toUnsigned
  omega

end EmacDriver
