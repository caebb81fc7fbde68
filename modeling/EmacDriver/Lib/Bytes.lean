import Mathlib.Algebra.Ring.Nat

namespace Bytes

/-- Memory seen from a pointer. A buffer has no end here: the bytes behind a
received frame are whatever an earlier frame left there. -/
abbrev Buf := Nat → UInt8

/-- Replace the `n` bytes from `o` on. Every store below is a patch. -/
def patch (b : Buf) (o n : Nat) (f : Nat → UInt8) : Buf :=
  fun i => if o ≤ i ∧ i < o + n then f (i - o) else b i

def bytes16 (v : UInt16) (i : Nat) : UInt8 :=
  if i = 0 then UInt8.ofNat (v.toNat % 256) else UInt8.ofNat (v.toNat / 256)

def bytes32 (v : UInt32) (i : Nat) : UInt8 := UInt8.ofNat (v.toNat / 256 ^ i % 256)

def bytes64 (v : UInt64) (i : Nat) : UInt8 := UInt8.ofNat (v.toNat / 256 ^ i % 256)

def bytesVec (v : Vector UInt8 n) (i : Nat) : UInt8 := v.toList.getD i 0

abbrev store8 (b : Buf) (o : Nat) (v : UInt8) : Buf := patch b o 1 (fun _ => v)
abbrev store16 (b : Buf) (o : Nat) (v : UInt16) : Buf := patch b o 2 (bytes16 v)
abbrev store32 (b : Buf) (o : Nat) (v : UInt32) : Buf := patch b o 4 (bytes32 v)
abbrev store64 (b : Buf) (o : Nat) (v : UInt64) : Buf := patch b o 8 (bytes64 v)
abbrev storeVec (b : Buf) (o : Nat) (v : Vector UInt8 n) : Buf := patch b o n (bytesVec v)

abbrev copy (dst : Buf) (o : Nat) (src : Buf) (p n : Nat) : Buf :=
  patch dst o n (fun i => src (p + i))

abbrev fill (b : Buf) (o n : Nat) (v : UInt8) : Buf := patch b o n (fun _ => v)

def load16 (b : Buf) (o : Nat) : UInt16 :=
  UInt16.ofNat ((b o).toNat + 256 * (b (o + 1)).toNat)

def load32 (b : Buf) (o : Nat) : UInt32 :=
  UInt32.ofNat ((b o).toNat + 256 * (b (o + 1)).toNat + 65536 * (b (o + 2)).toNat +
    16777216 * (b (o + 3)).toNat)

def load64 (b : Buf) (o : Nat) : UInt64 :=
  UInt64.ofNat ((load32 b o).toNat + 4294967296 * (load32 b (o + 4)).toNat)

def loadVec (n : Nat) (b : Buf) (o : Nat) : Vector UInt8 n := Vector.ofFn (fun i => b (o + i.val))

def slice (b : Buf) (o n : Nat) : List UInt8 := (List.range n).map (fun i => b (o + i))

def ofList (l : List UInt8) : Buf := fun i => l.getD i 0

def swap16 (x : UInt16) : UInt16 := UInt16.ofNat (x.toNat % 256 * 256 + x.toNat / 256)

def swap32 (x : UInt32) : UInt32 :=
  UInt32.ofNat (x.toNat % 256 * 16777216 + x.toNat / 256 % 256 * 65536 +
    x.toNat / 65536 % 256 * 256 + x.toNat / 16777216)

theorem patch_off {b : Buf} {o n i : Nat} {f : Nat → UInt8} (h : i < o ∨ o + n ≤ i) :
    patch b o n f i = b i := by
  simp only [patch]
  rw [if_neg (by omega)]

theorem patch_on {b : Buf} {o n i : Nat} {f : Nat → UInt8} (h : i < n) :
    patch b o n f (o + i) = f i := by
  simp only [patch]
  rw [if_pos (by omega), Nat.add_sub_cancel_left]

theorem patch_zero (b : Buf) (o : Nat) (f : Nat → UInt8) : patch b o 0 f = b := by
  funext i
  exact patch_off (by omega)

/-- Only the bytes that are put there matter. -/
theorem patch_congr {b : Buf} {o n : Nat} {f g : Nat → UInt8} (h : ∀ i < n, f i = g i) :
    patch b o n f = patch b o n g := by
  funext i
  simp only [patch]
  split
  · exact h (i - o) (by omega)
  · rfl

/-- A patch right behind another. -/
theorem patch_patch_next (b : Buf) (o k n : Nat) (f g : Nat → UInt8) :
    patch (patch b o k f) (o + k) n g =
      patch b o (k + n) (fun i => if i < k then f i else g (i - k)) := by
  funext i
  by_cases hlow : i < o ∨ o + (k + n) ≤ i
  · rw [patch_off (by omega), patch_off (by omega), patch_off hlow]
  · obtain ⟨j, rfl⟩ : ∃ j, i = o + j := ⟨i - o, by omega⟩
    rw [patch_on (by omega)]
    by_cases hj : j < k
    · rw [patch_off (by omega), patch_on hj, if_pos hj]
    · obtain ⟨l, rfl⟩ : ∃ l, j = k + l := ⟨j - k, by omega⟩
      rw [← Nat.add_assoc, patch_on (by omega), if_neg hj, Nat.add_sub_cancel_left]

theorem fill_fill_next (b : Buf) (o k n : Nat) (v : UInt8) :
    fill (fill b o k v) (o + k) n v = fill b o (k + n) v := by
  rw [fill, patch_patch_next]
  apply patch_congr
  intro i _
  split <;> rfl

/-- The next part of a copy, its source being apart from what was written. -/
theorem copy_copy_next (b : Buf) {o p k n : Nat} (h : p + (k + n) ≤ o ∨ o + (k + n) ≤ p) :
    copy (copy b o b p k) (o + k) (copy b o b p k) (p + k) n = copy b o b p (k + n) := by
  rw [copy, patch_patch_next]
  apply patch_congr
  intro i hi
  split
  · rfl
  · obtain ⟨l, rfl⟩ : ∃ l, i = k + l := ⟨i - k, by omega⟩
    have hoff : copy b o b p k (p + k + l) = b (p + k + l) := patch_off (by omega)
    rw [Nat.add_sub_cancel_left, hoff, Nat.add_assoc]

/-- A load only sees the bytes it covers. -/
theorem load16_congr {b c : Buf} {o p : Nat} (h : ∀ i < 2, b (o + i) = c (p + i)) :
    load16 b o = load16 c p := by
  have h0 := h 0 (by omega)
  have h1 := h 1 (by omega)
  simp only [Nat.add_zero] at h0
  simp only [load16, h0, h1]

theorem load32_congr {b c : Buf} {o p : Nat} (h : ∀ i < 4, b (o + i) = c (p + i)) :
    load32 b o = load32 c p := by
  have h0 := h 0 (by omega)
  have h1 := h 1 (by omega)
  have h2 := h 2 (by omega)
  have h3 := h 3 (by omega)
  simp only [Nat.add_zero] at h0
  simp only [load32, h0, h1, h2, h3]

theorem loadVec_congr {n : Nat} {b c : Buf} {o p : Nat} (h : ∀ i < n, b (o + i) = c (p + i)) :
    loadVec n b o = loadVec n c p := by
  apply Vector.ext
  intro i hi
  simp [loadVec, h i hi]

/-- Loads pass over a patch of other bytes. -/
theorem load16_patch_off {b : Buf} {o n p : Nat} {f : Nat → UInt8}
    (h : p + 2 ≤ o ∨ o + n ≤ p) : load16 (patch b o n f) p = load16 b p :=
  load16_congr (fun _ _ => patch_off (by omega))

theorem load32_patch_off {b : Buf} {o n p : Nat} {f : Nat → UInt8}
    (h : p + 4 ≤ o ∨ o + n ≤ p) : load32 (patch b o n f) p = load32 b p :=
  load32_congr (fun _ _ => patch_off (by omega))

theorem loadVec_patch_off {b : Buf} {m o n p : Nat} {f : Nat → UInt8}
    (h : p + m ≤ o ∨ o + n ≤ p) : loadVec m (patch b o n f) p = loadVec m b p :=
  loadVec_congr (fun _ _ => patch_off (by omega))

@[simp] theorem store8_same (b : Buf) (o : Nat) (v : UInt8) : store8 b o v o = v := by
  simp [patch]

theorem store8_off {b : Buf} {o i : Nat} {v : UInt8} (h : i ≠ o) : store8 b o v i = b i :=
  patch_off (by omega)

@[simp] theorem load16_store16 (b : Buf) (o : Nat) (v : UInt16) :
    load16 (store16 b o v) o = v := by
  apply UInt16.toNat_inj.mp
  have := v.toNat_lt
  simp [load16, patch, bytes16]
  omega

@[simp] theorem load32_store32 (b : Buf) (o : Nat) (v : UInt32) :
    load32 (store32 b o v) o = v := by
  apply UInt32.toNat_inj.mp
  have := v.toNat_lt
  simp [load32, patch, bytes32]
  omega

@[simp] theorem loadVec_storeVec {n : Nat} (b : Buf) (o : Nat) (v : Vector UInt8 n) :
    loadVec n (storeVec b o v) o = v := by
  apply Vector.ext
  intro i hi
  simp [loadVec, patch, bytesVec]

@[simp] theorem load32_copy (dst : Buf) (o : Nat) (src : Buf) (p : Nat) :
    load32 (copy dst o src p 4) o = load32 src p := by
  apply load32_congr
  intro i hi
  simp [patch, hi]

@[simp] theorem loadVec_copy {n : Nat} (dst : Buf) (o : Nat) (src : Buf) (p : Nat) :
    loadVec n (copy dst o src p n) o = loadVec n src p := by
  apply loadVec_congr
  intro i hi
  simp [patch, hi]

@[simp] theorem length_slice (b : Buf) (o n : Nat) : (slice b o n).length = n := by
  simp [slice]

@[simp] theorem getElem_slice (b : Buf) (o n i : Nat) (h : i < (slice b o n).length) :
    (slice b o n)[i] = b (o + i) := by
  simp [slice]

/-- Overwriting the front of a slice. -/
theorem slice_storeVec {m n : Nat} (b : Buf) (v : Vector UInt8 m) (h : m ≤ n) :
    slice (storeVec b 0 v) 0 n = v.toList ++ (slice b 0 n).drop m := by
  apply List.ext_getElem
  · simp
    omega
  · intro i hi hi'
    simp only [getElem_slice, Nat.zero_add]
    by_cases him : i < m
    · rw [List.getElem_append_left (by simpa using him)]
      simp [patch, bytesVec, him]
    · have hsum : m + (i - m) = i := by omega
      rw [List.getElem_append_right (by simpa using him)]
      simp [patch, him, hsum]

theorem swap16_toNat (x : UInt16) : (swap16 x).toNat = x.toNat % 256 * 256 + x.toNat / 256 := by
  have := x.toNat_lt
  simp only [swap16, UInt16.toNat_ofNat']
  omega

@[simp] theorem swap16_swap16 (x : UInt16) : swap16 (swap16 x) = x := by
  apply UInt16.toNat_inj.mp
  have := x.toNat_lt
  rw [swap16_toNat, swap16_toNat]
  omega

theorem swap32_toNat (x : UInt32) :
    (swap32 x).toNat = x.toNat % 256 * 16777216 + x.toNat / 256 % 256 * 65536 +
      x.toNat / 65536 % 256 * 256 + x.toNat / 16777216 := by
  have := x.toNat_lt
  simp only [swap32, UInt32.toNat_ofNat']
  omega

/-- A number of four bytes, taken apart. -/
theorem bytes_of_sum {n a b c d : Nat} (hn : n = a * 16777216 + b * 65536 + c * 256 + d)
    (hb : b < 256) (hc : c < 256) (hd : d < 256) :
    n % 256 = d ∧ n / 256 % 256 = c ∧ n / 65536 % 256 = b ∧ n / 16777216 = a := by
  refine ⟨?_, ?_, ?_, ?_⟩ <;> omega

theorem load16_toNat (b : Buf) (o : Nat) :
    (load16 b o).toNat = (b o).toNat + 256 * (b (o + 1)).toNat := by
  have h0 := (b o).toNat_lt
  have h1 := (b (o + 1)).toNat_lt
  simp only [load16, UInt16.toNat_ofNat']
  omega

/-- A swapped load is the big-endian reading of the same two bytes. -/
theorem swap16_load16_toNat (b : Buf) (o : Nat) :
    (swap16 (load16 b o)).toNat = 256 * (b o).toNat + (b (o + 1)).toNat := by
  have h0 := (b o).toNat_lt
  have h1 := (b (o + 1)).toNat_lt
  rw [swap16_toNat, load16_toNat]
  omega

/-- Storing what is there changes nothing. -/
theorem store16_load16 (b : Buf) (o : Nat) : store16 b o (load16 b o) = b := by
  have h0 := (b o).toNat_lt
  have h1 := (b (o + 1)).toNat_lt
  funext i
  by_cases hi : o ≤ i ∧ i < o + 2
  · obtain rfl | rfl : i = o ∨ i = o + 1 := by omega
    · apply UInt8.toNat_inj.mp
      simp [patch, bytes16, load16_toNat]
    · apply UInt8.toNat_inj.mp
      simp [patch, bytes16, load16_toNat]
      omega
  · exact patch_off (by omega)

theorem load32_byte (b : Buf) (o : Nat) {i : Nat} (hi : i < 4) :
    (load32 b o).toNat / 256 ^ i % 256 = (b (o + i)).toNat := by
  have h0 := (b o).toNat_lt
  have h1 := (b (o + 1)).toNat_lt
  have h2 := (b (o + 2)).toNat_lt
  have h3 := (b (o + 3)).toNat_lt
  have hn : (load32 b o).toNat = (b o).toNat + 256 * (b (o + 1)).toNat +
      65536 * (b (o + 2)).toNat + 16777216 * (b (o + 3)).toNat := by
    simp only [load32, UInt32.toNat_ofNat']
    omega
  rw [hn]
  obtain rfl | rfl | rfl | rfl : i = 0 ∨ i = 1 ∨ i = 2 ∨ i = 3 := by omega
  · simp only [Nat.pow_zero, Nat.div_one, Nat.add_zero]
    omega
  all_goals omega

/-- The bytes of a number made of two parts. -/
theorem byte_low {k i : Nat} (a b : Nat) (hi : i < k) :
    (a + 256 ^ k * b) / 256 ^ i % 256 = a / 256 ^ i % 256 := by
  obtain ⟨l, rfl⟩ : ∃ l, k = i + (l + 1) := ⟨k - (i + 1), by omega⟩
  have hpos : 0 < 256 ^ i := Nat.pow_pos (by decide)
  have hshift : 256 ^ (i + (l + 1)) * b = 256 ^ i * (256 * (256 ^ l * b)) := by
    rw [Nat.pow_add, Nat.pow_succ']
    simp only [Nat.mul_assoc]
  rw [hshift, Nat.add_mul_div_left _ _ hpos, Nat.add_mul_mod_self_left]

theorem byte_high {k a : Nat} (b j : Nat) (ha : a < 256 ^ k) :
    (a + 256 ^ k * b) / 256 ^ (k + j) % 256 = b / 256 ^ j % 256 := by
  rw [Nat.pow_add, ← Nat.div_div_eq_div_mul, Nat.add_mul_div_left _ _ (Nat.pow_pos (by decide)),
    Nat.div_eq_of_lt ha, Nat.zero_add]

theorem load64_byte (b : Buf) (o : Nat) {i : Nat} (hi : i < 8) :
    (load64 b o).toNat / 256 ^ i % 256 = (b (o + i)).toNat := by
  have hlow := (load32 b o).toNat_lt
  have hhigh := (load32 b (o + 4)).toNat_lt
  have hn : (load64 b o).toNat = (load32 b o).toNat + 256 ^ 4 * (load32 b (o + 4)).toNat := by
    simp only [load64, UInt64.toNat_ofNat']
    omega
  rw [hn]
  by_cases h4 : i < 4
  · rw [byte_low _ _ h4, load32_byte b o h4]
  · obtain ⟨j, rfl⟩ : ∃ j, i = 4 + j := ⟨i - 4, by omega⟩
    rw [byte_high _ j hlow, load32_byte b (o + 4) (by omega), Nat.add_assoc]

/-- A word stored where it was loaded, or elsewhere, is a copy of its bytes. -/
theorem store64_load64 (b : Buf) (o : Nat) (c : Buf) (p : Nat) :
    store64 b o (load64 c p) = copy b o c p 8 := by
  apply patch_congr
  intro i hi
  rw [bytes64, load64_byte c p hi, UInt8.ofNat_toNat]

end Bytes
