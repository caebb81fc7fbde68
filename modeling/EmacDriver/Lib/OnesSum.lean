import EmacDriver.Lib.Bytes

namespace OnesSum
open Bytes

/-- Add with the carry out of bit 15 brought back in at bit 0. -/
def addc (a b : Nat) : Nat := if a + b < 65536 then a + b else a + b - 65535

def sum (ws : List Nat) : Nat := ws.foldl addc 0

/-- The value the end-around carry leaves of a plain total: its residue modulo
65535, with 65535 and not 0 standing for a nonzero total. -/
def canon (t : Nat) : Nat := if t = 0 then 0 else (t - 1) % 65535 + 1

theorem canon_le (t : Nat) : canon t ≤ 65535 := by
  unfold canon
  split <;> omega

theorem addc_canon (t w : Nat) (h : w ≤ 65535) : addc (canon t) w = canon (t + w) := by
  unfold addc canon
  repeat' split
  all_goals omega

/-- Carrying each time or once: a total that begins with `t`. -/
theorem foldl_addc (ws : List Nat) (t : Nat) (h : ∀ w ∈ ws, w ≤ 65535) :
    ws.foldl addc (canon t) = canon (t + ws.sum) := by
  induction ws generalizing t with
  | nil => simp
  | cons w ws ih =>
    rw [List.foldl_cons, addc_canon t w (h w (by simp)), ih _ (fun v hv => h v (by simp [hv]))]
    simp [Nat.add_assoc]

/-- Carrying at every step or once at the end gives the same sum. -/
theorem sum_eq_canon (ws : List Nat) (h : ∀ w ∈ ws, w ≤ 65535) : sum ws = canon ws.sum := by
  simpa [sum, canon] using foldl_addc ws 0 h

/-- One fold of the high half onto the low half keeps the sum, and a total
below 2^32 needs a second one at most. -/
theorem fold_twice {t : Nat} (h : t < 4294967296) :
    (t / 65536 + t % 65536 + (t / 65536 + t % 65536) / 65536) % 65536 = canon t := by
  have ht := Nat.div_add_mod t 65536
  have hl := Nat.mod_lt t (Nat.zero_lt_succ 65535)
  generalize hs : t / 65536 + t % 65536 = s
  have hmod : s % 65535 = t % 65535 := by omega
  have hzero : s = 0 ↔ t = 0 := by omega
  have hcanon : canon t = canon s := by
    unfold canon
    split <;> split <;> omega
  rw [hcanon]
  unfold canon
  split
  · omega
  · by_cases hc : s < 65536
    · rw [Nat.div_eq_of_lt hc, Nat.add_zero, Nat.mod_eq_of_lt hc, Nat.mod_eq_of_lt (by omega)]
      omega
    · have hd : s / 65536 = 1 := by omega
      rw [hd]
      omega

/-- Words as a little-endian load reads them, an odd last byte padded with zero. -/
def wordsLE (b : Buf) : Nat → Nat → List Nat
  | o, n + 2 => (load16 b o).toNat :: wordsLE b (o + 2) n
  | o, 1 => [(b o).toNat]
  | _, 0 => []

def wordsBE (b : Buf) : Nat → Nat → List Nat
  | o, n + 2 => (swap16 (load16 b o)).toNat :: wordsBE b (o + 2) n
  | o, 1 => [256 * (b o).toNat]
  | _, 0 => []

theorem wordsLE_le (b : Buf) (o n : Nat) : ∀ w ∈ wordsLE b o n, w ≤ 65535 := by
  fun_induction wordsLE b o n with
  | case1 o n ih =>
    intro w hw
    rcases List.mem_cons.mp hw with rfl | hw
    · have := (load16 b o).toNat_lt
      omega
    · exact ih w hw
  | case2 o =>
    have := (b o).toNat_lt
    simp
    omega
  | case3 => simp

theorem wordsBE_le (b : Buf) (o n : Nat) : ∀ w ∈ wordsBE b o n, w ≤ 65535 := by
  fun_induction wordsBE b o n with
  | case1 o n ih =>
    intro w hw
    rcases List.mem_cons.mp hw with rfl | hw
    · have := (swap16 (load16 b o)).toNat_lt
      omega
    · exact ih w hw
  | case2 o =>
    have := (b o).toNat_lt
    simp
    omega
  | case3 => simp

/-- Two bytes add one word at most. -/
theorem wordsLE_sum_le (b : Buf) (o n : Nat) : 2 * (wordsLE b o n).sum ≤ 65535 * n := by
  fun_induction wordsLE b o n with
  | case1 o n ih =>
    have := (load16 b o).toNat_lt
    simp only [List.sum_cons]
    omega
  | case2 o =>
    have := (b o).toNat_lt
    simp
    omega
  | case3 => simp

/-- Reading the words in the other byte order multiplies the sum by 256, since
65536 is 1 modulo 65535. -/
theorem wordsBE_sum_mod (b : Buf) (o n : Nat) :
    (wordsBE b o n).sum % 65535 = 256 * (wordsLE b o n).sum % 65535 := by
  fun_induction wordsLE b o n with
  | case1 o n ih =>
    have hbe := swap16_load16_toNat b o
    have hle := load16_toNat b o
    simp only [wordsBE, List.sum_cons]
    omega
  | case2 o => simp [wordsBE]
  | case3 => simp [wordsBE]

theorem wordsBE_sum_eq_zero (b : Buf) (o n : Nat) :
    (wordsBE b o n).sum = 0 ↔ (wordsLE b o n).sum = 0 := by
  fun_induction wordsLE b o n with
  | case1 o n ih =>
    have hbe := swap16_load16_toNat b o
    have hle := load16_toNat b o
    simp only [wordsBE, List.sum_cons]
    omega
  | case2 o =>
    simp only [wordsBE, List.sum_cons, List.sum_nil]
    omega
  | case3 => simp [wordsBE]

/-- All ones is the sum of the non-zero multiples of 65535. -/
theorem canon_eq_ones {t : Nat} : canon t = 65535 ↔ 0 < t ∧ t % 65535 = 0 := by
  unfold canon
  split <;> omega

theorem canon_eq_of_lt {t x : Nat} (h0 : 0 < x) (hx : x < 65535) :
    canon t = x ↔ t % 65535 = x := by
  unfold canon
  split <;> omega

/-- All ones is all ones in either byte order. -/
theorem sum_BE_ones (b : Buf) (o n : Nat) :
    sum (wordsBE b o n) = 65535 ↔ sum (wordsLE b o n) = 65535 := by
  have hm := wordsBE_sum_mod b o n
  have hz := wordsBE_sum_eq_zero b o n
  rw [sum_eq_canon _ (wordsBE_le b o n), sum_eq_canon _ (wordsLE_le b o n), canon_eq_ones,
    canon_eq_ones]
  omega

/-- One short of all ones in one order is 256 short of it in the other. -/
theorem sum_BE_feff (b : Buf) (o n : Nat) :
    sum (wordsBE b o n) = 0xfeff ↔ sum (wordsLE b o n) = 0xfffe := by
  have hm := wordsBE_sum_mod b o n
  rw [sum_eq_canon _ (wordsBE_le b o n), sum_eq_canon _ (wordsLE_le b o n),
    canon_eq_of_lt (by omega) (by omega), canon_eq_of_lt (by omega) (by omega)]
  omega

/-- The words depend on the bytes they cover and not on where these lie. -/
theorem wordsLE_shift {b c : Buf} {o p n : Nat} (h : ∀ i < n, b (o + i) = c (p + i)) :
    wordsLE b o n = wordsLE c p n := by
  fun_induction wordsLE b o n generalizing p with
  | case1 o n ih =>
    have hw : load16 b o = load16 c p := load16_congr (fun i hi => h i (by omega))
    have hrest : ∀ i < n, b (o + 2 + i) = c (p + 2 + i) := by
      intro i hi
      rw [Nat.add_assoc, Nat.add_assoc]
      exact h (2 + i) (by omega)
    rw [wordsLE, hw, ih hrest]
  | case2 o =>
    have h0 := h 0 (by omega)
    rw [Nat.add_zero, Nat.add_zero] at h0
    rw [wordsLE, h0]
  | case3 => rw [wordsLE]

theorem wordsLE_congr {b c : Buf} {o n : Nat} (h : ∀ i, o ≤ i → i < o + n → b i = c i) :
    wordsLE b o n = wordsLE c o n :=
  wordsLE_shift (fun i hi => h (o + i) (by omega) (by omega))

/-- Changing one byte moves the total by its place value: 1 at an even
distance from the start, 256 at an odd one. -/
theorem wordsLE_sum_update {b c : Buf} {o n i : Nat} (hi : o ≤ i) (hn : i < o + n)
    (h : ∀ j, j ≠ i → c j = b j) :
    (wordsLE c o n).sum + (if (i - o) % 2 = 0 then 1 else 256) * (b i).toNat =
      (wordsLE b o n).sum + (if (i - o) % 2 = 0 then 1 else 256) * (c i).toNat := by
  fun_induction wordsLE b o n with
  | case1 o n ih =>
    have hb := load16_toNat b o
    have hc := load16_toNat c o
    simp only [wordsLE, List.sum_cons]
    by_cases h0 : i = o
    · subst h0
      have h1 := h (i + 1) (by omega)
      have hrest : wordsLE c (i + 2) n = wordsLE b (i + 2) n :=
        wordsLE_congr (fun j hl _ => h j (by omega))
      simp only [Nat.sub_self, Nat.zero_mod, if_true]
      rw [hrest, hb, hc, h1]
      omega
    · by_cases h1 : i = o + 1
      · subst h1
        have h0 := h o (by omega)
        have hrest : wordsLE c (o + 2) n = wordsLE b (o + 2) n :=
          wordsLE_congr (fun j hl _ => h j (by omega))
        rw [if_neg (by omega), hrest, hb, hc, h0]
        omega
      · have hw : load16 c o = load16 b o := load16_congr (fun j hj => h (o + j) (by omega))
        have hp : (i - (o + 2)) % 2 = (i - o) % 2 := by omega
        have hih := ih (by omega) (by omega)
        rw [hp] at hih
        rw [hw]
        omega
  | case2 o =>
    have he : i = o := by omega
    subst he
    simp [wordsLE]
    omega
  | case3 o => omega

/-- Storing a word at a word position adds its change to the total. -/
theorem wordsLE_sum_store16 (b : Buf) (o n j : Nat) (v : UInt16) (hj : 2 * j + 2 ≤ n) :
    (wordsLE (store16 b (o + 2 * j) v) o n).sum + (load16 b (o + 2 * j)).toNat =
      (wordsLE b o n).sum + v.toNat := by
  induction j generalizing o n with
  | zero =>
    obtain ⟨n, rfl⟩ : ∃ m, n = m + 2 := ⟨n - 2, by omega⟩
    have hrest : wordsLE (store16 b o v) (o + 2) n = wordsLE b (o + 2) n :=
      wordsLE_congr (fun i hl _ => patch_off (by omega))
    simp only [Nat.mul_zero, Nat.add_zero, wordsLE, List.sum_cons, load16_store16, hrest]
    omega
  | succ j ih =>
    obtain ⟨n, rfl⟩ : ∃ m, n = m + 2 := ⟨n - 2, by omega⟩
    have hp : o + 2 * (j + 1) = o + 2 + 2 * j := by omega
    have hw : load16 (store16 b (o + 2 + 2 * j) v) o = load16 b o := load16_patch_off (by omega)
    have hih := ih (o + 2) n (by omega)
    simp only [hp, wordsLE, List.sum_cons, hw]
    omega

theorem canon_congr {t u : Nat} (hm : t % 65535 = u % 65535) (hz : t = 0 ↔ u = 0) :
    canon t = canon u := by
  unfold canon
  split <;> split <;> omega

theorem addc_canons (t u : Nat) : addc (canon t) (canon u) = canon (t + u) := by
  rw [addc_canon _ _ (canon_le u)]
  unfold canon
  repeat' split
  all_goals omega

def swapBytes (x : Nat) : Nat := x % 256 * 256 + x / 256

/-- Exchanging the bytes is multiplication by 256 in end-around-carry arithmetic. -/
theorem swapBytes_canon (t : Nat) : swapBytes (canon t) = canon (256 * t) := by
  have hm : 256 * t % 65535 = 256 * (t % 65535) % 65535 := by omega
  by_cases hz : t = 0
  · subst hz
    rfl
  · have hc : canon t = (t - 1) % 65535 + 1 := if_neg hz
    have hc' : canon (256 * t) = (256 * t - 1) % 65535 + 1 := if_neg (by omega)
    unfold swapBytes
    omega

/-- The complement commutes with the exchange of bytes. -/
theorem swapBytes_compl {x : Nat} (h : x ≤ 65535) :
    swapBytes (65535 - x) = 65535 - swapBytes x := by
  unfold swapBytes
  omega

/-- The sum in network order is the host-order sum with its bytes exchanged. -/
theorem sum_wordsBE (b : Buf) (o n : Nat) :
    sum (wordsBE b o n) = swapBytes (sum (wordsLE b o n)) := by
  have hz := wordsBE_sum_eq_zero b o n
  rw [sum_eq_canon _ (wordsBE_le b o n), sum_eq_canon _ (wordsLE_le b o n), swapBytes_canon]
  exact canon_congr (wordsBE_sum_mod b o n) (by omega)

/-- After an even number of bytes the words of the rest start afresh. -/
theorem wordsLE_append (b : Buf) (o m n : Nat) (hm : m % 2 = 0) :
    wordsLE b o (m + n) = wordsLE b o m ++ wordsLE b (o + m) n := by
  fun_induction wordsLE b o m with
  | case1 o m ih =>
    have hn : m + 2 + n = m + n + 2 := by omega
    have ho : o + (m + 2) = o + 2 + m := by omega
    rw [hn, wordsLE, ih (by omega), ho, List.cons_append]
  | case2 o => omega
  | case3 o => simp

/-- After one byte the words of the rest are read half a word off, which
multiplies their sum by 256. -/
theorem wordsLE_sum_one (b : Buf) (o n : Nat) :
    (wordsLE b o (n + 1)).sum % 65535 =
        ((b o).toNat + 256 * (wordsLE b (o + 1) n).sum) % 65535 ∧
      ((wordsLE b o (n + 1)).sum = 0 ↔ (b o).toNat = 0 ∧ (wordsLE b (o + 1) n).sum = 0) := by
  fun_induction wordsLE b o n with
  | case1 o n ih =>
    have h0 := load16_toNat b o
    have h1 := load16_toNat b (o + 1)
    simp only [wordsLE, List.sum_cons, Nat.add_assoc, Nat.reduceAdd] at ih h1 ⊢
    omega
  | case2 o =>
    have h0 := load16_toNat b o
    simp [wordsLE]
    omega
  | case3 o => simp [wordsLE]

end OnesSum
