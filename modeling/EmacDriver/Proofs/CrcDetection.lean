import Mathlib.Data.List.GetD
import EmacDriver.Lib.Bits
import EmacDriver.Lib.XorMaps
import EmacDriver.EtherCrc

namespace EmacDriver
open XorMaps Function

theorem crcBit_eq (crc : BitVec 32) :
    crcBit crc = (crc >>> 1) ^^^ if crc.getLsbD 0 then crcpolyLe else 0#32 := by
  have hone : (1 : BitVec 32) = BitVec.twoPow 32 0 := rfl
  rw [crcBit, hone]
  exact congrArg (crc >>> 1 ^^^ ·) (if_congr (Bits.and_bit_ne crc 0 (by decide)) rfl rfl)

theorem crcBit_linear : Linear crcBit := by
  intro x y
  rw [crcBit_eq, crcBit_eq, crcBit_eq, BitVec.ushiftRight_xor_distrib, BitVec.getLsbD_xor]
  cases x.getLsbD 0 with
  | false =>
    rw [Bool.false_xor]
    simp only [Bool.false_eq_true, if_false, BitVec.xor_zero]
    ac_rfl
  | true =>
    cases y.getLsbD 0 with
    | false =>
      simp only [Bool.true_xor, Bool.not_false, Bool.false_eq_true, if_false, if_true,
        BitVec.xor_zero]
      ac_rfl
    | true =>
      have hsame : ∀ u v k : BitVec 32, u ^^^ k ^^^ (v ^^^ k) = u ^^^ v := by
        intro u v k
        rw [BitVec.xor_comm v k, ← BitVec.xor_assoc, BitVec.xor_assoc u k k, BitVec.xor_self,
          BitVec.xor_zero]
      simp only [Bool.true_xor, Bool.not_true, Bool.false_eq_true, if_false, if_true, hsame,
        BitVec.xor_zero]

def msgBits (p : List (BitVec 8)) : List Bool :=
  p.flatMap fun x => (List.range 8).map x.getLsbD

def bitWord (b : Bool) : BitVec 32 := if b then 1#32 else 0#32

def crcBits (crc : BitVec 32) (bits : List Bool) : BitVec 32 :=
  bits.foldl (fun crc b => crcBit (crc ^^^ bitWord b)) crc

theorem crcBits_cons (crc : BitVec 32) (b : Bool) (w : List Bool) :
    crcBits crc (b :: w) = crcBits (crcBit (crc ^^^ bitWord b)) w := rfl

theorem crcBits_append (crc : BitVec 32) (v w : List Bool) :
    crcBits crc (v ++ w) = crcBits (crcBits crc v) w := List.foldl_append

theorem bitWord_xor (a b : Bool) : bitWord (a ^^ b) = bitWord a ^^^ bitWord b := by
  cases a <;> cases b <;> rfl

/-- The CRC of a difference is the difference of the CRCs. -/
theorem crcBits_xor (c d : BitVec 32) {v w : List Bool} (h : v.length = w.length) :
    crcBits (c ^^^ d) (List.zipWith xor v w) = crcBits c v ^^^ crcBits d w := by
  induction v generalizing c d w with
  | nil =>
    cases w with
    | nil => rfl
    | cons b w => cases h
  | cons a v ih =>
    cases w with
    | nil => cases h
    | cons b w =>
      have hstep : crcBit (c ^^^ d ^^^ bitWord (a ^^ b)) =
          crcBit (c ^^^ bitWord a) ^^^ crcBit (d ^^^ bitWord b) := by
        rw [bitWord_xor, ← crcBit_linear]
        congr 1
        ac_rfl
      rw [List.zipWith_cons_cons, crcBits_cons, crcBits_cons, crcBits_cons, hstep]
      exact ih _ _ (Nat.succ.inj h)

theorem crcBits_zeros (crc : BitVec 32) (n : Nat) :
    crcBits crc (List.replicate n false) = crcBit^[n] crc := by
  induction n generalizing crc with
  | zero => rfl
  | succ n ih =>
    have hnone : crc ^^^ bitWord false = crc := BitVec.xor_zero
    rw [List.replicate_succ, crcBits_cons, hnone, ih, iterate_succ_apply]

theorem byteBits_linear :
    Linear fun x : BitVec 8 => crcBits 0#32 ((List.range 8).map x.getLsbD) := by
  intro x y
  have hzip : (List.range 8).map (x ^^^ y).getLsbD =
      List.zipWith xor ((List.range 8).map x.getLsbD) ((List.range 8).map y.getLsbD) := by
    simp [List.range, List.range.loop]
  have hsplit := crcBits_xor 0#32 0#32 (v := (List.range 8).map x.getLsbD)
    (w := (List.range 8).map y.getLsbD) (by simp)
  rw [BitVec.xor_zero, ← hzip] at hsplit
  exact hsplit

theorem crcByte_eq (crc : BitVec 32) (x : BitVec 8) :
    crcByte crc x = crcBits crc ((List.range 8).map x.getLsbD) := by
  have hbyte : crcByte crc x = crcBit^[8] (crc ^^^ x.setWidth 32) := rfl
  have halone := congrFun (linear_ext ((crcBit_linear.iterate 8).comp linear_setWidth)
    byteBits_linear (by decide)) x
  have hsplit := crcBits_xor crc 0#32 (v := List.replicate 8 false)
    (w := (List.range 8).map x.getLsbD) (by simp)
  have hzip : List.zipWith xor (List.replicate 8 false) ((List.range 8).map x.getLsbD) =
      (List.range 8).map x.getLsbD := by
    simp [List.range, List.range.loop, List.replicate]
  rw [BitVec.xor_zero, hzip, crcBits_zeros] at hsplit
  rw [hbyte, crcBit_linear.iterate 8, hsplit]
  exact congrArg (crcBit^[8] crc ^^^ ·) halone

/-- Byte by byte or bit by bit. -/
theorem crcBytes_eq (crc : BitVec 32) (p : List (BitVec 8)) :
    p.foldl crcByte crc = crcBits crc (msgBits p) := by
  induction p generalizing crc with
  | nil => rfl
  | cons x p ih =>
    rw [List.foldl_cons, ih, crcByte_eq, ← crcBits_append]
    rfl

/-- The polynomial of the CRC, without its highest term. -/
def crcPoly : BitVec 32 := 0x04c11db7

/-- A step undone, where its result has no highest bit. -/
theorem crcBit_back {x y : BitVec 32} (h : crcBit x = y) (hy : y.getLsbD 31 = false) :
    x = y <<< 1 := by
  have htop := congrArg (BitVec.getLsbD · 31) h
  rw [crcBit_eq] at h htop
  have hlow : x.getLsbD 0 = false := by
    cases hx : x.getLsbD 0 with
    | false => rfl
    | true =>
      have hpoly : crcpolyLe.getLsbD 31 = true := by decide
      have hshift : (x >>> 1).getLsbD 31 = false := by simp
      simp only [hx, if_true, BitVec.getLsbD_xor, hpoly, hshift, hy] at htop
      exact absurd htop (by decide)
  rw [hlow] at h
  have hhalf : x >>> 1 = y := by
    rw [← h]
    exact BitVec.xor_zero.symm
  apply BitVec.eq_of_getLsbD_eq
  intro i hi
  rw [← hhalf, BitVec.getLsbD_shiftLeft, BitVec.getLsbD_ushiftRight]
  cases i with
  | zero => simpa using hlow
  | succ i =>
    have hpos : decide (i + 1 < 1) = false := by simp
    rw [decide_eq_true hi, hpos, Nat.add_sub_cancel, Nat.add_comm 1 i]
    rfl

theorem crcBit_null {x : BitVec 32} (h : crcBit x = 0#32) : x = 0#32 :=
  crcBit_back h (by decide)

theorem crcBit_iterate_null {x : BitVec 32} {n : Nat} (h : crcBit^[n] x = 0#32) : x = 0#32 := by
  induction n generalizing x with
  | zero => exact h
  | succ n ih => exact crcBit_null (ih h)

def bitsWord : List Bool → BitVec 32
  | [] => 0#32
  | b :: w => (bitsWord w <<< 1) ^^^ bitWord b

theorem bitWord_getLsbD (b : Bool) (i : Nat) : (bitWord b).getLsbD i = (b && decide (i = 0)) := by
  cases b with
  | false => exact BitVec.getLsbD_zero
  | true => simp [bitWord]

theorem bitsWord_getLsbD {w : List Bool} (hw : w.length ≤ 32) (i : Nat) :
    (bitsWord w).getLsbD i = w.getD i false := by
  induction w generalizing i with
  | nil => exact BitVec.getLsbD_zero
  | cons b w ih =>
    rw [bitsWord, BitVec.getLsbD_xor, BitVec.getLsbD_shiftLeft, bitWord_getLsbD]
    cases i with
    | zero => simp
    | succ i =>
      have hlen : w.length ≤ 32 := Nat.le_of_succ_le hw
      have hprev := ih hlen i
      have hpos : decide (i + 1 < 1) = false := by simp
      have hne : decide (i + 1 = 0) = false := by simp
      rw [hpos, hne, Nat.add_sub_cancel, hprev, List.getD_cons_succ, Bool.and_false, Bool.xor_false]
      by_cases hi : i + 1 < 32
      · rw [decide_eq_true hi]
        rfl
      · have hout : w.length ≤ i := by
          rw [List.length_cons] at hw
          omega
        rw [List.getD_eq_default _ _ hout, Bool.and_false]

/-- Nothing is left only of bits that make up the word there was. -/
theorem crcBits_null {c : BitVec 32} {w : List Bool} (hw : w.length ≤ 32)
    (h : crcBits c w = 0#32) : c = bitsWord w := by
  induction w generalizing c with
  | nil => exact h
  | cons b w ih =>
    have hlen : w.length ≤ 32 := Nat.le_of_succ_le hw
    have hnext := ih hlen h
    have htop : (bitsWord w).getLsbD 31 = false := by
      rw [bitsWord_getLsbD hlen]
      exact List.getD_eq_default _ _ (Nat.le_of_succ_le_succ hw)
    have hback := crcBit_back hnext htop
    rw [bitsWord, ← hback, BitVec.xor_assoc, BitVec.xor_self, BitVec.xor_zero]

/-- The step takes every non-zero word round all the others: its polynomial is primitive. -/
theorem crcBit_minimalPeriod {v : BitVec 32} (hv : v ≠ 0#32) :
    minimalPeriod crcBit v = 4294967295 := by
  have hact := linear_ext (crcBit_linear.iterate 32) (act_linear crcBit_linear crcPoly)
    (by decide +kernel)
  have hcert : ∀ q, q.Prime → q ∣ 4294967295 →
      ∃ i, mul crcPoly i (pow crcPoly 32 (4294967295 / q) ^^^ 1#32) = 1#32 := by
    intro q hq h
    rcases prime_of_dvd_full hq h with rfl | rfl | rfl | rfl | rfl
    · exact ⟨0x4ad76ce3, by decide +kernel⟩
    · exact ⟨0x80e6c2bc, by decide +kernel⟩
    · exact ⟨0x74490587, by decide +kernel⟩
    · exact ⟨0x8d66383c, by decide +kernel⟩
    · exact ⟨0x5313672b, by decide +kernel⟩
  exact minimalPeriod_eq crcBit_linear (by decide) (congrFun hact) (by decide) (by decide +kernel)
    hcert hv

theorem or_eq_xor {a b : BitVec 32} (h : a &&& b = 0#32) : a ||| b = a ^^^ b := by
  apply BitVec.eq_of_getLsbD_eq
  intro i _
  have hbit := congrArg (BitVec.getLsbD · i) h
  rw [BitVec.getLsbD_and, BitVec.getLsbD_zero] at hbit
  rw [BitVec.getLsbD_or, BitVec.getLsbD_xor]
  cases ha : a.getLsbD i with
  | false => rw [Bool.false_or, Bool.false_xor]
  | true =>
    rw [ha, Bool.true_and] at hbit
    rw [hbit]
    rfl

theorem linear_and (c : BitVec 32) : Linear fun x : BitVec 32 => x &&& c := by
  intro x y
  apply BitVec.eq_of_getLsbD_eq
  intro i _
  simp only [BitVec.getLsbD_and, BitVec.getLsbD_xor]
  exact Bool.and_xor_distrib_right _ _ _

theorem swap_linear (k : Nat) {a b : BitVec 32} (h : a &&& b = 0#32) :
    Linear fun x : BitVec 32 => (x >>> k &&& a) ||| (x <<< k &&& b) := by
  have hapart (x : BitVec 32) : (x >>> k &&& a) &&& (x <<< k &&& b) = 0#32 :=
    calc (x >>> k &&& a) &&& (x <<< k &&& b) = (x >>> k &&& x <<< k) &&& (a &&& b) := by ac_rfl
      _ = 0#32 := by rw [h, BitVec.and_zero]
  simp only [or_eq_xor (hapart _)]
  exact ((linear_and a).comp (linear_ushiftRight k)).xor ((linear_and b).comp (linear_shiftLeft k))

theorem halves_linear : Linear fun x : BitVec 32 => (x >>> 16) ||| (x <<< 16) := by
  have hapart (x : BitVec 32) : x >>> 16 &&& x <<< 16 = 0#32 := by
    apply BitVec.eq_of_getLsbD_eq
    intro i hi
    rw [BitVec.getLsbD_and, BitVec.getLsbD_ushiftRight, BitVec.getLsbD_shiftLeft,
      BitVec.getLsbD_zero]
    by_cases hlow : i < 16
    · simp [hlow]
    · rw [BitVec.getLsbD_of_ge x (16 + i) (by omega), Bool.false_and]
  simp only [or_eq_xor (hapart _)]
  exact (linear_ushiftRight 16).xor (linear_shiftLeft 16)

theorem crcReverse_linear : Linear crcReverse :=
  (swap_linear 1 (by decide)).comp ((swap_linear 2 (by decide)).comp
    ((swap_linear 4 (by decide)).comp ((swap_linear 8 (by decide)).comp halves_linear)))

theorem crcReverse_crcReverse (crc : BitVec 32) : crcReverse (crcReverse crc) = crc := by
  have hext := linear_ext (crcReverse_linear.comp crcReverse_linear) linear_id (by decide +kernel)
  exact congrFun hext crc

theorem crcReverse_injective {x y : BitVec 32} (h : crcReverse x = crcReverse y) : x = y := by
  rw [← crcReverse_crcReverse x, h, crcReverse_crcReverse]

def errors (a b : List (BitVec 8)) : List Bool := List.zipWith xor (msgBits a) (msgBits b)

theorem length_msgBits (p : List (BitVec 8)) : (msgBits p).length = 8 * p.length := by
  induction p with
  | nil => rfl
  | cons x p ih =>
    have hcons : msgBits (x :: p) = (List.range 8).map x.getLsbD ++ msgBits p := rfl
    rw [hcons, List.length_append, ih, List.length_map, List.length_range, List.length_cons]
    omega

/-- Two messages of one length have one CRC when their difference leaves nothing. -/
theorem etherCrc_eq_iff {a b : List (BitVec 8)} (hlen : a.length = b.length) :
    etherCrc a = etherCrc b ↔ crcBits 0#32 (errors a b) = 0#32 := by
  have hbits : (msgBits a).length = (msgBits b).length := by
    rw [length_msgBits, length_msgBits, hlen]
  have hxor := crcBits_xor 0xffffffff#32 0xffffffff#32 hbits
  rw [BitVec.xor_self] at hxor
  rw [errors, hxor, BitVec.xor_eq_zero_iff, ← crcBytes_eq, ← crcBytes_eq]
  exact ⟨crcReverse_injective, congrArg crcReverse⟩

theorem errors_getD {a b : List (BitVec 8)} (hlen : a.length = b.length) (i : Nat) :
    (errors a b).getD i false = true ↔ (msgBits a)[i]? ≠ (msgBits b)[i]? := by
  have hbits : (msgBits a).length = (msgBits b).length := by
    rw [length_msgBits, length_msgBits, hlen]
  rw [errors, List.getD_eq_getElem?_getD, List.getElem?_zipWith]
  by_cases hi : i < (msgBits a).length
  · rw [List.getElem?_eq_getElem hi, List.getElem?_eq_getElem (hbits ▸ hi)]
    simp
  · rw [List.getElem?_eq_none (Nat.le_of_not_lt hi),
      List.getElem?_eq_none (hbits ▸ Nat.le_of_not_lt hi)]
    simp

theorem msgBits_injective {a b : List (BitVec 8)} (hlen : a.length = b.length)
    (h : msgBits a = msgBits b) : a = b := by
  induction a generalizing b with
  | nil => exact (List.length_eq_zero_iff.mp hlen.symm).symm
  | cons x a ih =>
    cases b with
    | nil => cases hlen
    | cons y b =>
      have hcons : (List.range 8).map x.getLsbD ++ msgBits a =
          (List.range 8).map y.getLsbD ++ msgBits b := h
      obtain ⟨hbyte, hrest⟩ := List.append_inj hcons (by simp)
      have hxy : x = y := by
        apply BitVec.eq_of_getLsbD_eq
        intro i hi
        exact List.map_inj_left.mp hbyte i (List.mem_range.mpr hi)
      rw [hxy, ih (Nat.succ.inj hlen) hrest]

/-- Bits that are alike shift the rest on. -/
theorem crcBits_skip (c : BitVec 32) {e : List Bool} {s : Nat} (hs : s ≤ e.length)
    (h : ∀ i < s, e.getD i false = false) :
    crcBits c e = crcBits (crcBit^[s] c) (e.drop s) := by
  induction s generalizing c e with
  | zero => rfl
  | succ s ih =>
    cases e with
    | nil => cases hs
    | cons b e =>
      have hb : b = false := h 0 (Nat.zero_lt_succ s)
      have hnone : c ^^^ bitWord false = c := BitVec.xor_zero
      have hrest : ∀ i < s, e.getD i false = false := by
        intro i hi
        exact h (i + 1) (Nat.succ_lt_succ hi)
      rw [crcBits_cons, hb, hnone, ih (crcBit c) (Nat.le_of_succ_le_succ hs) hrest]
      rfl

theorem lt_of_getD {e : List Bool} {s : Nat} (hs : e.getD s false = true) : s < e.length := by
  by_contra hge
  rw [List.getD_eq_default _ _ (Nat.le_of_not_lt hge)] at hs
  cases hs

/-- Bits that are alike to the end change nothing. -/
theorem crcBits_quiet {c : BitVec 32} {e : List Bool} (h : ∀ i, e.getD i false = false) :
    crcBits c e = 0#32 ↔ c = 0#32 := by
  rw [crcBits_skip c (Nat.le_refl e.length) fun i _ => h i, List.drop_length]
  constructor
  · exact crcBit_iterate_null
  · rintro rfl
    exact (crcBit_linear.iterate _).zero

theorem getD_drop (e : List Bool) (s i : Nat) :
    (e.drop s).getD i false = e.getD (s + i) false := by
  rw [List.getD_eq_getElem?_getD, List.getD_eq_getElem?_getD, List.getElem?_drop]

/-- Up to the first error the register is as it would be without any. -/
theorem crcBits_hit (c : BitVec 32) {e : List Bool} {s : Nat} (hs : e.getD s false = true)
    (h : ∀ i < s, e.getD i false = false) :
    crcBits c e = crcBits (crcBit (crcBit^[s] c ^^^ 1#32)) (e.drop (s + 1)) := by
  have hlt := lt_of_getD hs
  have hbit : e[s] = true := by
    rw [List.getD_eq_getElem _ _ hlt] at hs
    exact hs
  rw [crcBits_skip c (Nat.le_of_lt hlt) h, List.drop_eq_getElem_cons hlt, crcBits_cons, hbit]
  rfl

/-- Messages of one length that differ, but only within 32 bits on end, have different CRCs. -/
theorem ether_crc_finds_burst {a b : List (BitVec 8)} (hlen : a.length = b.length) (hne : a ≠ b)
    (s : Nat) (hburst : ∀ i, (msgBits a)[i]? ≠ (msgBits b)[i]? → s ≤ i ∧ i < s + 32) :
    etherCrc a ≠ etherCrc b := by
  intro hcrc
  rw [etherCrc_eq_iff hlen] at hcrc
  have hquiet : ∀ i, ¬(s ≤ i ∧ i < s + 32) → (errors a b).getD i false = false := by
    intro i hi
    rw [← Bool.not_eq_true, errors_getD hlen]
    exact fun hdiff => hi (hburst i hdiff)
  have hlong : ∃ i, (errors a b).getD i false = true := by
    by_contra hnone
    apply hne
    apply msgBits_injective hlen
    apply List.ext_getElem?
    intro i
    by_contra hdiff
    exact hnone ⟨i, (errors_getD hlen i).mpr hdiff⟩
  obtain ⟨i, hi⟩ := hlong
  obtain ⟨hsi, his⟩ := hburst i ((errors_getD hlen i).mp hi)
  have hin := lt_of_getD hi
  have hskip := crcBits_skip 0#32 (e := errors a b) (s := s) (by omega)
    (fun j hj => hquiet j (by omega))
  rw [(crcBit_linear.iterate s).zero] at hskip
  have hafter (j : Nat) : (((errors a b).drop s).drop 32).getD j false = false := by
    rw [getD_drop, getD_drop]
    exact hquiet _ (by omega)
  have hwindow : (((errors a b).drop s).take 32).length ≤ 32 := by
    rw [List.length_take]
    exact Nat.min_le_left _ _
  rw [hskip, ← List.take_append_drop 32 ((errors a b).drop s), crcBits_append,
    crcBits_quiet hafter] at hcrc
  have hbit := bitsWord_getLsbD hwindow (i - s)
  rw [← crcBits_null hwindow hcrc, BitVec.getLsbD_zero, List.getD_eq_getElem?_getD,
    List.getElem?_take, if_pos (by omega), ← List.getD_eq_getElem?_getD, getD_drop,
    Nat.add_sub_cancel' hsi, hi] at hbit
  cases hbit

/-- One byte stuck. -/
theorem ether_crc_finds_burst_byte :
    etherCrc [0x01, 0x00, 0x5e, 0x05] ≠ etherCrc [0x01, 0xff, 0x5e, 0x05] := by
  refine ether_crc_finds_burst rfl (by decide) 8 ?_
  intro i hi
  by_cases hin : i < 32
  · have hall : ∀ i < 32, (msgBits [0x01, 0x00, 0x5e, 0x05])[i]? ≠
        (msgBits [0x01, 0xff, 0x5e, 0x05])[i]? → 8 ≤ i ∧ i < 8 + 32 := by decide
    exact hall i hin hi
  · have hend (p : List (BitVec 8)) (hp : p.length = 4) : (msgBits p)[i]? = none := by
      apply List.getElem?_eq_none
      rw [length_msgBits, hp]
      omega
    exact absurd ((hend _ rfl).trans (hend _ rfl).symm) hi

/-- Messages of one length that differ in two bits have one CRC only if these are a multiple
of the CRC's cycle apart. -/
theorem ether_crc_two_bits {a b : List (BitVec 8)} (hlen : a.length = b.length) {s t : Nat}
    (hst : s < t) (hdiff : ∀ i, (msgBits a)[i]? ≠ (msgBits b)[i]? ↔ i = s ∨ i = t) :
    etherCrc a = etherCrc b ↔ 4294967295 ∣ t - s := by
  have herr (i : Nat) : (errors a b).getD i false = true ↔ i = s ∨ i = t :=
    (errors_getD hlen i).trans (hdiff i)
  have hquiet {i : Nat} (hs : i ≠ s) (ht : i ≠ t) : (errors a b).getD i false = false := by
    rw [← Bool.not_eq_true, herr]
    exact fun h => h.elim hs ht
  have hfirst := crcBits_hit 0#32 ((herr s).mpr (Or.inl rfl)) fun i hi =>
    hquiet (Nat.ne_of_lt hi) (Nat.ne_of_lt (Nat.lt_trans hi hst))
  rw [(crcBit_linear.iterate s).zero, BitVec.zero_xor] at hfirst
  have hgap : s + 1 + (t - s - 1) = t := by omega
  have hlast : ((errors a b).drop (s + 1)).getD (t - s - 1) false = true := by
    rw [getD_drop, hgap]
    exact (herr t).mpr (Or.inr rfl)
  have hsecond := crcBits_hit (crcBit 1#32) hlast fun i hi => by
    rw [getD_drop]
    exact hquiet (by omega) (by omega)
  have hrest : ∀ i, (((errors a b).drop (s + 1)).drop (t - s - 1 + 1)).getD i false = false := by
    intro i
    rw [getD_drop, getD_drop]
    exact hquiet (by omega) (by omega)
  have hturn : t - s = t - s - 1 + 1 := by omega
  rw [etherCrc_eq_iff hlen, hfirst, hsecond, crcBits_quiet hrest, ← iterate_succ_apply crcBit,
    Nat.succ_eq_add_one, ← hturn, ← crcBit_minimalPeriod (v := 1#32) (by decide),
    ← isPeriodicPt_iff_minimalPeriod_dvd]
  constructor
  · intro hnull
    exact BitVec.xor_eq_zero_iff.mp (crcBit_null hnull)
  · intro hper
    have hback : crcBit^[t - s] 1#32 = 1#32 := hper
    rw [hback, BitVec.xor_self]
    exact crcBit_linear.zero

/-- Two bits of one byte. -/
theorem ether_crc_two_bits_byte : etherCrc [0x81] ≠ etherCrc [0x00] := by
  have hiff : etherCrc [0x81] = etherCrc [0x00] ↔ 4294967295 ∣ 7 - 0 := by
    refine ether_crc_two_bits (a := [0x81]) (b := [0x00]) (s := 0) (t := 7) rfl (by decide) ?_
    intro i
    by_cases hin : i < 8
    · have hall : ∀ i < 8, (msgBits [0x81])[i]? ≠ (msgBits [0x00])[i]? ↔ i = 0 ∨ i = 7 := by
        decide
      exact hall i hin
    · have hend (p : List (BitVec 8)) (hp : p.length = 1) : (msgBits p)[i]? = none := by
        apply List.getElem?_eq_none
        rw [length_msgBits, hp]
        omega
      have hsame : (msgBits [0x81])[i]? = (msgBits [0x00])[i]? :=
        (hend _ rfl).trans (hend _ rfl).symm
      exact iff_of_false (fun h => h hsame) (by omega)
  exact fun heq => absurd (hiff.mp heq) (by decide)

end EmacDriver
