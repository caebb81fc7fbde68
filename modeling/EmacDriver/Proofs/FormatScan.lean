import EmacDriver.Vsnprintf

namespace EmacDriver

/-- The format up to, and with, its NUL. -/
theorem rd_eq {fmt : CStr} {i : Nat} (h : i ≤ fmt.length) : rd fmt i = some (fmt.getD i 0) := by
  simp [rd, h]

theorem lt_of_ne_nul {fmt : CStr} {i : Nat} (h : fmt.getD i 0 ≠ 0) : i < fmt.length := by
  by_contra hi
  exact h (by rw [List.getD_eq_getElem?_getD, List.getElem?_eq_none (by omega)]; rfl)

theorem flagLoop_some (fmt : CStr) (n i : Nat) (flags : Flags) (hi : i < fmt.length)
    (hn : fmt.length ≤ i + n) :
    ∃ i' flags', flagLoop fmt n i flags = some (i', flags') ∧ i < i' ∧ i' ≤ fmt.length := by
  induction n generalizing i flags with
  | zero => omega
  | succ n ih =>
    have hstep : ∀ c flags, c ≠ 0 → fmt.getD (i + 1) 0 = c →
        ∃ i' flags', flagLoop fmt n (i + 1) flags = some (i', flags') ∧ i < i' ∧
          i' ≤ fmt.length := by
      intro c flags hc hget
      have hlt := lt_of_ne_nul (hget.trans_ne hc)
      obtain ⟨i', flags', heq, hlo, hhi⟩ := ih (i + 1) flags hlt (by omega)
      exact ⟨i', flags', heq, by omega, hhi⟩
    simp only [flagLoop, rd_eq (show i + 1 ≤ fmt.length by omega), Option.bind_eq_bind,
      Option.bind_some]
    split
    case isTrue h => exact hstep 45 _ (by decide) h
    split
    case isTrue h => exact hstep 43 _ (by decide) h
    split
    case isTrue h => exact hstep 32 _ (by decide) h
    split
    case isTrue h => exact hstep 35 _ (by decide) h
    split
    case isTrue h => exact hstep 48 _ (by decide) h
    exact ⟨i + 1, flags, rfl, by omega, by omega⟩

/-- A digit is not the NUL, nor is a letter. -/
theorem lt_of_isDigit {fmt : CStr} {i : Nat} (h : isDigit (fmt.getD i 0)) : i < fmt.length := by
  apply lt_of_ne_nul
  intro h0
  rw [h0] at h
  exact absurd h (by decide)

theorem lt_of_isalnum {fmt : CStr} {i : Nat} (h : isalnum (fmt.getD i 0)) : i < fmt.length := by
  apply lt_of_ne_nul
  intro h0
  rw [h0] at h
  exact absurd h (by decide)

theorem skipAtoi_some (fmt : CStr) (n i : Nat) (v : Int) (hi : i ≤ fmt.length)
    (hn : fmt.length < i + n) :
    ∃ i' v', skipAtoi fmt n i v = some (i', v') ∧ i ≤ i' ∧ i' ≤ fmt.length := by
  induction n generalizing i v with
  | zero => omega
  | succ n ih =>
    simp only [skipAtoi, rd_eq hi, Option.bind_eq_bind, Option.bind_some]
    split
    case isTrue h =>
      have := lt_of_isDigit h
      obtain ⟨i', v', heq, hlo, hhi⟩ := ih (i + 1) _ (by omega) (by omega)
      exact ⟨i', v', heq, by omega, hhi⟩
    exact ⟨i, v, rfl, by omega, hi⟩

theorem skipSuffix_some (fmt : CStr) (n i : Nat) (hi : i ≤ fmt.length) (hn : fmt.length < i + n) :
    ∃ i', skipSuffix fmt n i = some i' ∧ i ≤ i' ∧ i' ≤ fmt.length := by
  induction n generalizing i with
  | zero => omega
  | succ n ih =>
    simp only [skipSuffix, rd_eq hi, Option.bind_eq_bind, Option.bind_some]
    split
    case isTrue h =>
      have := lt_of_isalnum h
      obtain ⟨i', heq, hlo, hhi⟩ := ih (i + 1) (by omega) (by omega)
      exact ⟨i', heq, by omega, hhi⟩
    exact ⟨i, rfl, by omega, hi⟩

def Forward (fmt : CStr) (s : Spec) (r : Option Spec) : Prop :=
  ∃ s', r = some s' ∧ s.i ≤ s'.i ∧ s'.i ≤ fmt.length

theorem Forward.same {fmt : CStr} {s : Spec} (h : s.i ≤ fmt.length) : Forward fmt s (some s) :=
  ⟨s, rfl, by omega, h⟩

theorem scanWidth_forward {fmt : CStr} (args : Nat → Arg) {s : Spec} (h : s.i ≤ fmt.length) :
    Forward fmt s (scanWidth fmt args s) := by
  simp only [scanWidth, rd_eq h, Option.bind_eq_bind, Option.bind_some]
  split
  case isTrue hd =>
    obtain ⟨i', v', heq, hlo, hhi⟩ := skipAtoi_some fmt (fmt.length + 1) s.i 0 h (by omega)
    rw [heq]
    exact ⟨_, rfl, hlo, hhi⟩
  split
  case isTrue hc =>
    have := lt_of_ne_nul (hc.trans_ne (by decide))
    split
    · exact ⟨_, rfl, by simp, by simpa⟩
    · exact ⟨_, rfl, by simp, by simpa⟩
  exact Forward.same h

theorem scanPrecision_forward {fmt : CStr} (args : Nat → Arg) {s : Spec}
    (h : s.i ≤ fmt.length) : Forward fmt s (scanPrecision fmt args s) := by
  simp only [scanPrecision, rd_eq h, Option.bind_eq_bind, Option.bind_some]
  split
  case isTrue hc =>
    have hlt := lt_of_ne_nul (hc.trans_ne (by decide))
    simp only [rd_eq (show s.i + 1 ≤ fmt.length by omega), Option.bind_some]
    split
    case isTrue hd =>
      obtain ⟨i', v', heq, hlo, hhi⟩ :=
        skipAtoi_some fmt (fmt.length + 1) (s.i + 1) 0 (by omega) (by omega)
      rw [heq]
      exact ⟨_, rfl, Nat.le_trans (Nat.le_succ _) hlo, hhi⟩
    split
    case isTrue hd =>
      have := lt_of_ne_nul (hd.trans_ne (by decide))
      exact ⟨_, rfl, by simp; omega, by simp; omega⟩
    exact ⟨_, rfl, by simp, by simp; omega⟩
  exact Forward.same h

theorem scanQualifier_forward {fmt : CStr} {s : Spec} (h : s.i ≤ fmt.length) :
    Forward fmt s (scanQualifier fmt s) := by
  simp only [scanQualifier, rd_eq h, Option.bind_eq_bind, Option.bind_some]
  split
  case isTrue hc =>
    have hne : fmt.getD s.i 0 ≠ 0 := by
      intro h0
      rw [h0] at hc
      exact absurd hc (by decide)
    have hlt := lt_of_ne_nul hne
    simp only [rd_eq (show s.i + 1 ≤ fmt.length by omega), Option.bind_some]
    split
    case isTrue hd =>
      have := lt_of_ne_nul (hd.2.trans_ne (by decide))
      exact ⟨_, rfl, by simp, by simp; omega⟩
    exact ⟨_, rfl, by simp, by simp; omega⟩
  exact Forward.same h

/-- `pointer` looks at most one character past a letter. -/
theorem pointer_some {fmt : CStr} {i : Nat} (h : i ≤ fmt.length) (ptr : Arg)
    (fieldWidth precision : Int) (flags : Flags) :
    ∃ l, pointer fmt i ptr fieldWidth precision flags = some l := by
  simp only [pointer, rd_eq h, Option.bind_eq_bind, Option.bind_some]
  split
  case isTrue hc =>
    have hlt := lt_of_ne_nul (hc.trans_ne (by decide))
    simp [rd_eq (show i + 1 ≤ fmt.length by omega)]
  split
  · exact ⟨_, rfl⟩
  split
  · exact ⟨_, rfl⟩
  split
  case isTrue hc =>
    have hne : fmt.getD i 0 ≠ 0 := by
      intro h0
      rw [h0] at hc
      exact absurd hc (by decide)
    have hlt := lt_of_ne_nul hne
    simp only [rd_eq (show i + 1 ≤ fmt.length by omega), Option.bind_some]
    split
    · exact ⟨_, rfl⟩
    split
    · exact ⟨_, rfl⟩
    exact ⟨_, rfl⟩
  exact ⟨_, rfl⟩

def Passed (fmt : CStr) (i : Nat) (r : Option (Piece × Nat × Nat)) : Prop :=
  ∃ p i' k', r = some (p, i', k') ∧ i ≤ i' ∧ i' ≤ fmt.length

theorem Passed.next {fmt : CStr} {i : Nat} {c : UInt8} (hget : fmt.getD i 0 = c) (hc : c ≠ 0)
    (p : Piece) (k : Nat) : Passed fmt i (some (p, i + 1, k)) :=
  ⟨p, i + 1, k, rfl, by omega, lt_of_ne_nul (hget.trans_ne hc)⟩

theorem convert_passed {fmt : CStr} (args : Nat → Arg) {s : Spec} (h : s.i ≤ fmt.length)
    (h0 : 0 < s.i) : Passed fmt s.i (convert fmt args s) := by
  rw [convert, rd_eq h, Option.bind_eq_bind, Option.bind_some]
  refine iteInduction (motive := Passed fmt s.i) (fun hc => ?chr) (fun _ => ?_)
  case chr => exact Passed.next hc (by decide) _ _
  refine iteInduction (motive := Passed fmt s.i) (fun hc => ?str) (fun _ => ?_)
  case str => exact Passed.next hc (by decide) _ _
  refine iteInduction (motive := Passed fmt s.i) (fun hc => ?ptr) (fun _ => ?_)
  case ptr =>
    have hlt := lt_of_ne_nul (hc.trans_ne (by decide))
    obtain ⟨l, hl⟩ := pointer_some hlt (args s.k) s.fieldWidth s.precision s.flags
    obtain ⟨i', heq, hlo, hhi⟩ := skipSuffix_some fmt (fmt.length + 1) (s.i + 1) hlt (by omega)
    rw [hl, heq]
    exact ⟨.pointer l, i', s.k + 1, rfl, by omega, hhi⟩
  refine iteInduction (motive := Passed fmt s.i) (fun hc => ?cnt) (fun _ => ?_)
  case cnt => exact Passed.next hc (by decide) _ _
  refine iteInduction (motive := Passed fmt s.i) (fun hc => ?percent) (fun _ => ?_)
  case percent => exact Passed.next hc (by decide) _ _
  refine iteInduction (motive := Passed fmt s.i) (fun hc => ?oct) (fun _ => ?_)
  case oct => exact Passed.next hc (by decide) _ _
  refine iteInduction (motive := Passed fmt s.i) (fun hc => ?hex) (fun _ => ?_)
  case hex => exact Passed.next hc (by decide) _ _
  refine iteInduction (motive := Passed fmt s.i) (fun hc => ?hexUpper) (fun _ => ?_)
  case hexUpper => exact Passed.next hc (by decide) _ _
  refine iteInduction (motive := Passed fmt s.i) (fun hc => ?signed) (fun _ => ?_)
  case signed =>
    rcases hc with hc | hc
    · exact Passed.next hc (by decide) _ _
    · exact Passed.next hc (by decide) _ _
  refine iteInduction (motive := Passed fmt s.i) (fun hc => ?unsigned) (fun _ => ?_)
  case unsigned => exact Passed.next hc (by decide) _ _
  refine iteInduction (motive := Passed fmt s.i) (fun hc => ?other) (fun _ => ?_)
  case other => exact Passed.next rfl hc _ _
  -- the back-step of a conversion cut short by the NUL, undone by the loop
  exact ⟨.chars [37], s.i - 1 + 1, s.k, rfl, by omega, by omega⟩

/-- A conversion goes past its `%`, and stays in the format. -/
theorem conversion_forward {fmt : CStr} (args : Nat → Arg) (i k : Nat) (h : i < fmt.length) :
    ∃ p i' k', conversion fmt args i k = some (p, i', k') ∧ i < i' ∧ i' ≤ fmt.length := by
  obtain ⟨i1, flags, hflags, hlo, hhi⟩ :=
    flagLoop_some fmt (fmt.length + 1) i Flags.none h (by omega)
  obtain ⟨s1, hs1, hlo1, hhi1⟩ := scanWidth_forward args (s := ⟨i1, k, flags, -1, -1, none⟩) hhi
  obtain ⟨s2, hs2, hlo2, hhi2⟩ := scanPrecision_forward args hhi1
  obtain ⟨s3, hs3, hlo3, hhi3⟩ := scanQualifier_forward hhi2
  simp only at hlo1
  obtain ⟨p, i', k', hc, hlo4, hhi4⟩ := convert_passed args hhi3 (by omega)
  refine ⟨p, i', k', ?_, by omega, hhi4⟩
  simp only [conversion, hflags, Option.bind_eq_bind, Option.bind_some, hs1, hs2, hs3, hc]

/-- The pieces the scan makes of a format, apart from any output. -/
def pieces (fmt : CStr) (args : Nat → Arg) : Nat → Nat → Nat → Option (List Piece)
  | 0, _, _ => none
  | n + 1, i, k => do
    let c ← rd fmt i
    if c = 0 then some []
    else if c ≠ 37 then
      let ps ← pieces fmt args n (i + 1) k
      some (.chars [c] :: ps)
    else
      let (p, i, k) ← conversion fmt args i k
      let ps ← pieces fmt args n i k
      some (p :: ps)

def formatPieces (fmt : CStr) (args : Nat → Arg) : Option (List Piece) :=
  pieces fmt args (fmt.length + 1) 0 0

/-- The scan ends, each turn being one character further at least. -/
theorem pieces_some {fmt : CStr} (args : Nat → Arg) (n i k : Nat) (hi : i ≤ fmt.length)
    (hn : fmt.length < i + n) : ∃ ps, pieces fmt args n i k = some ps := by
  induction n generalizing i k with
  | zero => omega
  | succ n ih =>
    simp only [pieces, rd_eq hi, Option.bind_eq_bind, Option.bind_some]
    split
    · exact ⟨[], rfl⟩
    case isFalse hc =>
      have hlt := lt_of_ne_nul hc
      split
      · obtain ⟨ps, hps⟩ := ih (i + 1) k hlt (by omega)
        exact ⟨_, by rw [hps]; rfl⟩
      · obtain ⟨p, i', k', hconv, hlo, hhi⟩ := conversion_forward args i k hlt
        obtain ⟨ps, hps⟩ := ih i' k' hhi (by omega)
        exact ⟨p :: ps, by simp only [hconv, Option.bind_some, hps]⟩

/-- Every format has its pieces. -/
theorem formatPieces_some (fmt : CStr) (args : Nat → Arg) :
    ∃ ps, formatPieces fmt args = some ps :=
  pieces_some args (fmt.length + 1) 0 0 (by omega) (by omega)

end EmacDriver
