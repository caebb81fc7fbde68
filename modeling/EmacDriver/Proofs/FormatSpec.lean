import EmacDriver.Proofs.FormatScan

namespace EmacDriver
open Bytes

def Piece.text : Piece → List UInt8
  | .chars l => l
  | .pointer l => l
  | .count _ _ => []

def formatText (fmt : CStr) (args : Nat → Arg) : List UInt8 :=
  ((formatPieces fmt args).getD []).flatMap Piece.text

def StoresNothing (fmt : CStr) (args : Nat → Arg) : Prop :=
  ∀ p ∈ (formatPieces fmt args).getD [], ∀ ip width, p ≠ .count ip width

/-- No `%p` ends where addresses are error codes. -/
def PointersBelow (fmt : CStr) (args : Nat → Arg) (buf : Nat) : Prop :=
  ∀ before l after, formatPieces fmt args = some (before ++ Piece.pointer l :: after) →
    isErr (buf + ((before ++ [Piece.pointer l]).flatMap Piece.text).length) = false

def runPieces (buf endp : Nat) : List Piece → Out → Out × Bool
  | [], o => (o, false)
  | .chars l :: ps, o => runPieces buf endp ps (addchs endp o l)
  | .count ip width :: ps, o => runPieces buf endp ps (storeCount o buf ip width)
  | .pointer l :: ps, o =>
    let o := addchs endp o l
    if isErr o.str then (o, true) else runPieces buf endp ps o

/-- Scanning and writing do not depend on each other. -/
theorem formatLoop_eq {fmt : CStr} {args : Nat → Arg} (buf endp : Nat) {n i k : Nat}
    {ps : List Piece} (h : pieces fmt args n i k = some ps) (o : Out) :
    formatLoop fmt args buf endp n i k o = some (runPieces buf endp ps o) := by
  induction n generalizing i k ps o with
  | zero => cases h
  | succ n ih =>
    simp only [pieces, Option.bind_eq_bind, Option.bind_eq_some_iff] at h
    obtain ⟨c, hc, h⟩ := h
    simp only [formatLoop, hc, Option.bind_eq_bind, Option.bind_some]
    by_cases h0 : c = 0
    · rw [if_pos h0] at h ⊢
      cases h
      rfl
    rw [if_neg h0] at h ⊢
    by_cases h37 : c ≠ 37
    · rw [if_pos h37] at h ⊢
      obtain ⟨qs, hqs, hps⟩ := Option.bind_eq_some_iff.mp h
      cases hps
      exact ih hqs (addch endp o c)
    · rw [if_neg h37] at h ⊢
      obtain ⟨⟨p, i', k'⟩, hconv, h⟩ := Option.bind_eq_some_iff.mp h
      obtain ⟨qs, hqs, hps⟩ := Option.bind_eq_some_iff.mp h
      cases hps
      rw [hconv]
      cases p with
      | chars l => exact ih hqs _
      | count ip width => exact ih hqs _
      | pointer l =>
        by_cases herr : isErr (addchs endp o l).str
        · simp [runPieces, herr]
        · simp [runPieces, herr, ih hqs]

/-- `ADDCH` moves on for every character and stores those below the end. -/
theorem addchs_str (endp : Nat) (l : List UInt8) (o : Out) (h : o.str + l.length < 2 ^ 64) :
    (addchs endp o l).str = o.str + l.length := by
  induction l generalizing o with
  | nil => rfl
  | cons c l ih =>
    simp only [List.length_cons] at h
    have hstr : (addch endp o c).str = o.str + 1 := Nat.mod_eq_of_lt (by omega)
    have := ih (addch endp o c) (by omega)
    simp only [List.length_cons]
    exact this.trans (by omega)

/-- What is written is the text up to `end`; all else is as it was. -/
theorem addchs_mem (endp : Nat) (l : List UInt8) (o : Out) (h : o.str + l.length < 2 ^ 64)
    (a : Nat) : (addchs endp o l).mem a =
      if o.str ≤ a ∧ a < o.str + l.length ∧ a < endp then l.getD (a - o.str) 0 else o.mem a := by
  induction l generalizing o with
  | nil =>
    rw [if_neg (by simp; omega)]
    rfl
  | cons c l ih =>
    simp only [List.length_cons] at h ⊢
    have hstr : (addch endp o c).str = o.str + 1 := Nat.mod_eq_of_lt (by omega)
    have hmem : (addch endp o c).mem a =
        if a = o.str ∧ a < endp then c else o.mem a := by
      by_cases he : o.str < endp
      · by_cases ha : a = o.str
        · simp [addch, ha, he]
        · simp only [addch, if_pos he, if_neg (fun hc : a = o.str ∧ a < endp => ha hc.1)]
          exact patch_off (by omega)
      · simp only [addch, if_neg he]
        rw [if_neg (by omega)]
    have hrest := ih (addch endp o c) (by omega)
    rw [hstr, hmem] at hrest
    refine hrest.trans ?_
    by_cases hfirst : a = o.str
    · subst hfirst
      rw [if_neg (by omega)]
      by_cases he : o.str < endp
      · simp [he]
      · simp [he]
    · by_cases hin : o.str ≤ a ∧ a < o.str + (l.length + 1) ∧ a < endp
      · have hidx : a - o.str = a - (o.str + 1) + 1 := by omega
        rw [if_pos (by omega), if_pos hin, hidx, List.getD_cons_succ]
      · rw [if_neg (by omega), if_neg (by omega), if_neg hin]

theorem addchs_append (endp : Nat) (o : Out) (l l' : List UInt8) :
    addchs endp (addchs endp o l) l' = addchs endp o (l ++ l') :=
  (List.foldl_append ..).symm

/-- A `%p` that ends below the addresses of error codes does not end the loop. -/
theorem runPieces_text (buf endp : Nat) {ps : List Piece} {o : Out}
    (hn : ∀ p ∈ ps, ∀ ip width, p ≠ .count ip width)
    (hp : ∀ before l after, ps = before ++ .pointer l :: after →
      isErr (o.str + ((before ++ [.pointer l]).flatMap Piece.text).length) = false)
    (h : o.str + (ps.flatMap Piece.text).length < 2 ^ 64) :
    runPieces buf endp ps o = (addchs endp o (ps.flatMap Piece.text), false) := by
  induction ps generalizing o with
  | nil => rfl
  | cons p ps ih =>
    have hn' := fun q hq => hn q (List.mem_cons_of_mem p hq)
    rw [List.flatMap_cons, List.length_append] at h
    have hstr := addchs_str endp p.text o (by omega)
    have hp' : ∀ before l after, ps = before ++ .pointer l :: after →
        isErr ((addchs endp o p.text).str +
          ((before ++ [.pointer l]).flatMap Piece.text).length) = false := by
      intro before l after hps
      have hhere := hp (p :: before) l after (by rw [hps]; rfl)
      rw [List.cons_append, List.flatMap_cons, List.length_append] at hhere
      rw [hstr, Nat.add_assoc]
      exact hhere
    have hrest := ih (o := addchs endp o p.text) hn' hp' (by omega)
    rw [addchs_append, ← List.flatMap_cons] at hrest
    cases p with
    | chars l => exact hrest
    | count ip width => exact absurd rfl (hn _ List.mem_cons_self ip width)
    | pointer l =>
      have herr : isErr (addchs endp o l).str = false := by
        have hhere := hp [] l ps rfl
        simp only [List.nil_append, List.flatMap_cons, List.flatMap_nil, List.append_nil] at hhere
        exact (congrArg isErr hstr).trans hhere
      simp only [runPieces, herr]
      exact hrest

/-- The end is that of the buffer, or the last address of all. -/
def EndOf (buf size endp left : Nat) : Prop :=
  (endp = buf + size ∧ left = size) ∨
  (endp = 2 ^ 64 - 1 ∧ left = 2 ^ 64 - 1 - buf ∧ 2 ^ 64 ≤ buf + size)

theorem endOf_spec (buf size : UInt64) :
    EndOf buf.toNat size.toNat (endOf buf size).1 (endOf buf size).2 := by
  have hb := buf.toNat_lt
  have hs := size.toNat_lt
  have hadd : (buf + size).toNat = (buf.toNat + size.toNat) % 2 ^ 64 := UInt64.toNat_add ..
  by_cases hwrap : buf.toNat + size.toNat < 2 ^ 64
  · left
    rw [Nat.mod_eq_of_lt hwrap] at hadd
    rw [endOf, hadd, if_neg (by omega)]
    exact ⟨rfl, rfl⟩
  · right
    rw [endOf, if_pos (by omega)]
    exact ⟨rfl, rfl, by omega⟩

/-- The call in terms of its pieces. -/
theorem vsnprintfInternal_eq {fmt : CStr} {args : Nat → Arg} {ps : List Piece}
    (h : formatPieces fmt args = some ps) (mem : Buf) (buf size : UInt64) :
    vsnprintfInternal mem buf size fmt args =
      let r := runPieces buf.toNat (endOf buf size).1 ps ⟨mem, buf.toNat⟩
      some (if r.2 then (r.1.mem, toInt r.1.str)
        else terminate buf.toNat (endOf buf size).1 (endOf buf size).2 r.1) := by
  simp only [vsnprintfInternal, formatLoop_eq _ _ h, Option.bind_eq_bind, Option.bind_some]

/-- What a call leaves of the text `out` in a buffer of `size` bytes. -/
structure Truncated (mem : Buf) (buf size : Nat) (out : List UInt8) (mem' : Buf) : Prop where
  outside : ∀ a, a < buf ∨ buf + size ≤ a → mem' a = mem a
  text : 0 < size →
    slice mem' buf (min out.length (size - 1) + 1) = out.take (size - 1) ++ [0]

/-- The NUL goes behind the text or, where that is cut, on the last byte. -/
theorem terminate_eq {buf size endp left len : Nat} {o : Out} (hstr : o.str = buf + len)
    (h : buf + len + 1 < 2 ^ 64) (hsize : 0 < size) (hend : EndOf buf size endp left) :
    terminate buf endp left o =
      (store8 o.mem (buf + min len (size - 1)) 0, toInt len) := by
  have hnext : (addch endp o 0).str = buf + len + 1 := by
    rw [← hstr]
    exact Nat.mod_eq_of_lt (by omega)
  have hcount : ((buf + len + 1 : Nat) : Int) - 1 - buf = len := by omega
  rw [EndOf] at hend
  rw [terminate, if_pos (by omega)]
  simp only [hnext, hcount]
  by_cases hfits : o.str < endp
  · have hmin : min len (size - 1) = len := by omega
    rw [hstr] at hfits
    simp only [addch, hstr, if_pos hfits, if_neg (show ¬ buf + len + 1 > endp by omega), hmin]
  · have hlast : endp - 1 = buf + min len (size - 1) := by omega
    simp only [addch, if_neg hfits, if_pos (show buf + len + 1 > endp by omega), hlast]

/-- The NUL goes where the text ends, or on the last byte. -/
theorem terminate_truncated (mem : Buf) {buf size endp left : Nat} (out : List UInt8)
    (h : buf + out.length + 1 < 2 ^ 64) (hend : EndOf buf size endp left) :
    ∃ mem', terminate buf endp left (addchs endp ⟨mem, buf⟩ out) = (mem', toInt out.length) ∧
      Truncated mem buf size out mem' := by
  have hstr := addchs_str endp out ⟨mem, buf⟩ (by simp only; omega)
  have hmem := addchs_mem endp out ⟨mem, buf⟩ (by simp only; omega)
  simp only at hstr hmem
  have hcases := hend
  rw [EndOf] at hcases
  by_cases hsize : 0 < size
  · refine ⟨_, terminate_eq hstr h hsize hend, ?_, ?_⟩
    · intro a ha
      rw [store8_off (by omega), hmem, if_neg (by omega)]
    · intro _
      apply List.ext_getElem
      · simp
        omega
      · intro i hi hi'
        rw [getElem_slice]
        rw [length_slice] at hi
        by_cases hlast : i = min out.length (size - 1)
        · subst hlast
          rw [List.getElem_append_right (by rw [List.length_take]; omega)]
          simp
        · have htext : i < (out.take (size - 1)).length := by
            simp
            omega
          rw [store8_off (by omega), hmem, if_pos (by omega), List.getElem_append_left htext,
            List.getElem_take, Nat.add_sub_cancel_left]
          exact (List.getElem_eq_getD ..).symm
  · have hleft : left = 0 := by omega
    refine ⟨(addchs endp ⟨mem, buf⟩ out).mem, ?_, ?_, ?_⟩
    · rw [terminate, if_neg (by omega), hstr]
      exact congrArg _ (congrArg toInt (by omega))
    · intro a ha
      rw [hmem, if_neg (by omega)]
    · intro hpos
      exact absurd hpos hsize

/-- A call leaves its text and counts it, in an `int`. -/
theorem vsnprintfInternal_below {fmt : CStr} {args : Nat → Arg} (hn : StoresNothing fmt args)
    (mem : Buf) (buf size : UInt64)
    (h : buf.toNat + (formatText fmt args).length + 1 < 2 ^ 64)
    (hp : PointersBelow fmt args buf.toNat) :
    ∃ mem', vsnprintfInternal mem buf size fmt args =
        some (mem', toInt (formatText fmt args).length) ∧
      Truncated mem buf.toNat size.toNat (formatText fmt args) mem' := by
  obtain ⟨ps, hps⟩ := formatPieces_some fmt args
  have htext : formatText fmt args = ps.flatMap Piece.text := by rw [formatText, hps]; rfl
  have hstores : ∀ p ∈ ps, ∀ ip width, p ≠ .count ip width := by
    have := hn
    rw [StoresNothing, hps] at this
    exact this
  have hbelow : ∀ before l after, ps = before ++ .pointer l :: after →
      isErr (buf.toNat + ((before ++ [.pointer l]).flatMap Piece.text).length) = false :=
    fun before l after hcut => hp before l after (by rw [hps, hcut])
  rw [htext] at h ⊢
  have hrun := runPieces_text buf.toNat (endOf buf size).1 (o := ⟨mem, buf.toNat⟩) hstores hbelow
    (by simp only; omega)
  rw [vsnprintfInternal_eq hps, hrun]
  obtain ⟨mem', hterm, htrunc⟩ :=
    terminate_truncated mem (ps.flatMap Piece.text) h (endOf_spec buf size)
  exact ⟨mem', congrArg some hterm, htrunc⟩

/-- Away from the addresses of error codes, a `%p` may stand anywhere. -/
theorem pointersBelow_of_room {fmt : CStr} {args : Nat → Arg} {buf : Nat}
    (h : buf + (formatText fmt args).length + 4085 < 2 ^ 64) : PointersBelow fmt args buf := by
  intro before l after hps
  have htext : formatText fmt args =
      (before ++ [Piece.pointer l]).flatMap Piece.text ++ after.flatMap Piece.text := by
    rw [formatText, hps, ← List.flatMap_append, List.append_assoc]
    rfl
  rw [htext, List.length_append] at h
  apply decide_eq_false
  omega

theorem vsnprintfInternal_text {fmt : CStr} {args : Nat → Arg} (hn : StoresNothing fmt args)
    (mem : Buf) (buf size : UInt64)
    (h : buf.toNat + (formatText fmt args).length + 4085 < 2 ^ 64) :
    ∃ mem', vsnprintfInternal mem buf size fmt args =
        some (mem', toInt (formatText fmt args).length) ∧
      Truncated mem buf.toNat size.toNat (formatText fmt args) mem' :=
  vsnprintfInternal_below hn mem buf size (by omega) (pointersBelow_of_room h)

/-- Without a pointer nothing is taken for an error code. -/
theorem vsnprintfInternal_chars {fmt : CStr} {args : Nat → Arg} {ps : List Piece}
    (hps : formatPieces fmt args = some ps) (hc : ∀ p ∈ ps, ∃ l, p = .chars l)
    (mem : Buf) (buf size : UInt64)
    (h : buf.toNat + (formatText fmt args).length + 1 < 2 ^ 64) :
    ∃ mem', vsnprintfInternal mem buf size fmt args =
        some (mem', toInt (formatText fmt args).length) ∧
      Truncated mem buf.toNat size.toNat (formatText fmt args) mem' := by
  refine vsnprintfInternal_below ?_ mem buf size h ?_
  · intro p hp ip width
    rw [hps] at hp
    obtain ⟨l, rfl⟩ := hc p hp
    nofun
  · intro before l after hcut
    rw [hps] at hcut
    obtain ⟨l', hl'⟩ := hc (.pointer l) (by rw [Option.some.inj hcut]; simp)
    cases hl'

/-- `vscnprintf` compares the count as a `size_t`. -/
theorem vscnprintf_counted {mem mem' : Buf} {buf size : UInt64} {fmt : CStr} {args : Nat → Arg}
    {count : Int} (hcall : vsnprintfInternal mem buf size fmt args = some (mem', count))
    (hcount : 0 ≤ count) (hint : count < 2147483648) :
    vscnprintf mem buf size fmt args =
      some (mem', if size = 0 then 0 else min count (size.toNat - 1)) := by
  have hsz : toSize count = count.toNat := toSize_of_range hcount (by omega)
  simp only [vscnprintf, vsnprintf, hcall, Option.bind_eq_bind, Option.bind_some, hsz]
  by_cases hsize : size = 0
  · subst hsize
    simp
  · have hpos : 0 < size.toNat := by
      have : size.toNat ≠ 0 := fun h0 => hsize (UInt64.toNat_inj.mp h0)
      omega
    by_cases hfits : count.toNat < size.toNat
    · rw [if_pos hfits, if_neg hsize, Int.min_eq_left (by omega)]
    · rw [if_neg hfits, if_pos hsize, if_neg hsize, Int.min_eq_right (by omega),
        toInt_of_range (by omega) (by omega)]

def noArgs : Nat → Arg := fun _ => ⟨0, none, fun _ => 0⟩

def wideFormat : CStr := cstr "%2147483647d%2147483647d"

def signFlag : Flags := { Flags.none with sign := true }

theorem wideFormat_pieces : formatPieces wideFormat noArgs =
    some [.chars (number 0 10 2147483647 (-1) signFlag),
      .chars (number 0 10 2147483647 (-1) signFlag)] := by
  rfl

theorem number_zero_length {w : Int} (h : 0 < w) :
    ((number 0 10 w (-1) signFlag).length : Int) = w := by
  simp [number, signOf, numberDigits, padLoop, signFlag, Flags.none]
  omega

theorem wideFormat_length : (formatText wideFormat noArgs).length = 4294967294 := by
  have hone := number_zero_length (w := 2147483647) (by decide)
  rw [formatText, wideFormat_pieces]
  simp only [Option.getD_some, List.flatMap_cons, List.flatMap_nil, Piece.text,
    List.length_append, List.append_nil]
  omega

end EmacDriver
