namespace EmacDriver

/-- A C string: its bytes up to, and without, the terminating NUL. -/
abbrev CStr := List UInt8

def cstr (s : String) : CStr := s.toList.map (fun c => UInt8.ofNat c.toNat)

def strcmp : CStr → CStr → Int
  | c1 :: s1, c2 :: s2 => if c1 = c2 then strcmp s1 s2 else (c1.toNat : Int) - c2.toNat
  | s1, s2 => ((s1.headD 0).toNat : Int) - (s2.headD 0).toNat

def isdigit (c : UInt8) : Bool := 48 ≤ c && c ≤ 57
def isxdigit (c : UInt8) : Bool := isdigit c || (65 ≤ c && c ≤ 70) || (97 ≤ c && c ≤ 102)
def islower (c : UInt8) : Bool := (97 ≤ c && c ≤ 122) || (223 ≤ c && c ≤ 246) || 248 ≤ c
def isupper (c : UInt8) : Bool := (65 ≤ c && c ≤ 90) || (192 ≤ c && c ≤ 222 && c != 215)
def tolower (c : UInt8) : UInt8 := if isupper c then c + 32 else c
def toupper (c : UInt8) : UInt8 := if islower c then c - 32 else c

def parseIntegerFixupRadix (s : CStr) (base : Nat) : CStr × Nat :=
  let base :=
    if base = 0 then
      if s.getD 0 0 = 48 then
        if tolower (s.getD 1 0) = 120 && isxdigit (s.getD 2 0) then 16 else 8
      else 10
    else base
  if base = 16 ∧ s.getD 0 0 = 48 ∧ tolower (s.getD 1 0) = 120 then (s.drop 2, base) else (s, base)

def digitValue (c : UInt8) : UInt64 :=
  if isdigit c then c.toUInt64 - 48 else (if islower c then toupper c else c).toUInt64 - 65 + 10

def strtoulLoop (base : Nat) : CStr → UInt64 → UInt64 × CStr
  | c :: cp, result =>
    if isxdigit c ∧ (digitValue c).toNat < base then
      strtoulLoop base cp (result * UInt64.ofNat base + digitValue c)
    else (result, c :: cp)
  | [], result => (result, [])

def simpleStrtoul (cp : CStr) (base : Nat) : UInt64 × CStr :=
  let (cp, base) := parseIntegerFixupRadix cp base
  strtoulLoop base cp 0

/-- The parallel arrays of names and values, slots 0 to 19. -/
structure Env where
  keys : Nat → CStr
  vals : Nat → CStr

def Env.holds (e : Env) (name : CStr) (idx : Nat) : Bool :=
  e.keys idx != [] && strcmp name (e.keys idx) == 0

/-- The slot whose value is returned: the caller gets a pointer into `vals`,
not a copy. -/
def envGet (e : Env) (name : CStr) : Option Nat := (List.range 20).find? (e.holds name)

/-- The search stops at slot 19 whether or not that slot is free. Copying from
a null value, or past the 20 bytes of a slot, has no defined result. -/
def envSet (e : Env) (name : CStr) (val : Option CStr) : Option Env :=
  let idx := ((List.range 19).find? (e.holds name)).getD 19
  match val with
  | none => none
  | some val =>
    if name.length < 20 ∧ val.length < 20 then
      some { keys := fun i => if i = idx then name else e.keys i
             vals := fun i => if i = idx then val else e.vals i }
    else none

end EmacDriver
