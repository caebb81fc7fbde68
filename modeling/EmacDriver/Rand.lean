import EmacDriver.EthAddr

namespace EmacDriver

def randR (seed : BitVec 32) : BitVec 32 :=
  let seed := seed ^^^ (seed <<< 13)
  let seed := seed ^^^ (seed >>> 17)
  seed ^^^ (seed <<< 5)

def randomBytes : Nat → BitVec 32 → List UInt8
  | 0, _ => []
  | n + 1, seed => UInt8.ofBitVec ((randR seed).setWidth 8) :: randomBytes n (randR seed)

theorem length_randomBytes (n : Nat) (seed : BitVec 32) : (randomBytes n seed).length = n := by
  induction n generalizing seed with
  | zero => rfl
  | succ n ih => exact congrArg (· + 1) (ih (randR seed))

def localAddr (addr : List UInt8) : List UInt8 :=
  let addr := addr.set 0 (addr.getD 0 0 &&& 0xfe)
  addr.set 0 (addr.getD 0 0 ||| 0x02)

theorem length_localAddr (addr : List UInt8) : (localAddr addr).length = addr.length := by
  simp [localAddr]

def randomEthaddr (seed : BitVec 32) : Mac :=
  ⟨(localAddr (randomBytes 6 seed)).toArray,
    (length_localAddr _).trans (length_randomBytes 6 seed)⟩

/-- The seed is `get_timer(0)`, cut to an `unsigned int`. -/
def netRandomEthaddr (s : Host) : Mac × Host :=
  let (t, s) := getTimer s 0
  (randomEthaddr (t.toBitVec.setWidth 32), s)

end EmacDriver
