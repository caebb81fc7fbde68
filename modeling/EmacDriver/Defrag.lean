import EmacDriver.Receive

namespace EmacDriver
open Bytes

/-- Why a call has no defined result: an access that leaves `pkt_buff` or the
datagram, or a hole list that runs in a circle. -/
inductive Fault where
  | outside
  | endless
  deriving DecidableEq, Repr

structure Defrag where
  pktBuff : Buf
  firstHole : UInt16
  totalLen : UInt16

def Defrag.initial : Defrag := ⟨fun _ => 0, 0, 0⟩

/-- `payload + i`: eight bytes each, behind the IP header. -/
def holeAt (i : Nat) : Nat := 20 + 8 * i

def lastByte (b : Buf) (i : Nat) : Nat := (load16 b (holeAt i)).toNat
def nextHole (b : Buf) (i : Nat) : Nat := (load16 b (holeAt i + 2)).toNat
def prevHole (b : Buf) (i : Nat) : Nat := (load16 b (holeAt i + 4)).toNat

def setLastByte (b : Buf) (i v : Nat) : Buf := store16 b (holeAt i) (UInt16.ofNat v)
def setNextHole (b : Buf) (i v : Nat) : Buf := store16 b (holeAt i + 2) (UInt16.ofNat v)
def setPrevHole (b : Buf) (i v : Nat) : Buf := store16 b (holeAt i + 4) (UInt16.ofNat v)

def copyHole (b : Buf) (newh h : Nat) : Buf := copy b (holeAt newh) b (holeAt h) 8

/-- A descriptor has to lie in the 16384 bytes of `pkt_buff`. -/
def inside (i : Int) : Except Fault Unit :=
  if 0 ≤ i ∧ 20 + 8 * i + 8 ≤ 16384 then .ok () else .error .outside

structure FragInfo where
  offset8 : Nat
  len : Int
  more : Bool
  deriving DecidableEq, Repr

def FragInfo.start (f : FragInfo) : Nat := 8 * f.offset8

def fragInfo (ip : Buf) : FragInfo where
  offset8 := ntohs (load16 ip 6) &&& 0x1fff
  len := lenMinus (ntohs (load16 ip 2)) 20
  more := ntohs (load16 ip 6) &&& 0x2000 != 0

def resetPacket (s : Defrag) (ip : Buf) : Defrag where
  pktBuff :=
    let b := setPrevHole (setNextHole (setLastByte s.pktBuff 0 0xffff) 0 0) 0 0
    copy b 0 ip 0 20
  firstHole := 0
  totalLen := 0xffff

/-- The first hole that does not end before `start`. There are 2045 descriptors,
so that a longer walk has come round. -/
def findHole (b : Buf) (start : Nat) : Nat → Nat → Except Fault (Option Nat)
  | 0, _ => .error .endless
  | n + 1, h => do
    inside h
    if lastByte b h < start then
      if nextHole b h = 0 then return none else findHole b start n (nextHole b h)
    else return some h

/-- Complete overlap. The index 0 of a neighbour stands for none, and for the hole
at offset 0. -/
def removeHole (s : Defrag) (h : Nat) : Except Fault (Defrag × Bool) := do
  let prev := prevHole s.pktBuff h
  let next := nextHole s.pktBuff h
  if prev = 0 ∧ next = 0 then return (s, true)
  else if prev = 0 then
    inside next
    return ({ s with firstHole := UInt16.ofNat next
                     pktBuff := setPrevHole s.pktBuff next 0 }, false)
  else if next = 0 then
    inside prev
    return ({ s with pktBuff := setNextHole s.pktBuff prev 0 }, false)
  else
    inside next
    inside prev
    return ({ s with pktBuff := setNextHole (setPrevHole s.pktBuff next prev) prev next }, false)

def linkNext (b : Buf) (n : Nat) : Except Fault Buf :=
  let next := nextHole b n
  if next ≠ 0 then do
    inside next
    return setPrevHole b next n
  else return b

def moveHole (s : Defrag) (h : Nat) (newh : Int) : Except Fault Defrag := do
  inside newh
  let n := newh.toNat
  let b ← linkNext (copyHole s.pktBuff n h) n
  let prev := prevHole b n
  if prev ≠ 0 then
    inside prev
    return { s with pktBuff := setNextHole b prev n }
  else return { s with pktBuff := b, firstHole := UInt16.ofNat n }

def splitHole (s : Defrag) (h start : Nat) (newh : Int) : Except Fault Defrag := do
  inside newh
  let n := newh.toNat
  let b := copyHole s.pktBuff n h
  let b ← linkNext (setPrevHole (setNextHole (setLastByte b h start) h n) n h) n
  return { s with pktBuff := b }

/-- The hole list without the fragment, and whether that was the last hole. -/
def fixHoles (s : Defrag) (h : Nat) (f : FragInfo) : Except Fault (Defrag × Bool) :=
  let newh : Int := f.offset8 + f.len.tdiv 8
  if h ≥ f.offset8 ∧ lastByte s.pktBuff h ≤ f.start + f.len then removeHole s h
  else if lastByte s.pktBuff h ≤ f.start + f.len then
    .ok ({ s with pktBuff := setLastByte s.pktBuff h f.start }, false)
  else if h ≥ f.offset8 then do
    let s ← moveHole s h newh
    return (s, false)
  else do
    let s ← splitHole s h f.start newh
    return (s, false)

/-- `memcpy(thisfrag, indata + IP_HDR_SIZE, len)`, `avail` bytes being there. -/
def storeFragment (s : Defrag) (ip : Buf) (avail : Nat) (f : FragInfo) : Except Fault Defrag :=
  if 0 ≤ f.len ∧ holeAt f.offset8 + f.len ≤ 16384 ∧ 20 + f.len ≤ avail then
    .ok { s with pktBuff := copy s.pktBuff (holeAt f.offset8) ip 20 f.len.toNat }
  else .error .outside

/-- A fragment that is not the last keeps `total_len` and the end of its hole. -/
def truncateHole (s : Defrag) (h : Nat) (f : FragInfo) : Defrag :=
  if f.more then s
  else
    { s with totalLen := UInt16.ofNat (f.start + f.len).toNat
             pktBuff := setLastByte s.pktBuff h (f.start + f.len).toNat }

def addFragment (s : Defrag) (ip : Buf) (avail : Nat) (f : FragInfo) :
    Except Fault (Defrag × Option Int) := do
  match ← findHole s.pktBuff f.start 2046 s.firstHole.toNat with
  | none => return (s, none)
  | some h =>
    if f.offset8 + (f.len + 7).tdiv 8 ≤ h then return (s, none)
    else
      let (s, done) ← fixHoles (truncateHole s h f) h f
      let s ← storeFragment s ip avail f
      if !done then return (s, none)
      else
        return ({ s with pktBuff := store16 s.pktBuff 2 (htons s.totalLen.toNat) },
          some (s.totalLen.toNat + 20))

def startsPacket (s : Defrag) (ip : Buf) : Bool :=
  s.totalLen == 0 || load16 s.pktBuff 4 != load16 ip 4

/-- `__net_defragment`, there with `CONFIG_IP_DEFRAG`, `ip` pointing to `avail` received bytes. The
sum is compared as an unsigned long. -/
def netDefragmentAssemble (s : Defrag) (ip : Buf) (avail : Nat) :
    Except Fault (Defrag × Option Int) :=
  let f := fragInfo ip
  if toSize (f.start + f.len) > 16364 then .ok (s, none)
  else if startsPacket s ip then
    if avail < 20 then .error .outside else addFragment (resetPacket s ip) ip avail f
  else addFragment s ip avail f

inductive Defragmented where
  | none
  | asReceived
  | assembled (len : Int)
  deriving DecidableEq, Repr

def Defrag.netDefragment (s : Defrag) (ip : Buf) (avail : Nat) :
    Except Fault (Defrag × Defragmented) :=
  if ntohs (load16 ip 6) &&& 0x3fff = 0 then .ok (s, .asReceived)
  else
    match netDefragmentAssemble s ip avail with
    | .ok (s, some len) => .ok (s, .assembled len)
    | .ok (s, none) => .ok (s, .none)
    | .error e => .error e

def ipTests (conf : NetConf) (inPacket : Buf) (ip : Nat) (len : Int) : Bool :=
  !(toSize len < 28) && !(len < ntohs (load16 inPacket (ip + 2))) &&
    inPacket ip &&& 0xf0 == 0x40 && !(inPacket ip &&& 0x0f > 5) && ipChecksumOk inPacket ip 20 &&
    !(conf.netIp != 0 && load32 inPacket (ip + 16) != conf.netIp &&
      load32 inPacket (ip + 16) != 0xffffffff)

/-- A received frame up to what `net_defragment` returns for it. -/
def rxDefragment (conf : NetConf) (s : Defrag) (f : Frame) :
    Except Fault (Defrag × Defragmented) :=
  match rxLink conf f.inPacket f.len with
  | none => .ok (s, .none)
  | some ⟨ethProto, ip, len⟩ =>
    if ethProto = 0x0800 ∧ ipTests conf f.inPacket ip len then
      s.netDefragment (fun i => f.inPacket (ip + i)) len.toNat
    else .ok (s, .none)

end EmacDriver
