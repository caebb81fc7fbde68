import EmacDriver.Ethernet

namespace EmacDriver
open Bytes

def pktsize : Int := 1522
def pktbufsrx : Nat := 4

structure EthRcvBuf where
  data : Buf
  length : Int

/-- `eth_rcv_bufs`, `eth_rcv_current` and `eth_rcv_last`, there with `CONFIG_API`. -/
structure EthRcv where
  bufs : Nat → EthRcvBuf
  current : Nat
  last : Nat

def ethSavePacket (r : EthRcv) (packet : Buf) (length : Int) : EthRcv :=
  if (r.last + 1) % pktbufsrx = r.current then r
  else if pktsize < length then r
  else
    let buf : EthRcvBuf := ⟨copy (r.bufs r.last).data 0 packet 0 length.toNat, length⟩
    { r with
      bufs := fun i => if i = r.last then buf else r.bufs i
      last := (r.last + 1) % pktbufsrx }

/-- `net_process_received_packet` while `push_packet` is `eth_save_packet`. -/
def netPushReceivedPacket (r : EthRcv) (f : Frame) : EthRcv :=
  if toSize f.len < 14 then r else ethSavePacket r f.inPacket f.len

def ethRxPush (s : Host) (r : EthRcv) : Host × EthRcv :=
  match s.eth.ethCurrent with
  | none => (s, r)
  | some p =>
    ({ s with eth := { s.eth with recvs := s.eth.recvs + 1 } },
      (s.hw.recv s.eth.recvs p).foldl netPushReceivedPacket r)

/-- The return value, and `packet` with what was copied there. -/
def ethReceive (s : Host) (r : EthRcv) (packet : Buf) (length : Int) :
    (Int × Buf) × Host × EthRcv :=
  let (s, r) := if r.current = r.last then ethRxPush s r else (s, r)
  if r.current = r.last then ((-1, packet), s, r)
  else
    let buf := r.bufs r.current
    let length := min buf.length length
    ((length, copy packet 0 buf.data 0 length.toNat), s,
      { r with current := (r.current + 1) % pktbufsrx })

def ethReceives (s : Host) (r : EthRcv) : List (Buf × Int) → List (Int × Buf) × Host × EthRcv
  | [] => ([], s, r)
  | (packet, length) :: calls =>
    let (reply, s, r) := ethReceive s r packet length
    let (replies, s, r) := ethReceives s r calls
    (reply :: replies, s, r)

end EmacDriver
