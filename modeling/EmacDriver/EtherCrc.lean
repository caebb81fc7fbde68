namespace EmacDriver

def crcpolyLe : BitVec 32 := 0xedb88320

def crcBit (crc : BitVec 32) : BitVec 32 :=
  (crc >>> 1) ^^^ (if crc &&& 1 ≠ 0 then crcpolyLe else 0)

def crcByte (crc : BitVec 32) (p : BitVec 8) : BitVec 32 :=
  (List.range 8).foldl (fun crc _ => crcBit crc) (crc ^^^ p.setWidth 32)

def crcReverse (crc : BitVec 32) : BitVec 32 :=
  let crc := (crc >>> 16) ||| (crc <<< 16)
  let crc := (crc >>> 8 &&& 0x00ff00ff) ||| (crc <<< 8 &&& 0xff00ff00)
  let crc := (crc >>> 4 &&& 0x0f0f0f0f) ||| (crc <<< 4 &&& 0xf0f0f0f0)
  let crc := (crc >>> 2 &&& 0x33333333) ||| (crc <<< 2 &&& 0xcccccccc)
  (crc >>> 1 &&& 0x55555555) ||| (crc <<< 1 &&& 0xaaaaaaaa)

def etherCrc (p : List (BitVec 8)) : BitVec 32 := crcReverse (p.foldl crcByte 0xffffffff)

end EmacDriver
