import Mathlib

/-!
# CRC-32C

The Castagnoli checksum, bit by bit in its reflected form. The developments that use
checksums take the function as a parameter; this is the one they are run with.
-/

namespace Lib

/-- One bit: shift out, and fold the polynomial in if a one fell out. -/
def crcBit (c : Nat) : Nat :=
  if c % 2 = 1 then Nat.xor (c / 2) 0x82F63B78 else c / 2

def crcByte (c : Nat) (b : UInt8) : Nat :=
  crcBit (crcBit (crcBit (crcBit (crcBit (crcBit (crcBit (crcBit (Nat.xor c b.toNat))))))))

def crc32c (bs : List UInt8) : UInt32 :=
  UInt32.ofNat (Nat.xor (bs.foldl crcByte 0xFFFFFFFF) 0xFFFFFFFF)

/-- The check value of the algorithm: the digits `1` to `9` in ASCII. -/
example : crc32c [0x31, 0x32, 0x33, 0x34, 0x35, 0x36, 0x37, 0x38, 0x39] = 0xE3069283 := by
  decide +kernel

end Lib
