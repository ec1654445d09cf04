import AegisDB.Library.Bytes

/-!
# The CRC-32 checksum

The checksum of IEEE 802.3, bit by bit: reflected, with the polynomial `0xEDB88320`, all ones at
the start and complemented at the end.
-/

namespace AegisDB

namespace Crc32

/-- Divide by the polynomial, one bit at a time. -/
def shift : ℕ → UInt32 → UInt32
  | 0, crc => crc
  | bits + 1, crc =>
    shift bits (if crc &&& 1 = 1 then (crc >>> 1) ^^^ 0xEDB88320 else crc >>> 1)

def hash (bytes : Bytes) : UInt32 :=
  ~~~ bytes.foldl (fun crc b => shift 8 (crc ^^^ b.toUInt32)) 0xFFFFFFFF

/-- The check value of the standard: the checksum of the digits from one to nine. -/
example : hash [0x31, 0x32, 0x33, 0x34, 0x35, 0x36, 0x37, 0x38, 0x39] = 0xCBF43926 := by
  decide +kernel

end Crc32

end AegisDB
