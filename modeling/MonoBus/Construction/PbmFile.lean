import MonoBus.Construction.Client
import MonoBus.Framework.Packing

/-!
# Reading a bitmap (`monobusc.c`)

The client reads the bitmap with one call of `pbm_readpbmrow_packed`, for a row of
`width*height` pixels.  The function belongs to the PBM library; `Netpbm` says what it does with
a file of either format, as far as it is documented.
-/

namespace MonoBus

/-- What stands in a PBM file behind its header: packed rows in the raw format, digits in the plain
format. -/
inductive PbmFile
  | raw (bytes : List UInt8)
  | plain (digits : List Bool)

/-- `pbm_readpbmrow_packed(file, packed_bits, cols, format)`: the bytes it stores at the start of
`packed_bits`, if it returns. -/
structure Netpbm where
  readpbmrowPacked : PbmFile → Int32 → Option (List UInt8)
  /-- The next `⌈cols / 8⌉` bytes, with the bits behind the last column cleared. -/
  raw_eq : ∀ {bytes cols}, (cols.toInt.toNat + 7) / 8 ≤ bytes.length →
    readpbmrowPacked (.raw bytes) cols = some (packBits (packedBit bytes) cols.toInt.toNat)
  /-- The next `cols` digits. -/
  plain_eq : ∀ {digits cols}, cols.toInt.toNat ≤ digits.length →
    readpbmrowPacked (.plain digits) cols =
      some (packBits (fun p => digits.getD p false) cols.toInt.toNat)

/-- A library that reads as documented, and gives up at the end of a file. -/
def Netpbm.documented : Netpbm where
  readpbmrowPacked
    | .raw bytes, cols =>
        if (cols.toInt.toNat + 7) / 8 ≤ bytes.length then
          some (packBits (packedBit bytes) cols.toInt.toNat)
        else none
    | .plain digits, cols =>
        if cols.toInt.toNat ≤ digits.length then
          some (packBits (fun p => digits.getD p false) cols.toInt.toNat)
        else none
  raw_eq h := if_pos h
  plain_eq h := if_pos h

namespace Client

/-- The part of `main` that reads the bitmap.  There is none if `width*height` overflows, if the
library gives up, or if it stores more than `len` bytes. -/
def readBitmap (netpbm : Netpbm) (width height : Int32) (fin : PbmFile) : Option (List UInt8) := do
  let stride := monobusStrideForWidth width.toUInt32
  let len := stride * height.toUInt32
  let bitmap : List UInt8 := List.replicate len.toNat 0
  let cols ← checked32 (width.toInt * height.toInt)
  let row ← netpbm.readpbmrowPacked fin cols
  if row.length ≤ bitmap.length then return row ++ bitmap.drop row.length else none

end Client

end MonoBus
