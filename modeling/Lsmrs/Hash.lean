import Lsmrs.Support.Bytes

/-!
# Key hashing

`hash64` is FNV-1a followed by a finalizer.
-/

namespace Lsmrs

open ByteString

def fnvOffsetBasis : UInt64 := 0xcbf29ce484222325

def fnvPrime : UInt64 := 0x00000100000001b3

/-- `mix`, the finalizer. -/
def mix (hash : UInt64) : UInt64 :=
  let hash := hash ^^^ (hash >>> 33)
  let hash := hash * 0xff51afd7ed558ccd
  let hash := hash ^^^ (hash >>> 33)
  let hash := hash * 0xc4ceb9fe1a85ec53
  hash ^^^ (hash >>> 33)

/-- One turn of the loop in `hash64`. -/
def fnvStep (hash : UInt64) (byte : UInt8) : UInt64 :=
  (hash ^^^ byte.toUInt64) * fnvPrime

/-- `hash64`. -/
def hash64 (bytes : Bytes) : UInt64 :=
  mix (bytes.foldl fnvStep fnvOffsetBasis)

example : hash64 (ascii "cat") = 0x98e25a302c6eb1d4 := by decide +kernel

end Lsmrs
