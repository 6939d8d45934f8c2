import KernelIR.Sha1

/-!
# Name-based identifiers

A universally unique identifier has 16 bytes.  One that is made from a name holds the digest of the
name within a name space, with the version and the variant stamped into bytes 6 and 8.
-/

namespace KernelIR

structure Uuid where
  bytes : List UInt8
  length_eq : bytes.length = 16
  deriving DecidableEq

namespace Uuid

def dns : Uuid where
  bytes := [0x6b, 0xa7, 0xb8, 0x10, 0x9d, 0xad, 0x11, 0xd1, 0x80, 0xb4, 0x00, 0xc0, 0x4f, 0xd4,
    0x30, 0xc8]
  length_eq := rfl

/-- The identifier of a name within a name space: version 5, which hashes with SHA-1. -/
def ofName (space : Uuid) (name : String) : Uuid where
  bytes :=
    (((Sha1.digest (space.bytes ++ name.toUTF8.toList)).take 16).modify 6
      fun b => (b &&& 0x0f) ||| 0x50).modify 8 fun b => (b &&& 0x3f) ||| 0x80
  length_eq := by simp

def byteText (b : UInt8) : String :=
  String.ofList ((b.toNat / 16).digitChar :: [(b.toNat % 16).digitChar])

def text (u : Uuid) : String :=
  let hex (start count : Nat) := String.join (((u.bytes.drop start).take count).map byteText)
  "-".intercalate [hex 0 4, hex 4 2, hex 6 2, hex 8 2, hex 10 6]

/-- Takes a byte into a word, with bits of the word moved both ways. -/
def combine (seed : UInt64) (b : UInt8) : UInt64 :=
  let left : UInt64 := seed <<< 6
  let right : UInt64 := seed >>> 2
  seed ^^^ (b.toUInt64 + 0x9e3779b9 + left + right)

def hash (u : Uuid) : UInt64 := u.bytes.foldl combine 0

end Uuid

end KernelIR
