/-!
# SHA-1

The digest of a list of bytes, over big-endian words of 32 bits.
-/

namespace KernelIR.Sha1

structure State where
  a : UInt32
  b : UInt32
  c : UInt32
  d : UInt32
  e : UInt32
  deriving DecidableEq

def initial : State := ⟨0x67452301, 0xefcdab89, 0x98badcfe, 0x10325476, 0xc3d2e1f0⟩

def rotateLeft (x : UInt32) (n : UInt32) : UInt32 := (x <<< n) ||| (x >>> (32 - n))

/-- A word of the schedule from the sixteen before it, the last in front. -/
def scheduleWord (ws : List UInt32) : UInt32 :=
  rotateLeft (ws.getD 2 0 ^^^ ws.getD 7 0 ^^^ ws.getD 13 0 ^^^ ws.getD 15 0) 1

def extend : Nat → List UInt32 → List UInt32
  | 0, ws => ws
  | n + 1, ws => extend n (scheduleWord ws :: ws)

/-- The word that the round `t` mixes from three others, and its constant. -/
def mix (t : Nat) (b c d : UInt32) : UInt32 × UInt32 :=
  if t < 20 then ((b &&& c) ||| (~~~b &&& d), 0x5a827999)
  else if t < 40 then (b ^^^ c ^^^ d, 0x6ed9eba1)
  else if t < 60 then ((b &&& c) ||| (b &&& d) ||| (c &&& d), 0x8f1bbcdc)
  else (b ^^^ c ^^^ d, 0xca62c1d6)

def round (s : State) (w : UInt32 × Nat) : State :=
  let (f, k) := mix w.2 s.b s.c s.d
  ⟨rotateLeft s.a 5 + f + s.e + k + w.1, s.a, rotateLeft s.b 30, s.c, s.d⟩

def compress (s : State) (block : List UInt32) : State :=
  let r := ((extend 64 block.reverse).reverse.zipIdx).foldl round s
  ⟨s.a + r.a, s.b + r.b, s.c + r.c, s.d + r.d, s.e + r.e⟩

def word (bytes : List UInt8) : UInt32 :=
  bytes.foldl (fun w b => (w <<< 8) ||| b.toUInt32) 0

/-- The `count` bytes of a number, the most significant in front. -/
def bigEndian (count n : Nat) : List UInt8 :=
  (List.range count).map fun i => UInt8.ofNat (n >>> (8 * (count - 1 - i)))

/-- A one bit, zeros up to a multiple of the block length, and the length in bits. -/
def padding (length : Nat) : List UInt8 :=
  0x80 :: List.replicate ((119 - length % 64) % 64) 0 ++ bigEndian 8 (8 * length)

def block (bytes : List UInt8) (i : Nat) : List UInt32 :=
  (List.range 16).map fun j => word ((bytes.drop (64 * i + 4 * j)).take 4)

def State.bytes (s : State) : List UInt8 :=
  [s.a, s.b, s.c, s.d, s.e].flatMap fun w => bigEndian 4 w.toNat

@[simp] theorem State.length_bytes (s : State) : s.bytes.length = 20 := by
  simp [State.bytes, bigEndian]

def digest (message : List UInt8) : List UInt8 :=
  let padded := message ++ padding message.length
  ((List.range (padded.length / 64)).foldl (fun s i => compress s (block padded i)) initial).bytes

@[simp] theorem length_digest (message : List UInt8) : (digest message).length = 20 := by
  simp [digest]

end KernelIR.Sha1
