import LiveTemplate.Text.Quoted

/-!
Fingerprints of template fragments. A fragment is known by its static texts and by the kind and
source text of each of its holes; these are written out as one quoted text and digested. The
digest is the 256-bit secure hash: a message is padded to whole blocks of 64 bytes and folded, block
by block, into eight words.
-/

namespace LiveTemplate.Digest

set_option autoImplicit false

/-- The fractional parts of the cube roots of the first 64 primes. -/
def constants : List UInt32 := [
  0x428a2f98, 0x71374491, 0xb5c0fbcf, 0xe9b5dba5, 0x3956c25b, 0x59f111f1, 0x923f82a4, 0xab1c5ed5,
  0xd807aa98, 0x12835b01, 0x243185be, 0x550c7dc3, 0x72be5d74, 0x80deb1fe, 0x9bdc06a7, 0xc19bf174,
  0xe49b69c1, 0xefbe4786, 0x0fc19dc6, 0x240ca1cc, 0x2de92c6f, 0x4a7484aa, 0x5cb0a9dc, 0x76f988da,
  0x983e5152, 0xa831c66d, 0xb00327c8, 0xbf597fc7, 0xc6e00bf3, 0xd5a79147, 0x06ca6351, 0x14292967,
  0x27b70a85, 0x2e1b2138, 0x4d2c6dfc, 0x53380d13, 0x650a7354, 0x766a0abb, 0x81c2c92e, 0x92722c85,
  0xa2bfe8a1, 0xa81a664b, 0xc24b8b70, 0xc76c51a3, 0xd192e819, 0xd6990624, 0xf40e3585, 0x106aa070,
  0x19a4c116, 0x1e376c08, 0x2748774c, 0x34b0bcb5, 0x391c0cb3, 0x4ed8aa4a, 0x5b9cca4f, 0x682e6ff3,
  0x748f82ee, 0x78a5636f, 0x84c87814, 0x8cc70208, 0x90befffa, 0xa4506ceb, 0xbef9a3f7, 0xc67178f2]

/-- The eight words that blocks are folded into. -/
structure State where
  a : UInt32
  b : UInt32
  c : UInt32
  d : UInt32
  e : UInt32
  f : UInt32
  g : UInt32
  h : UInt32

/-- The fractional parts of the square roots of the first eight primes. -/
def State.initial : State := ⟨0x6a09e667, 0xbb67ae85, 0x3c6ef372, 0xa54ff53a, 0x510e527f,
  0x9b05688c, 0x1f83d9ab, 0x5be0cd19⟩

def State.words (s : State) : List UInt32 := [s.a, s.b, s.c, s.d, s.e, s.f, s.g, s.h]

def State.add (s t : State) : State :=
  ⟨s.a + t.a, s.b + t.b, s.c + t.c, s.d + t.d, s.e + t.e, s.f + t.f, s.g + t.g, s.h + t.h⟩

def rotate (x : UInt32) (n : UInt32) : UInt32 := (x >>> n) ||| (x <<< (32 - n))

/-- The next word of a block's schedule, from the sixteen words before it. -/
def scheduled (window : List UInt32) : UInt32 :=
  let near := window.getD 1 0
  let far := window.getD 14 0
  let s0 := rotate near 7 ^^^ rotate near 18 ^^^ (near >>> 3)
  let s1 := rotate far 17 ^^^ rotate far 19 ^^^ (far >>> 10)
  window.getD 0 0 + s0 + window.getD 9 0 + s1

def State.round (s : State) (constant word : UInt32) : State :=
  let s1 := rotate s.e 6 ^^^ rotate s.e 11 ^^^ rotate s.e 25
  let choice := (s.e &&& s.f) ^^^ (~~~s.e &&& s.g)
  let t1 := s.h + s1 + choice + constant + word
  let s0 := rotate s.a 2 ^^^ rotate s.a 13 ^^^ rotate s.a 22
  let majority := (s.a &&& s.b) ^^^ (s.a &&& s.c) ^^^ (s.b &&& s.c)
  ⟨t1 + (s0 + majority), s.a, s.b, s.c, s.d + t1, s.e, s.f, s.g⟩

/-- Runs a round per constant, with the schedule as a window that moves on. -/
def rounds : List UInt32 → List UInt32 → State → State
  | [], _, s => s
  | k :: ks, window, s =>
    rounds ks (window.drop 1 ++ [scheduled window]) (s.round k (window.getD 0 0))

/-- Big-endian words of a list of bytes. -/
def words : List UInt8 → List UInt32
  | a :: b :: c :: d :: rest =>
    ((a.toUInt32 <<< 24) ||| (b.toUInt32 <<< 16) ||| (c.toUInt32 <<< 8) ||| d.toUInt32) ::
      words rest
  | _ => []

/-- The last `count` bytes of a number, highest first. -/
def bytes (n : Nat) : Nat → List UInt8
  | 0 => []
  | count + 1 => UInt8.ofNat (n / Nat.pow 256 count) :: bytes n count

/-- A set bit, zeros, and the length in bits make whole blocks of a message. -/
def pad (message : List UInt8) : List UInt8 :=
  let n := message.length
  message ++ 0x80 :: List.replicate ((119 - n % 64) % 64) 0 ++ bytes (8 * n) 8

/-- Folds sixteen words at a time; `count` blocks are left. -/
def fold : Nat → List UInt32 → State → State
  | 0, _, s => s
  | count + 1, ws, s => fold count (ws.drop 16) (s.add (rounds constants (ws.take 16) s))

def hash (message : List UInt8) : State :=
  let ws := words (pad message)
  fold (ws.length / 16) ws .initial

theorem length_bytes (n count : Nat) : (bytes n count).length = count := by
  induction count with
  | zero => rfl
  | succ k ih => simp [bytes, ih]

/-- A padded message fills whole blocks. -/
theorem length_pad_mod (message : List UInt8) : (pad message).length % 64 = 0 := by
  simp only [pad, List.length_append, List.length_cons, List.length_replicate, length_bytes]
  omega

end LiveTemplate.Digest

namespace LiveTemplate.Fingerprint

/-- A list in brackets. -/
def bracket (items : List (List Char)) : List Char :=
  '[' :: (List.intercalate [','] items) ++ [']']

def quoted (s : String) : List Char := '\x22' :: Text.Quoted.encode s.toList ++ ['\x22']

/-- The text that is digested: the static texts, then the kind and source of each hole. -/
def text (statics : List String) (parts : List (String × String)) : List Char :=
  bracket [bracket (statics.map quoted),
    bracket (parts.map fun p => bracket [quoted p.1, quoted p.2])]

/-- Eight hexadecimal digits. -/
def hex8 (w : UInt32) : List Char :=
  Text.Quoted.hex4 (w.toNat / 65536) ++ Text.Quoted.hex4 (w.toNat % 65536)

/-- The first sixteen hexadecimal digits of the digest. -/
def of (statics : List String) (parts : List (String × String)) : String :=
  let state := Digest.hash (String.ofList (text statics parts)).toUTF8.toList
  String.ofList (hex8 state.a ++ hex8 state.b)

end LiveTemplate.Fingerprint
