import ShaderLink.Text.Basic

/-!
# Reading files in pieces

A file of text can be read in pieces of 4096 characters each.  Bytes are fetched when the characters
that were fetched before do not make up the next piece, many at a time; bytes that do not stand for
characters are noticed when they are fetched.
-/

namespace ShaderLink

/-! ## Decoding -/

/-- What is known between two bytes: the ranges of the bytes that are still missing from a character,
the bits of those it has, and whether a carriage return came last, which may be the first half of a
line end. -/
structure Decoder where
  missing : List (Nat × Nat) := []
  bits : Nat := 0
  holdsReturn : Bool := false
deriving DecidableEq, Repr

namespace Decoder

/-- Bytes behind the first one of a character. -/
def later : Nat × Nat := (0x80, 0xBF)

/-- What the first byte of a character says: the ranges of the bytes behind it, and its bits. -/
def first (b : Nat) : Option (List (Nat × Nat) × Nat) :=
  if b < 0x80 then some ([], b)
  else if 0xC2 ≤ b && b ≤ 0xDF then some ([later], b - 0xC0)
  else if b = 0xE0 then some ([(0xA0, 0xBF), later], 0)
  else if b = 0xED then some ([(0x80, 0x9F), later], 0xD)
  else if 0xE1 ≤ b && b ≤ 0xEF then some ([later, later], b - 0xE0)
  else if b = 0xF0 then some ([(0x90, 0xBF), later, later], 0)
  else if 0xF1 ≤ b && b ≤ 0xF3 then some ([later, later, later], b - 0xF0)
  else if b = 0xF4 then some ([(0x80, 0x8F), later, later], 4)
  else none

/-- Adds bytes of a character; when it is complete, so is a line end that was held back. -/
def extend (d : Decoder) (missing : List (Nat × Nat)) (bits : Nat) : Decoder × Text :=
  if missing.isEmpty then
    let c := Char.ofNat bits
    let held := if d.holdsReturn && c != '\n' then ['\n'] else []
    if c = '\r' then ({ holdsReturn := true }, held) else ({}, held ++ [c])
  else ({ d with missing, bits }, [])

/-- Takes one byte, and gives the characters that are complete with it. -/
def step (d : Decoder) (b : Nat) : Option (Decoder × Text) :=
  match d.missing with
  | [] => (first b).map fun f => d.extend f.1 f.2
  | (low, high) :: missing =>
    if low ≤ b && b ≤ high then some (d.extend missing (d.bits * 64 + (b - 0x80))) else none

/-- Takes several bytes; the characters are gathered with the last one in front. -/
def run : Decoder → (gathered : Text) → List UInt8 → Option (Decoder × Text)
  | d, gathered, [] => some (d, gathered.reverse)
  | d, gathered, b :: bytes =>
    match d.step b.toNat with
    | none => none
    | some (d, t) => run d (t.reverse ++ gathered) bytes

/-- What is left at the end, where no character may be cut off. -/
def finish (d : Decoder) : Option Text :=
  if d.missing.isEmpty then some (if d.holdsReturn then ['\n'] else []) else none

end Decoder

/-! ## Pieces -/

/-- The state of reading: the bytes that were not fetched, the characters that were fetched but are
not part of a piece yet, and the numbers of bytes and characters of the last fetch. -/
structure Stream where
  bytes : List UInt8
  decoder : Decoder := {}
  waiting : Text := []
  lastFetch : Nat × Nat := (0, 0)

namespace Stream

/-- The number of characters in a piece. -/
def pieceLength : Nat := 4096

/-- The least number of bytes that are fetched together. -/
def fetchLength : Nat := 8192

/-- How many bytes to fetch: those that the rest of the piece takes if its characters are like those
that were fetched last, and no fewer than `fetchLength`. -/
def fetchSize (s : Stream) : Nat :=
  max fetchLength ((pieceLength - s.waiting.length) * s.lastFetch.1 / s.lastFetch.2)

/-- Fetches bytes; nothing if they do not stand for characters. -/
def fetch (s : Stream) : Option Stream := do
  let n := s.fetchSize
  let bytes := s.bytes.take n
  let (decoder, t) ← s.decoder.run [] bytes
  return {
    bytes := s.bytes.drop n
    decoder
    waiting := s.waiting ++ t
    lastFetch := (bytes.length, t.length) }

/-- The next piece, which is shorter than others if it is the last one; nothing if the bytes that
were fetched for it do not stand for characters. -/
def piece : (fuel : Nat) → Stream → Option (Text × Stream)
  | 0, _ => none
  | fuel + 1, s =>
    if pieceLength ≤ s.waiting.length then
      some (s.waiting.take pieceLength, { s with waiting := s.waiting.drop pieceLength })
    else if s.bytes.isEmpty then
      s.decoder.finish.map fun t => (s.waiting ++ t, { bytes := [] })
    else s.fetch.bind (piece fuel)

/-- The pieces in their order, and whether they end because the next one cannot be read. -/
def pieces : (fuel : Nat) → Stream → List Text × Bool
  | 0, _ => ([], false)
  | fuel + 1, s =>
    match s.piece (s.bytes.length + 1) with
    | none => ([], true)
    | some ([], _) => ([], false)
    | some (t, s) =>
      let (ts, isCut) := pieces fuel s
      (t :: ts, isCut)

/-- The pieces of a file with the given bytes, each of which has at least one byte. -/
def piecesOf (bytes : ByteArray) : List Text × Bool :=
  pieces (bytes.size + 1) { bytes := bytes.toList }

end Stream

end ShaderLink
