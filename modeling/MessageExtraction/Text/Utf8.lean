import MessageExtraction.Text.Basic

namespace MessageExtraction

abbrev Bytes := List UInt8

namespace Utf8

/-- Why a run of bytes is not a character. -/
inductive Defect where
  | badStart
  | badContinuation
  | cutShort
  deriving DecidableEq, Repr

def Defect.message : Defect → String
  | .badStart => "invalid start byte"
  | .badContinuation => "invalid continuation byte"
  | .cutShort => "unexpected end of data"

/-- What a leading byte announces: the bits it brings, how many bytes follow, and the range of the
first of them. -/
structure Lead where
  payload : Nat
  following : Nat
  low : Nat
  high : Nat

def lead? (b : Nat) : Option Lead :=
  if b ≤ 0x7F then some ⟨b, 0, 0x80, 0xBF⟩
  else if b < 0xC2 then none
  else if b ≤ 0xDF then some ⟨b - 0xC0, 1, 0x80, 0xBF⟩
  else if b = 0xE0 then some ⟨0, 2, 0xA0, 0xBF⟩
  else if b = 0xED then some ⟨0xD, 2, 0x80, 0x9F⟩
  else if b ≤ 0xEF then some ⟨b - 0xE0, 2, 0x80, 0xBF⟩
  else if b = 0xF0 then some ⟨0, 3, 0x90, 0xBF⟩
  else if b ≤ 0xF3 then some ⟨b - 0xF0, 3, 0x80, 0xBF⟩
  else if b = 0xF4 then some ⟨4, 3, 0x80, 0x8F⟩
  else none

/-- A character, or a longest run of bytes that begins none. -/
inductive Piece where
  | point (c : CodePoint)
  | defect (reason : Defect) (length : Nat)
  deriving DecidableEq, Repr

/-- Reads the bytes after a leading byte: what they make, and how many of them it takes. -/
def follow (taken : Nat) : (owed low high bits : Nat) → Bytes → Piece × Nat
  | 0, _, _, bits, _ => (.point bits, taken)
  | _ + 1, _, _, _, [] => (.defect .cutShort (taken + 1), taken)
  | owed + 1, low, high, bits, b :: rest =>
    if low ≤ b.toNat ∧ b.toNat ≤ high then
      follow (taken + 1) owed 0x80 0xBF (bits * 64 + b.toNat % 64) rest
    else (.defect .badContinuation (taken + 1), taken)

def piece (b : UInt8) (rest : Bytes) : Piece × Nat :=
  match lead? b.toNat with
  | none => (.defect .badStart 1, 0)
  | some l => follow 0 l.following l.low l.high l.payload rest

def pieces : Bytes → List Piece
  | [] => []
  | b :: rest => (piece b rest).1 :: pieces (rest.drop (piece b rest).2)
termination_by bytes => bytes.length
decreasing_by simp only [List.length_drop, List.length_cons]; omega

/-- Decoding with one replacement character for each defect. -/
def decodeReplacing (bytes : Bytes) : Text :=
  (pieces bytes).map fun
    | .point c => c
    | .defect _ _ => CodePoint.replacement

/-- The first defect of a byte string: where it stands, how many bytes it spans, its first byte. -/
structure DecodeError where
  position : Nat
  length : Nat
  byte : Nat
  reason : Defect
  deriving DecidableEq, Repr

def DecodeError.message (e : DecodeError) : Text :=
  let place : Text :=
    if e.length = 1 then
      ("byte 0x" : Text) ++ Text.padLeft 2 0x30 (Text.ofNatHex e.byte) ++ (" in position " : Text)
        ++ Text.ofNat e.position
    else
      ("bytes in position " : Text) ++ Text.ofNat e.position ++ ("-" : Text)
        ++ Text.ofNat (e.position + e.length - 1)
  ("'utf-8' codec can't decode " : Text) ++ place ++ (": " : Text) ++ Text.ofString e.reason.message

/-- Strict decoding: the first defect, if there is one, is the outcome. -/
def decodeFrom (position : Nat) : Bytes → Except DecodeError Text
  | [] => .ok []
  | b :: rest =>
    match piece b rest with
    | (.defect reason length, _) => .error ⟨position, length, b.toNat, reason⟩
    | (.point c, taken) => do
      return c :: (← decodeFrom (position + taken + 1) (rest.drop taken))
termination_by bytes => bytes.length
decreasing_by simp only [List.length_drop, List.length_cons]; omega

def decode (bytes : Bytes) : Except DecodeError Text := decodeFrom 0 bytes

/-- The bytes of one character; a surrogate has none. -/
def encodePoint? (c : CodePoint) : Option Bytes :=
  let byte (n : Nat) : UInt8 := UInt8.ofNat n
  let tail (n : Nat) : UInt8 := UInt8.ofNat (0x80 + n % 64)
  if c < 0x80 then some [byte c]
  else if c < 0x800 then some [byte (0xC0 + c / 64), tail c]
  else if CodePoint.isSurrogate c then none
  else if c < 0x10000 then some [byte (0xE0 + c / 4096), tail (c / 64), tail c]
  else if c < 0x110000 then
    some [byte (0xF0 + c / 262144), tail (c / 4096), tail (c / 64), tail c]
  else none

/-- The bytes of a text; none if it holds a surrogate. -/
def encode? (t : Text) : Option Bytes := do return (← t.mapM encodePoint?).flatten

end Utf8

end MessageExtraction
