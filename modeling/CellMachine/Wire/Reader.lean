import CellMachine.Number.Binary64

/-!
# Reading bytes

A reader consumes bytes from the front of a list.  Whether it succeeds or fails, it leaves the
bytes it has not consumed, so the position behind a failed read is defined too: a read that
lacks bytes takes none beyond those it had to look at.
-/

namespace CellMachine
namespace Wire

/-- Why a read fails. -/
inductive ReadError where
  | noMoreBytes
  | notEnoughBytes
  | invalidBoolean (byte : UInt8)
  | unsignedOverflow
  | signedOverflow
  | stringTooLong (length limit : Nat)
  | invalidText
  deriving DecidableEq

/-- Two hexadecimal digits of a byte. -/
def hexByte (byte : UInt8) : String :=
  String.ofList [Nat.digitChar (byte.toNat / 16), Nat.digitChar (byte.toNat % 16)]

namespace ReadError

/-- Whether the bytes ended too early; the other errors are about their values. -/
def isEnd : ReadError → Bool
  | noMoreBytes | notEnoughBytes => true
  | _ => false

def message : ReadError → String
  | noMoreBytes => "no more bytes to read"
  | notEnoughBytes => "not enough bytes to read"
  | invalidBoolean byte => "invalid boolean byte 0x" ++ hexByte byte
  | unsignedOverflow => "vu64 overflow"
  | signedOverflow => "vs64 overflow"
  | stringTooLong length limit =>
    "string length " ++ Integer.renderNat length ++ " exceeds limit " ++ Integer.renderNat limit
  | invalidText => "invalid utf-8 sequence"

end ReadError

/-- A value or an error, and the bytes that are left. -/
abbrev Read (α : Type) := Except ReadError α × List UInt8

def byte : List UInt8 → Read UInt8
  | [] => (.error .noMoreBytes, [])
  | b :: rest => (.ok b, rest)

/-- The first `count` elements and the rest, if there are that many. -/
def split? : Nat → List UInt8 → Option (List UInt8 × List UInt8)
  | 0, bytes => some ([], bytes)
  | _ + 1, [] => none
  | count + 1, b :: rest => (split? count rest).map fun (front, back) => (b :: front, back)

/-- Exactly `count` bytes; none is consumed if there are fewer. -/
def exactly (count : Nat) (bytes : List UInt8) : Read (List UInt8) :=
  match split? count bytes with
  | some (front, rest) => (.ok front, rest)
  | none => (.error .notEnoughBytes, bytes)

def boolean (bytes : List UInt8) : Read Bool :=
  match byte bytes with
  | (.error e, rest) => (.error e, rest)
  | (.ok b, rest) =>
    if b = 0 then (.ok false, rest)
    else if b = 1 then (.ok true, rest)
    else (.error (.invalidBoolean b), rest)

/-- The number written by some bytes, the least significant first. -/
def littleEndian : List UInt8 → Nat
  | [] => 0
  | b :: rest => b.toNat + 256 * littleEndian rest

def float (bytes : List UInt8) : Read Binary64 :=
  match exactly 8 bytes with
  | (.ok front, rest) => (.ok ⟨UInt64.ofNat (littleEndian front)⟩, rest)
  | (.error e, rest) => (.error e, rest)

/-! ## Variable-length integers

An integer is a group of bytes with seven bits each, the least significant first; all but the
last have their top bit set. -/

/-- The seven bits that a byte of a group carries. -/
def payload (b : UInt8) : Nat := b.toNat % 128

/-- Whether a byte is followed by another one of its group. -/
def continues (b : UInt8) : Bool := 128 ≤ b.toNat

/-- Read an unsigned group whose next byte stands at bit `shift`.  Bits from the sixty-fourth on
are an overflow, noticed at the byte that has them, and so is any byte from the eleventh on. -/
def unsignedFrom (shift acc : Nat) : List UInt8 → Read UInt64
  | [] => (.error .noMoreBytes, [])
  | b :: rest =>
    if (shift = 63 ∧ 1 < payload b) ∨ 63 < shift then (.error .unsignedOverflow, rest)
    else
      let acc := acc + payload b <<< shift
      if continues b then unsignedFrom (shift + 7) acc rest else (.ok (UInt64.ofNat acc), rest)

def unsigned (bytes : List UInt8) : Read UInt64 := unsignedFrom 0 0 bytes

/-- Read a signed group whose next byte stands at bit `shift`.  The sign is bit six of the last
byte as long as that byte ends below bit sixty-four.  Bits from the sixty-fourth on are dropped;
only an eleventh byte is an overflow. -/
def signedFrom (shift acc : Nat) : List UInt8 → Read Int64
  | [] => (.error .noMoreBytes, [])
  | b :: rest =>
    if 63 < shift then (.error .signedOverflow, rest)
    else
      let acc := acc + payload b <<< shift
      if continues b then signedFrom (shift + 7) acc rest
      else
        let sign : Int := if shift + 7 < 64 ∧ 64 ≤ payload b then (1 <<< (shift + 7) : Nat) else 0
        (.ok (Int64.ofInt (acc - sign)), rest)

def signed (bytes : List UInt8) : Read Int64 := signedFrom 0 0 bytes

/-- The text of some bytes in UTF-8. -/
def decodeText? (bytes : List UInt8) : Option String := String.fromUTF8? ⟨bytes.toArray⟩

/-- A length and that many bytes of UTF-8; a length above the limit is refused. -/
def string (limit : Nat) (bytes : List UInt8) : Read String :=
  match unsigned bytes with
  | (.error e, rest) => (.error e, rest)
  | (.ok length, rest) =>
    if limit < length.toNat then (.error (.stringTooLong length.toNat limit), rest)
    else
      match exactly length.toNat rest with
      | (.error e, rest) => (.error e, rest)
      | (.ok front, rest) =>
        match decodeText? front with
        | some text => (.ok text, rest)
        | none => (.error .invalidText, rest)

end Wire
end CellMachine
