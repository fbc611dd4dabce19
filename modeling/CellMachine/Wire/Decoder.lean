import CellMachine.Cell.Sequence
import CellMachine.Wire.Writer

/-!
# Reading cells from bytes

Decoding accepts exactly one cell and nothing behind it.  Limits on nesting, list lengths and
string lengths bound what malformed bytes can ask for.  Integer groups need not be the shortest,
fractions need not be reduced, and the element type of a list may be narrower than what its
items merge to; the decoded cell is put in order all the same.
-/

namespace CellMachine
namespace Wire

/-- The greatest nesting of lists and of list types; a cell by itself has nesting zero. -/
def maxDepth : Nat := 64

/-- The greatest number of items of one list. -/
def maxListLength : Nat := 1000000

/-- The greatest number of bytes of one string. -/
def maxStringLength : Nat := 16 * 1024 * 1024

/-- Why bytes are no cell. -/
inductive DecodeError where
  | read (cause : ReadError)
  | unknownTag (byte : UInt8)
  | unknownTypeTag (byte : UInt8)
  | unknownStream (byte : UInt8)
  | invalidRational (num den : Int64)
  | listTooLong (length : Nat)
  | tooDeep
  | list (cause : ListError)
  | trailingBytes (count : Nat)
  deriving DecidableEq

def DecodeError.message : DecodeError → String
  | read cause => "malformed input: " ++ cause.message
  | unknownTag byte => "unknown cell tag 0x" ++ hexByte byte
  | unknownTypeTag byte => "unknown type tag 0x" ++ hexByte byte
  | unknownStream byte => "unknown stream kind " ++ Integer.renderNat byte.toNat
  | invalidRational num den =>
    "invalid rational " ++ Integer.render num ++ "/" ++ Integer.render den
  | listTooLong length => "list length " ++ Integer.renderNat length ++ " exceeds limit"
  | tooDeep => "nesting deeper than " ++ Integer.renderNat maxDepth
  | list cause => cause.message
  | trailingBytes count => Integer.renderNat count ++ " trailing bytes after cell"

/-- A decoded value with the bytes behind it. -/
abbrev Decoded (α : Type) := Except DecodeError (α × List UInt8)

/-- Go on with a value that was read. -/
def following {α β : Type} (read : Read α) (next : α → List UInt8 → Decoded β) : Decoded β :=
  match read with
  | (.ok value, rest) => next value rest
  | (.error cause, _) => .error (.read cause)

/-- Go on with a value that was decoded. -/
def andThen {α β : Type} (decoded : Decoded α) (next : α → List UInt8 → Decoded β) : Decoded β :=
  match decoded with
  | .ok (value, rest) => next value rest
  | .error e => .error e

/-- Decode a type with the given number of levels left for it. -/
def decodeType : Nat → List UInt8 → Decoded CellType
  | 0, _ => .error .tooDeep
  | levels + 1, bytes =>
    following (byte bytes) fun tag rest =>
      match tag with
      | 0x00 => .ok (.undetermined, rest)
      | 0x01 => .ok (.any, rest)
      | 0x02 => .ok (.number, rest)
      | 0x03 => .ok (.boolean, rest)
      | 0x04 => .ok (.integer, rest)
      | 0x05 => .ok (.float, rest)
      | 0x06 => .ok (.rational, rest)
      | 0x07 => .ok (.text, rest)
      | 0x08 => andThen (decodeType levels rest) fun element rest => .ok (.list element, rest)
      | 0x09 => .ok (.reference, rest)
      | 0x0A => following (string maxStringLength rest) fun name rest => .ok (.handle name, rest)
      | 0x0B => .ok (.error, rest)
      | 0x0C => .ok (.null, rest)
      | 0x0D => .ok (.input, rest)
      | 0x0E => .ok (.output, rest)
      | other => .error (.unknownTypeTag other)

/-- Decode `count` items with the given decoder and append them to a list, of which the tag and
the items read so far, the last first, are given. -/
def decodeItems (decode : List UInt8 → Decoded Cell) :
    Nat → CellType → List Cell → List UInt8 → Decoded CellList
  | 0, element, done, bytes => .ok (⟨element, done.reverse⟩, bytes)
  | count + 1, element, done, bytes =>
    andThen (decode bytes) fun cell rest =>
      match element.absorb cell with
      | .error cause => .error (.list cause)
      | .ok merged => decodeItems decode count merged (cell :: done) rest

/-- Decode the stream of a stream cell. -/
def decodeStream (bytes : List UInt8) : Decoded Cell :=
  following (byte bytes) fun kind rest =>
    match kind with
    | 0 => .ok (.stream .input, rest)
    | 1 => .ok (.stream .output, rest)
    | 2 => .ok (.stream .discard, rest)
    | other => .error (.unknownStream other)

/-- Decode the two parts of a rational cell. -/
def decodeRational (bytes : List UInt8) : Decoded Cell :=
  following (signed bytes) fun num rest =>
    following (signed rest) fun den rest =>
      match Rational.make? num den with
      | some q => .ok (.rational q, rest)
      | none => .error (.invalidRational num den)

/-- Decode a cell with the given number of levels left for it. -/
def decodeCell : Nat → List UInt8 → Decoded Cell
  | 0, _ => .error .tooDeep
  | levels + 1, bytes =>
    following (byte bytes) fun tag rest =>
      match tag with
      | Tag.boolean => following (boolean rest) fun b rest => .ok (.boolean b, rest)
      | Tag.integer => following (signed rest) fun i rest => .ok (.integer i, rest)
      | Tag.float => following (float rest) fun x rest => .ok (.float x, rest)
      | Tag.rational => decodeRational rest
      | Tag.text => following (string maxStringLength rest) fun s rest => .ok (.text s, rest)
      | Tag.list =>
        andThen (decodeType levels rest) fun element rest =>
          following (unsigned rest) fun count rest =>
            if maxListLength < count.toNat then .error (.listTooLong count.toNat)
            else
              andThen (decodeItems (decodeCell levels) count.toNat element [] rest) fun list rest =>
                .ok (list.toCell, rest)
      | Tag.reference =>
        following (string maxStringLength rest) fun s rest => .ok (.reference s, rest)
      | Tag.error => following (string maxStringLength rest) fun s rest => .ok (.error s, rest)
      | Tag.null =>
        andThen (decodeType levels rest) fun placeholder rest => .ok (.null placeholder, rest)
      | Tag.stream => decodeStream rest
      | other => .error (.unknownTag other)

/-- Decode exactly one cell. -/
def decode (bytes : List UInt8) : Except DecodeError Cell :=
  match decodeCell (maxDepth + 1) bytes with
  | .error e => .error e
  | .ok (cell, []) => .ok cell
  | .ok (_, rest) => .error (.trailingBytes rest.length)

end Wire
end CellMachine
