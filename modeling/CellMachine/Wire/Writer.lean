import CellMachine.Cell.Basic
import CellMachine.Wire.Reader

/-!
# Writing cells as bytes

A cell is a tag byte and its payload.  A list carries its element type, its length and its items
in order.  Handles stand for live objects and have no written form.
-/

namespace CellMachine
namespace Wire

/-! ## Variable-length integers -/

/-- The shortest group of bytes for a natural number. -/
def putUnsigned (n : Nat) : List UInt8 :=
  if n < 128 then [UInt8.ofNat n]
  else UInt8.ofNat (n % 128 + 128) :: putUnsigned (n / 128)
termination_by n
decreasing_by omega

/-- The shortest group of bytes for an integer: it ends when what is left repeats bit six of
the last byte. -/
def putSigned (z : Int) : List UInt8 :=
  let low := z % 128
  let rest := z / 128
  if (rest = 0 ∧ low < 64) ∨ (rest = -1 ∧ 64 ≤ low) then [UInt8.ofNat low.toNat]
  else UInt8.ofNat (low.toNat + 128) :: putSigned rest
termination_by (if 0 ≤ z then z else -z - 1).toNat
decreasing_by
  split <;> split <;> omega

def putInteger (i : Int64) : List UInt8 := putSigned i.toInt

def putBoolean (b : Bool) : List UInt8 := [if b then 1 else 0]

/-- The lowest `count` bytes of a number, the least significant first. -/
def putLittleEndian : Nat → Nat → List UInt8
  | 0, _ => []
  | count + 1, n => UInt8.ofNat (n % 256) :: putLittleEndian count (n / 256)

def putFloat (x : Binary64) : List UInt8 := putLittleEndian 8 x.bits.toNat

/-- The length in bytes and the UTF-8 bytes of a text. -/
def putString (s : String) : List UInt8 :=
  let bytes := s.toUTF8.data.toList
  putUnsigned bytes.length ++ bytes

/-! ## Tags -/

namespace Tag

@[match_pattern] abbrev boolean : UInt8 := 0x01
@[match_pattern] abbrev integer : UInt8 := 0x02
@[match_pattern] abbrev float : UInt8 := 0x03
@[match_pattern] abbrev rational : UInt8 := 0x04
@[match_pattern] abbrev text : UInt8 := 0x05
@[match_pattern] abbrev list : UInt8 := 0x06
@[match_pattern] abbrev reference : UInt8 := 0x07
@[match_pattern] abbrev error : UInt8 := 0x08
@[match_pattern] abbrev null : UInt8 := 0x09
@[match_pattern] abbrev stream : UInt8 := 0x0A

end Tag

/-- The byte of a stream. -/
def streamByte : Stream → UInt8
  | .input => 0
  | .output => 1
  | .discard => 2

/-- A type: its byte, followed by the element type of a list or the name of a handle type. -/
def putType : CellType → List UInt8
  | .undetermined => [0x00]
  | .any => [0x01]
  | .number => [0x02]
  | .boolean => [0x03]
  | .integer => [0x04]
  | .float => [0x05]
  | .rational => [0x06]
  | .text => [0x07]
  | .list element => 0x08 :: putType element
  | .reference => [0x09]
  | .handle name => 0x0A :: putString name
  | .error => [0x0B]
  | .null => [0x0C]
  | .input => [0x0D]
  | .output => [0x0E]

/-! ## Cells -/

/-- A handle was met; its type is named. -/
structure EncodeError where
  typeName : String
  deriving DecidableEq

def EncodeError.message (e : EncodeError) : String :=
  "cannot encode a handle to a " ++ e.typeName ++ " object"

mutual

/-- The bytes of a cell. -/
def encode : Cell → Except EncodeError (List UInt8)
  | .boolean b => .ok (Tag.boolean :: putBoolean b)
  | .integer i => .ok (Tag.integer :: putInteger i)
  | .float x => .ok (Tag.float :: putFloat x)
  | .rational q => .ok (Tag.rational :: (putInteger q.num ++ putInteger q.den))
  | .text s => .ok (Tag.text :: putString s)
  | .list element items =>
    match encodeAll items with
    | .ok bytes => .ok (Tag.list :: (putType element ++ (putUnsigned items.length ++ bytes)))
    | .error e => .error e
  | .reference name => .ok (Tag.reference :: putString name)
  | .handle object => .error ⟨object.typeName⟩
  | .error message => .ok (Tag.error :: putString message)
  | .null placeholder => .ok (Tag.null :: putType placeholder)
  | .stream s => .ok [Tag.stream, streamByte s]

/-- The bytes of some cells, one after the other. -/
def encodeAll : List Cell → Except EncodeError (List UInt8)
  | [] => .ok []
  | cell :: rest =>
    match encode cell with
    | .error e => .error e
    | .ok front =>
      match encodeAll rest with
      | .error e => .error e
      | .ok back => .ok (front ++ back)

end

end Wire
end CellMachine
