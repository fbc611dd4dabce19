import CellMachine.Call.Native

/-!
# Streams

The host gives the machine a stream for its output, one for its errors, and one to read from.  What
becomes of a text that is written is up to the host: a stream may fill up, break off within a text,
or refuse one text and take the next, and both streams may lead to the same place.  So what the
machine writes to is given by the bytes taken so far, and by how the host receives a text after
whatever else is asked of the two streams from now on (`Console`).
-/

namespace CellMachine

/-! ## Streams to write to -/

/-- The streams that the machine writes to. -/
inductive Outlet where
  | output
  | errors

/-- What the machine asks of them. -/
inductive Demand where
  | write (outlet : Outlet) (text : String)
  | flush (outlet : Outlet)

/-- What becomes of a text: all of it is taken, or only some of its first bytes, for a reason. -/
inductive Reception where
  | whole
  | cut (bytes : Nat) (reason : String)

namespace Reception

/-- The bytes of a text that are taken. -/
def taken (text : String) : Reception → ByteArray
  | whole => text.toUTF8
  | cut bytes _ => text.toUTF8.extract 0 bytes

def refusal : Reception → Option String
  | whole => none
  | cut _ reason => some reason

end Reception

/-- What a machine writes to. -/
structure Console where
  /-- The bytes that the output stream has taken, the oldest first. -/
  output : ByteArray
  /-- The bytes that the error stream has taken. -/
  errors : ByteArray
  /-- How a text is received, by what is asked of both streams before that from now on. -/
  receive : List Demand → Outlet → String → Reception

namespace Console

/-- Some streams may be closed, and then refuse every text but the empty one, for the reason that
they were closed for.  An open one takes everything. -/
def ofClosed (closed : Outlet → Option String) : Console where
  output := .empty
  errors := .empty
  receive _ outlet text :=
    match closed outlet with
    | some reason => if text.isEmpty then .whole else .cut 0 reason
    | none => .whole

/-- Streams that take everything. -/
def fresh : Console := ofClosed fun _ => none

/-- Streams that share a state.  The state says how a text is received, and which state comes after
that or after a flush. -/
def ofState {σ : Type} (receive : σ → Outlet → String → Reception × σ) (flush : σ → Outlet → σ)
    (output errors : ByteArray) (state : σ) : Console where
  output := output
  errors := errors
  receive earlier outlet text :=
    let next (state : σ) : Demand → σ
      | .write outlet text => (receive state outlet text).2
      | .flush outlet => flush state outlet
    (receive (earlier.foldl next state) outlet text).1

/-- Bytes are taken from a stream. -/
def take (c : Console) (outlet : Outlet) (bytes : ByteArray) : Console :=
  match outlet with
  | .output => { c with output := c.output ++ bytes }
  | .errors => { c with errors := c.errors ++ bytes }

/-- Something has been asked of a stream. -/
def hear (c : Console) (demand : Demand) : Console :=
  { c with receive := fun earlier => c.receive (demand :: earlier) }

/-- Write a text; the answer is the reason if not all of it is taken. -/
def write (c : Console) (outlet : Outlet) (text : String) : Option String × Console :=
  let reception := c.receive [] outlet text
  (reception.refusal, (c.take outlet (reception.taken text)).hear (.write outlet text))

/-- Write texts one after the other until one is not taken as a whole. -/
def writeAll (c : Console) (outlet : Outlet) : List String → Option String × Console
  | [] => (none, c)
  | text :: rest =>
    match c.write outlet text with
    | (none, c) => c.writeAll outlet rest
    | (some reason, c) => (some reason, c)

def flush (c : Console) (outlet : Outlet) : Console := c.hear (.flush outlet)

section OfState

variable {σ : Type} (receive : σ → Outlet → String → Reception × σ) (flush : σ → Outlet → σ)
  (output errors : ByteArray) (state : σ)

theorem write_ofState (text : String) :
    (ofState receive flush output errors state).write .output text =
      ((receive state .output text).1.refusal,
        ofState receive flush (output ++ (receive state .output text).1.taken text) errors
          (receive state .output text).2) := rfl

theorem flush_ofState (outlet : Outlet) :
    (ofState receive flush output errors state).flush outlet =
      ofState receive flush output errors (flush state outlet) := rfl

end OfState

end Console

/-! ## Lines to read -/

/-- The bytes up to and including the first line end, and the rest. -/
def cutLine : List UInt8 → List UInt8 × List UInt8
  | [] => ([], [])
  | b :: rest =>
    if b = 10 then ([b], rest)
    else
      let (line, more) := cutLine rest
      (b :: line, more)

/-- Drop the line end characters at the end of a text. -/
def dropLineEnd (text : String) : String :=
  String.ofList (text.toList.reverse.dropWhile fun c => c == '\r' || c == '\n').reverse

/-- Read one line of UTF-8 from the front of some bytes. -/
def takeLine (bytes : List UInt8) : LineRead × List UInt8 :=
  match bytes with
  | [] => (.endOfInput, [])
  | bytes =>
    let (line, rest) := cutLine bytes
    match String.fromUTF8? ⟨line.toArray⟩ with
    | some text => (.line (dropLineEnd text), rest)
    | none => (.malformed, rest)

end CellMachine
