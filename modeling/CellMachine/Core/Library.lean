import CellMachine.Core.Comparison
import CellMachine.Machine.Run
import CellMachine.Signature.Literal

/-!
# The core library

The functions behind the operators, each with the signatures it is registered under.  They are
native functions like any others; failures such as a division by zero come back as error cells.
-/

namespace CellMachine

/-- The functions of the core library. -/
inductive CoreFunction where
  | plus
  | minus
  | times
  | divide
  | power
  | integerDivide
  | modulus
  | negate
  | equal
  | notEqual
  | less
  | greater
  | lessEqual
  | greaterEqual
  | and
  | or
  | not
  | concat
  | length
  | nthElement
  | nthChar
  | assign
  | write
  | read
  deriving DecidableEq

namespace Core

/-! ## Texts and lists -/

def outOfRange : Cell := .error "Error: Subscript out of range"

/-- The number of items of a list or of characters of a text. -/
def length : Cell → Cell
  | .list _ items => .integer (Int64.ofNat items.length)
  | .text s => .integer (Int64.ofNat s.length)
  | _ => .error "Error: Text or list operand expected"

/-- A position counted from one as an index counted from zero. -/
def index? (n : Int64) : Option Nat := if 1 ≤ n.toInt then some (n.toInt - 1).toNat else none

def nthElement (a n : Cell) : Cell :=
  match a, n.asInteger?.bind index? with
  | .list _ items, some index => items[index]?.getD outOfRange
  | _, _ => outOfRange

def nthChar (a n : Cell) : Cell :=
  match a, n.asInteger?.bind index? with
  | .text s, some index =>
    match s.toList[index]? with
    | some c => .text (String.singleton c)
    | none => outOfRange
  | _, _ => outOfRange

/-- Join two texts or two lists.  Lists whose items cannot share a list are reported. -/
def concat (a b : Cell) (finish : Cell → Native) : Native :=
  match a, b with
  | .text s, .text t => finish (.text (s ++ t))
  | .list _ xs, .list _ ys =>
    match CellList.ofCells (xs ++ ys) with
    | .ok list => finish list.toCell
    | .error _ => .report .mixedListTypes (finish (.error Diagnostic.mixedListTypes.message))
  | _, _ => finish (.error "Error: Text or list operands expected")

/-! ## Assignment and streams -/

/-- Rebind the first argument to the second. -/
def assign (args : Args) : Native :=
  match args.take 1 with
  | (some value, args) => .done value (args.set 0 value)
  | (none, args) => .done (.error "Error: Nothing to assign") args

/-- The text that is written for a cell: a text without its quotes. -/
def written : Cell → String
  | .text s => s
  | other => other.render

/-- Write a cell to a stream and give the stream back. -/
def write (a b : Cell) (finish : Cell → Native) : Native :=
  match a with
  | .stream stream =>
    .write stream (written b) fun refusal =>
      match refusal with
      | none => finish (.stream stream)
      | some reason => finish (.error ("Error: Write failed: " ++ reason))
  | _ => finish (.error "Error: Output stream expected")

/-- Rebind the second argument to the literal on the next input line; a line that is no literal
is taken as a text. -/
def read (args : Args) : Native :=
  .readLine fun
    | .line text =>
      .done (.stream .input) (args.set 1 ((Literal.read? text.toList).getD (.text text)))
    | .endOfInput => .done (.error "Error: End of input") args
    | .malformed => .done (.error "Error: Read failed: stream did not contain valid UTF-8") args

end Core

namespace CoreFunction

/-- An argument that is there by the signatures below. -/
def argument (args : Args) (index : Nat) : Cell := (args.get? index).getD (.null .undetermined)

/-- The functions that compute a result from one or two arguments and do nothing else. -/
def pure? : CoreFunction → Option (Args → Cell)
  | plus => binary Core.plus
  | minus => binary Core.minus
  | times => binary Core.times
  | divide => binary Core.divide
  | power => binary Core.power
  | integerDivide => binary Core.integerDivide
  | modulus => binary Core.modulus
  | negate => unary Core.negate
  | equal => binary Core.equal
  | notEqual => binary Core.notEqual
  | less => binary Core.less
  | greater => binary Core.greater
  | lessEqual => binary Core.lessEqual
  | greaterEqual => binary Core.greaterEqual
  | and => binary Core.conjunction
  | or => binary Core.disjunction
  | not => unary Core.negation
  | length => unary Core.length
  | nthElement => binary Core.nthElement
  | nthChar => binary Core.nthChar
  | concat | assign | write | read => none
where
  unary (f : Cell → Cell) : Option (Args → Cell) := some fun args => f (argument args 0)
  binary (f : Cell → Cell → Cell) : Option (Args → Cell) :=
    some fun args => f (argument args 0) (argument args 1)

/-- A core function as a native function. -/
def resolve (f : CoreFunction) (args : Args) : Native :=
  match f.pure? with
  | some compute => .done (compute args) args
  | none =>
    match f with
    | concat => Core.concat (argument args 0) (argument args 1) fun result => .done result args
    | write => Core.write (argument args 0) (argument args 1) fun result => .done result args
    | read => Core.read args
    | _ => Core.assign args

end CoreFunction

namespace Core

/-- A core overload with its parameters by value. -/
def entry (name : String) (params : List (String × CellType)) (returns : CellType)
    (listable : Bool) (f : CoreFunction) : Overload where
  signature := ⟨name, params.map fun (p, type) => .byValue p type, returns, ⟨listable, false⟩⟩
  body := .native f.resolve

/-- A core overload on two operands of one type. -/
def onTwo (name : String) (type returns : CellType) (listable : Bool) (f : CoreFunction) :
    Overload :=
  entry name [("x", type), ("y", type)] returns listable f

/-- The overloads of the core library in order of registration. -/
def library : List Overload :=
  [ onTwo "Plus" .number .number true .plus,
    onTwo "Plus" .text .text false .plus,
    onTwo "Minus" .number .number true .minus,
    onTwo "Times" .number .number true .times,
    onTwo "Divide" .number .number true .divide,
    onTwo "Power" .number .number true .power,
    onTwo "IntegerDivide" .integer .integer true .integerDivide,
    onTwo "Modulus" .integer .integer true .modulus,
    entry "Negate" [("x", .number)] .number true .negate,
    onTwo "Equal" .any .boolean false .equal,
    onTwo "NotEqual" .any .boolean false .notEqual,
    onTwo "Less" .number .boolean true .less,
    onTwo "Less" .text .boolean false .less,
    onTwo "Greater" .number .boolean true .greater,
    onTwo "Greater" .text .boolean false .greater,
    onTwo "LessEqual" .number .boolean true .lessEqual,
    onTwo "LessEqual" .text .boolean false .lessEqual,
    onTwo "GreaterEqual" .number .boolean true .greaterEqual,
    onTwo "GreaterEqual" .text .boolean false .greaterEqual,
    onTwo "And" .boolean .boolean true .and,
    onTwo "Or" .boolean .boolean true .or,
    entry "Not" [("x", .boolean)] .boolean true .not,
    onTwo "Concat" .text .text false .concat,
    onTwo "Concat" (.list .any) (.list .any) false .concat,
    entry "Length" [("list", .list .any)] .integer false .length,
    entry "Length" [("text", .text)] .integer false .length,
    entry "NthElement" [("list", .list .any), ("n", .integer)] .any false .nthElement,
    entry "NthChar" [("text", .text), ("n", .integer)] .text false .nthChar,
    { signature := ⟨"Assign", [.byReference "x" .any, .byValue "y" .any], .any, .plain⟩
      body := .native CoreFunction.assign.resolve },
    entry "Write" [("output", .output), ("x", .any)] .output false .write,
    { signature := ⟨"Read", [.byValue "input" .input, .byReference "x" .any], .input, .plain⟩
      body := .native CoreFunction.read.resolve } ]

end Core

/-- A machine with the core library. -/
def Machine.withCore (m : Machine) : Machine := (m.addFunctions Core.library).2

end CellMachine
