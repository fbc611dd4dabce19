import CellMachine.Cell.Basic

/-!
# Arguments of a running function

A function sees its arguments in the order of its signature.  It may rebind them; a rebound
argument that was passed by reference is written back to the caller's variable afterwards.
-/

namespace CellMachine

/-- One argument and whether the function has rebound it. -/
structure Arg where
  cell : Cell
  rebound : Bool

/-- The arguments in signature order. -/
structure Args where
  entries : List Arg

namespace Args

def ofCells (cells : List Cell) : Args :=
  ⟨cells.map fun cell => ⟨cell, false⟩⟩

def cells (args : Args) : List Cell := args.entries.map Arg.cell

def size (args : Args) : Nat := args.entries.length

def get? (args : Args) (index : Nat) : Option Cell :=
  args.entries[index]?.map Arg.cell

/-- Move an argument out; an undetermined null stays behind. -/
def take (args : Args) (index : Nat) : Option Cell × Args :=
  (args.get? index,
    ⟨args.entries.modify index fun entry => { entry with cell := .null .undetermined }⟩)

/-- Rebind an argument; there is no effect beyond the last one. -/
def set (args : Args) (index : Nat) (cell : Cell) : Args :=
  ⟨args.entries.modify index fun _ => ⟨cell, true⟩⟩

def isRebound (args : Args) (index : Nat) : Bool :=
  (args.entries[index]?.map Arg.rebound).getD false

@[simp] theorem cells_ofCells (cells : List Cell) : (ofCells cells).cells = cells := by
  simp [ofCells, Args.cells, List.map_map, Function.comp_def]

@[simp] theorem size_set (args : Args) (index : Nat) (cell : Cell) :
    (args.set index cell).size = args.size := by
  simp [set, size]

end Args
end CellMachine
