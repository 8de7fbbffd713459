import Clausal.Parameter

/-! The store of one branch: a cell for each logical variable. Cells that were made one carry parent
links which lead to the oldest of them, the representative, and only the representative's type,
value and aliases count. Scopes nest, so an enclosing scope sees older cells only, and a scope
that closes is forgotten by cutting the store back to its length at the time the scope opened. -/
namespace Clausal

/-- A parameter that denotes a cell, and the depth of the scope that introduced it. -/
structure Alias where
  parameter : Actual
  depth : Nat

/-- One logical variable. A representative is its own parent. -/
structure Cell where
  parent : Nat
  ty : Ty
  value : Option Value
  aliases : List Alias

/-- The type that a cell had before it was narrowed. -/
structure Narrowing where
  cell : Nat
  ty : Ty
deriving DecidableEq

/-- How far the store had grown when a scope opened. -/
structure Mark where
  cells : Nat
  narrowings : Nat
deriving DecidableEq

/-- Cells are addressed by position. Narrowings stand newest first. -/
structure Store where
  cells : Array Cell
  narrowings : List Narrowing

namespace Alias

/-- Appends an alias unless its parameter is there already, at whatever depth. -/
def add (aliases : List Alias) (a : Alias) : List Alias :=
  if aliases.any fun b => b.parameter.id = a.parameter.id then aliases else aliases ++ [a]

/-- Appends those of the younger list whose parameters the older one lacks. -/
def join (older younger : List Alias) : List Alias := younger.foldl add older

end Alias

namespace Store

def empty : Store := ⟨#[], []⟩

def mark (s : Store) : Mark := ⟨s.cells.size, s.narrowings.length⟩

/-- The representative of a cell's class, at the end of its parent links. Links lead to older
cells, so there is an end. -/
def find (s : Store) (c : Nat) : Nat :=
  match s.cells[c]? with
  | some cell => if cell.parent < c then s.find cell.parent else c
  | none => c
termination_by c

def root? (s : Store) (c : Nat) : Option Cell := s.cells[s.find c]?

def value (s : Store) (c : Nat) : Option Value := (s.root? c).bind Cell.value

/-- The type of a cell's class. Outside the store nothing is known, so anything goes. -/
def ty (s : Store) (c : Nat) : Ty := ((s.root? c).map Cell.ty).getD .any

def entries (s : Store) (c : Nat) : List Alias := ((s.root? c).map Cell.aliases).getD []

def aliases (s : Store) (c : Nat) : List Actual := (s.entries c).map Alias.parameter

def modify (s : Store) (c : Nat) (f : Cell → Cell) : Store :=
  { s with cells := s.cells.modify c f }

def allocate (s : Store) (ty : Ty) : Nat × Store :=
  (s.cells.size, { s with cells := s.cells.push ⟨s.cells.size, ty, none, []⟩ })

/-- A new cell for an actual: the actual is its alias, and the value of an input its value. Made one thing after the
other it is the same, and none of that is ever refused (`allocateInSteps_eq`). -/
def allocateFor (s : Store) (a : Actual) (depth : Nat) : Nat × Store :=
  (s.cells.size, { s with cells := s.cells.push ⟨s.cells.size, a.ty, a.value, [⟨a, depth⟩]⟩ })

def addAlias (s : Store) (c : Nat) (a : Actual) (depth : Nat) : Store :=
  s.modify (s.find c) fun cell => { cell with aliases := Alias.add cell.aliases ⟨a, depth⟩ }

def compress (s : Store) (c : Nat) : Store :=
  s.modify c fun cell => { cell with parent := s.find c }

def restore (cells : Array Cell) (n : Narrowing) : Array Cell :=
  cells.modify n.cell fun cell => { cell with ty := n.ty }

/-- Forgets the cells made since the mark and the aliases of this depth or deeper, and undoes the
narrowings made since the mark, newest first. -/
def closeScope (s : Store) (depth : Nat) (m : Mark) : Store :=
  let kept := (s.cells.take m.cells).map fun cell =>
    { cell with aliases := cell.aliases.filter fun a => a.depth < depth }
  let undone := s.narrowings.length - m.narrowings
  { cells := (s.narrowings.take undone).foldl restore kept
    narrowings := s.narrowings.drop undone }

end Store
end Clausal
