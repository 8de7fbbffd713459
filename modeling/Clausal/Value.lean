/-! Types and ground values. A type is what a slot admits, and `any` admits every value; a value
has the type of its own kind and never `any`. -/
namespace Clausal

inductive Ty where
  | any
  | bool
  | int
  | str
deriving DecidableEq

namespace Ty

def name : Ty → String
  | .any => "any"
  | .bool => "bool"
  | .int => "int"
  | .str => "str"

/-- A slot of type `any` admits all types; any other slot admits its own type alone. -/
def Accepts (slot found : Ty) : Prop := slot = .any ∨ slot = found

instance (slot found : Ty) : Decidable (slot.Accepts found) :=
  inferInstanceAs (Decidable (slot = .any ∨ slot = found))

/-- The narrower of two types that some value inhabits together. -/
def meet : Ty → Ty → Option Ty
  | .any, t => some t
  | s, .any => some s
  | s, t => if s = t then some s else none

def rank : Ty → Nat
  | .any => 0
  | .bool => 1
  | .int => 2
  | .str => 3

instance : Ord Ty := ⟨fun s t => compare s.rank t.rank⟩

end Ty

/-- A ground value. Integers are machine words. -/
inductive Value where
  | bool (b : Bool)
  | int (n : Int64)
  | str (s : String)
deriving DecidableEq

namespace Value

def ty : Value → Ty
  | .bool _ => .bool
  | .int _ => .int
  | .str _ => .str

/-- Inside a quoted string only the quotation mark is escaped. -/
def escape (c : Char) : List Char :=
  if c = '"' then ['\\', '"'] else [c]

def quote (s : String) : String :=
  String.ofList ('"' :: s.toList.flatMap escape ++ ['"'])

def text : Value → String
  | .bool b => toString b
  | .int n => toString n.toInt
  | .str s => quote s

end Value
end Clausal
