import Clausal.View

/-! Answers: what a completed branch says about the arguments of the query. An answer is a snapshot
with one entry for each argument, in call order. -/
namespace Clausal

/-- The final state of one argument. The type is the binding's and may be narrower than the
argument's own; the aliases are the other arguments that denote the same variable. -/
structure Answer.Entry where
  parameter : Actual
  ty : Ty
  value : Option Value
  aliases : List Actual
deriving DecidableEq

structure Answer where
  entries : List Answer.Entry
deriving DecidableEq

namespace Answer

namespace Entry

def isBound (e : Entry) : Bool := e.value.isSome

def get (e : Entry) (ty : Ty) : Except Error Value :=
  match e.value with
  | some v => ty.ensure v
  | none => .error (.unbound e.parameter.text)

/-- Agreement on the argument, its state and its aliases. -/
def same (a b : Entry) : Bool :=
  a.parameter.id = b.parameter.id ∧ a.ty = b.ty ∧ a.value = b.value ∧
    a.aliases.map Actual.id = b.aliases.map Actual.id

end Entry

/-- The arguments other than `slot` that share its class. -/
def aliasesOf (e : Env) (slots : List Slot) (slot : Slot) : List Actual :=
  let sharing := slots.filter fun other =>
    other.parameter.id ≠ slot.parameter.id ∧ e.store.find other.cell = e.store.find slot.cell
  Actual.distinct (sharing.map Slot.parameter)

def ofEnv (e : Env) : Answer where
  entries := e.queryArguments.map fun slot =>
    { parameter := slot.parameter
      ty := e.store.ty slot.cell
      value := e.store.value slot.cell
      aliases := aliasesOf e e.queryArguments slot }

def length (a : Answer) : Nat := a.entries.length

def get? (a : Answer) (index : Nat) : Option Entry := a.entries[index]?

def getAt (a : Answer) (index : Nat) : Except Crash Entry :=
  match a.get? index with
  | some e => .ok e
  | none => .error (.outOfBounds a.length index)

/-- The entry of the argument called `name`. Two arguments of that name must be one. -/
def named (a : Answer) (name : String) : Except Error Entry :=
  match a.entries.filter fun e => e.parameter.name = some name with
  | [] => .error (.unknownParameter name)
  | e :: rest =>
    if rest.all fun other => other.parameter.id = e.parameter.id then .ok e
    else .error (.ambiguousParameter name)

def ofParameter (a : Answer) (p : Actual) : Option Entry :=
  a.entries.find? fun e => e.parameter.id = p.id

def same (a b : Answer) : Bool :=
  a.entries.length = b.entries.length ∧ (a.entries.zip b.entries).all fun p => p.1.same p.2

end Answer
end Clausal
