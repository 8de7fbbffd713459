import Clausal.Env

/-! What a callback may see of an environment: the bindings of the innermost scope, by name or by
reference, and nothing else. -/
namespace Clausal

/-- The binding of one reference. The label names it in errors. -/
structure Binding where
  label : String
  ty : Ty
  value : Option Value
  aliases : List Actual

structure View where
  named : String → Except Error Binding
  referred : Param → Except Error Binding

namespace Binding

def isBound (b : Binding) : Bool := b.value.isSome

def read (b : Binding) : Except Error Value :=
  match b.value with
  | some v => .ok v
  | none => .error (.unbound b.label)

def get (b : Binding) (ty : Ty) : Except Error Value := do
  ty.ensure (← b.read)

end Binding

namespace View

def blank : View where
  named := fun name => .error (.unknownParameter name)
  referred := fun p => .error (.unknownParameter p.text)

end View

namespace Env

def binding (e : Env) (label : String) (r : Resolved) : Binding where
  label := label
  ty := r.ty
  value := e.store.value r.slot.cell
  aliases := e.store.aliases r.slot.cell

def view (e : Env) : View where
  named := fun name => do
    return e.binding name (← e.lookupName name)
  referred := fun p => do
    match ← e.lookup p with
    | some r => return e.binding p.text r
    | none => throw (.unknownParameter p.text)

end Env
end Clausal
