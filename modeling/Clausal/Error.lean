import Clausal.Value

/-! Why a definition is rejected or a resolution is abandoned. A unification or check that does
not hold is not an error: it only ends the branch that needed it. -/
namespace Clausal

inductive CallFault where
  | arityMismatch
  | emptyName
  | other (text : String)
deriving DecidableEq

inductive SignatureFault where
  | emptyName
  | duplicateFormal
  | other (text : String)
deriving DecidableEq

/-- Faults of a goal. `illTyped` names the parameter that can never hold a value of type `found`. -/
inductive GoalFault where
  | illTyped (parameter : String) (expected found : Ty)
  | emptyCallee
  | unbalancedScope
  | other (text : String)
deriving DecidableEq

inductive Error where
  | invalidCall (fault : CallFault)
  | invalidClause (name : String) (fault : SignatureFault)
  | invalidGoal (fault : GoalFault)
  | unknownParameter (name : String)
  | ambiguousParameter (name : String)
  | unbound (name : String)
  | alreadyBound
  | typeMismatch (expected found : Ty)
  | cancelled
deriving DecidableEq

/-- A mistake in host code. No resolution foresees it, and no script can catch it. -/
inductive Crash where
  /-- A body refers to a formal that its clause does not declare. -/
  | undeclared (name : String)
  /-- An answer was read past its last entry. -/
  | outOfBounds (length index : Nat)
deriving DecidableEq

/-- Why a computation stopped: an error ends the resolution, a crash only the branch in progress. -/
inductive Failure where
  | error (e : Error)
  | crash (c : Crash)
deriving DecidableEq

def CallFault.message : CallFault → String
  | .arityMismatch => "arity mismatch"
  | .emptyName => "predicate name must not be empty"
  | .other text => text

def SignatureFault.message : SignatureFault → String
  | .emptyName => "predicate names must not be empty"
  | .duplicateFormal => "duplicate parameter name"
  | .other text => text

def GoalFault.message : GoalFault → String
  | .illTyped parameter expected found =>
    "cannot assign a value of type `" ++ found.name ++ "` to parameter `" ++ parameter ++
      "` of type `" ++ expected.name ++ "`"
  | .emptyCallee => "call to an empty predicate name"
  | .unbalancedScope => "unbalanced end of scope"
  | .other text => text

namespace Error

def message : Error → String
  | .invalidCall fault => "invalid call: " ++ fault.message
  | .invalidClause name fault => "invalid predicate `" ++ name ++ "`: " ++ fault.message
  | .invalidGoal fault => "invalid expression: " ++ fault.message
  | .unknownParameter name => "parameter `" ++ name ++ "` could not be found in scope"
  | .ambiguousParameter name => "parameter `" ++ name ++ "` matches more than one parameter in scope"
  | .unbound name => "parameter `" ++ name ++ "` is not bound to a value"
  | .alreadyBound => "parameter is already bound to a value"
  | .typeMismatch expected found =>
    "cannot assign a value of type `" ++ found.name ++ "` to a parameter of type `" ++ expected.name ++ "`"
  | .cancelled => "resolution was cancelled"

def kind : Error → String
  | .invalidCall _ => "InvalidCall"
  | .invalidClause _ _ => "InvalidPredicate"
  | .invalidGoal _ => "InvalidExpression"
  | .unknownParameter _ => "UnknownParameter"
  | .ambiguousParameter _ => "AmbiguousParameter"
  | .unbound _ => "Unbound"
  | .alreadyBound => "AlreadyBound"
  | .typeMismatch _ _ => "TypeMismatch"
  | .cancelled => "Cancelled"

end Error

def Crash.message : Crash → String
  | .undeclared name => "no declared parameter named `" ++ name ++ "`"
  | .outOfBounds length index =>
    "index out of bounds: the len is " ++ toString length ++ " but the index is " ++ toString index

def Failure.lift {α : Type} (x : Except Error α) : Except Failure α := x.mapError .error

namespace Ty

/-- Refuses a value that a slot of this type does not accept. -/
def ensure (slot : Ty) (v : Value) : Except Error Value :=
  if slot.Accepts v.ty then .ok v else .error (.typeMismatch slot v.ty)

end Ty

namespace Value

def asBool : Value → Except Error Bool
  | .bool b => .ok b
  | v => .error (.typeMismatch .bool v.ty)

def asInt : Value → Except Error Int64
  | .int n => .ok n
  | v => .error (.typeMismatch .int v.ty)

def asStr : Value → Except Error String
  | .str s => .ok s
  | v => .error (.typeMismatch .str v.ty)

end Value
end Clausal
