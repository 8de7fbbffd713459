import Clausal.Goal

/-! Clauses: a name, the formals, and a body that is either fixed or made anew for each instance.
Several clauses may share a name; they are alternatives. -/
namespace Clausal

variable {σ : Type}

/-- A factory is told the number of the instance it makes a body for. -/
inductive Body (σ : Type) where
  | fixed (goals : List (Goal σ))
  | factory (make : Nat → Effect σ (List (Goal σ)))

/-- Clauses are named and tell their formals apart by name. -/
structure Clause (σ : Type) where
  name : String
  formals : List Formal
  body : Body σ
  name_ne : name ≠ ""
  distinct : (formals.map Formal.name).Nodup

namespace Clause

def define? (name : String) (formals : List Formal) (body : Body σ) : Except Error (Clause σ) :=
  if hn : name = "" then .error (.invalidClause name .emptyName)
  else if hd : (formals.map Formal.name).Nodup then .ok ⟨name, formals, body, hn, hd⟩
  else .error (.invalidClause name .duplicateFormal)

/-- A clause with a factory, which runs once to show that it can. -/
def withFactory? (name : String) (formals : List Formal) (make : Nat → Effect σ (List (Goal σ))) :
    Engine σ (Clause σ) := do
  let c ← Engine.lift (define? name formals (.factory make))
  let _ ← Engine.perform (make 0)
  return c

def formal? (c : Clause σ) (name : String) : Option Formal :=
  c.formals.find? fun f => f.name = name

def instantiate (c : Clause σ) (number : Nat) : Engine σ (List (Goal σ)) :=
  match c.body with
  | .fixed goals => return goals
  | .factory make => Engine.perform (make number)

/-- Whether the clause may be called with these actuals. -/
def Matches (c : Clause σ) (actuals : List Actual) : Prop :=
  c.formals.length = actuals.length ∧ ∀ p ∈ c.formals.zip actuals, p.2.Matches p.1

instance (c : Clause σ) (actuals : List Actual) : Decidable (c.Matches actuals) :=
  inferInstanceAs (Decidable (_ ∧ _))

def text (c : Clause σ) : String :=
  c.name ++ "(" ++ ", ".intercalate (c.formals.map Formal.name) ++ ")"

end Clause
end Clausal
