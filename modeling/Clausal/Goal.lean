import Clausal.Effect

/-! Goals, of which clause bodies are made. A term stands for a value: a constant, a parameter, or
the result of a callback. Scope goals are made by the engine alone, around the body of a callee. -/
namespace Clausal

variable {σ : Type}

/-- A map reads the whole scope, or the value of one parameter. -/
inductive Selector (σ : Type) where
  | scope (f : View → Effect σ Value)
  | source (p : Param) (f : Value → Effect σ Value)

/-- The type of a constant is wide enough for its value when the constant is checked. -/
inductive Term (σ : Type) where
  | constant (ty : Ty) (v : Value)
  | param (p : Param)
  | map (ty : Ty) (selector : Selector σ)

inductive Goal (σ : Type) where
  /-- Binds the parameter, or checks its binding. -/
  | bind (p : Param) (t : Term σ)
  /-- Continues once for every solution of the callee. -/
  | call (name : String) (arguments : List (Term σ))
  /-- Ends the branch when the callback answers false. -/
  | check (f : View → Effect σ Bool)
  | action (f : View → Effect σ Unit)
  | openScope (arguments : List (Formal × Slot))
  | closeScope

namespace Term

def ty : Term σ → Ty
  | .constant ty _ => ty
  | .param p => p.ty
  | .map ty _ => ty

def text : Term σ → String
  | .constant _ v => v.text
  | .param p => p.text
  | .map _ (.scope _) => "map(..)"
  | .map _ (.source p _) => "map(" ++ p.text ++ ")"

def literal (v : Value) : Term σ := .constant v.ty v

def constant? (ty : Ty) (v : Value) : Except Error (Term σ) := do
  return .constant ty (← ty.ensure v)

/-- The value of a term in the innermost scope. A map must answer with a value of its type. -/
def evaluate (e : Env) : Term σ → Engine σ (Value × Env)
  | .constant _ v => return (v, e)
  | .param p => Engine.lift (e.read p)
  | .map ty (.scope f) => do
    let v ← Engine.perform (f e.view)
    return (← Engine.lift (ty.ensure v), e)
  | .map ty (.source p f) => do
    let (w, e') ← Engine.lift (e.read p)
    let v ← Engine.perform (f w)
    return (← Engine.lift (ty.ensure v), e')

end Term

namespace Goal

/-- A bind goal whose term could be stored in the parameter by its type alone. -/
def bind? (p : Param) (t : Term σ) : Except Error (Goal σ) :=
  if p.ty.Accepts t.ty then .ok (.bind p t)
  else .error (.invalidGoal (.illTyped p.text p.ty t.ty))

def call? (name : String) (arguments : List (Term σ)) : Except Error (Goal σ) :=
  if name = "" then .error (.invalidGoal .emptyCallee) else .ok (.call name arguments)

def text : Goal σ → String
  | .bind p t => p.text ++ " = " ++ t.text
  | .call name arguments => name ++ "[" ++ ", ".intercalate (arguments.map Term.text) ++ "]"
  | .check _ => "check(..)"
  | .action _ => "action(..)"
  | .openScope arguments => "begin_scope(" ++ toString arguments.length ++ ")"
  | .closeScope => "end_scope"

end Goal
end Clausal
