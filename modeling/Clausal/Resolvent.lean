import Clausal.Agenda
import Clausal.Clause

/-! Resolvents: an environment and the goals left to solve in it, one for each branch of a search. A
resolvent runs goal after goal until none is left, one fails, or one is a call. A call stops the
branch; each clause of the callee continues it in a copy of its own. -/
namespace Clausal

variable {σ : Type}

structure Resolvent (σ : Type) where
  env : Env
  agenda : Agenda σ

structure Call (σ : Type) where
  name : String
  arguments : List Slot
  env : Env
  rest : Agenda σ

inductive Outcome (σ : Type) where
  | complete (e : Env)
  | failed
  | suspended (c : Call σ)

/-- What one goal does to its branch. -/
inductive Step where
  | next (e : Env)
  | failed
  | call (name : String) (arguments : List Slot) (e : Env)

namespace Env

/-- Passes one argument: a parameter as it is, anything else evaluated, as a literal. -/
def pass (e : Env) : Term σ → Engine σ (Slot × Env)
  | .param p => do
    let (r, e') ← Engine.lift (e.resolve p)
    return (r.slot, e')
  | t => do
    let (v, e') ← t.evaluate e
    Engine.lift (e'.addLiteral t.ty v)

def passAll (e : Env) : List (Term σ) → Engine σ (List Slot × Env)
  | [] => return ([], e)
  | t :: ts => do
    let (slot, e') ← e.pass t
    let (slots, e'') ← e'.passAll ts
    return (slot :: slots, e'')

/-- Unifies a parameter with a term; `none` when they differ. -/
def solveBind (e : Env) (p : Param) (t : Term σ) : Engine σ (Option Env) := do
  let (target, e') ← Engine.lift (e.resolve p)
  match t with
  | .param q =>
    let (source, e'') ← Engine.lift (e'.resolve q)
    Engine.lift (e''.equate target source)
  | t =>
    let (v, e'') ← t.evaluate e'
    Engine.lift (e''.assign target v)

def enter (e : Env) (arguments : List (Formal × Slot)) : Engine σ Env := do
  Engine.emit (.opened (e.depth + 1) arguments.length)
  return e.openScope arguments

/-- Closes the innermost scope and reports it, unless it is the query's own. -/
def leave (e : Env) : Engine σ Env := do
  let e' ← Engine.lift e.closeScope
  Engine.emit (.closed e.depth)
  return e'

end Env

namespace Goal

def step (e : Env) : Goal σ → Engine σ Step
  | .bind p t => do
    match ← e.solveBind p t with
    | some e' => return .next e'
    | none =>
      Engine.emit .unificationFailed
      return .failed
  | .call name arguments => do
    let (slots, e') ← e.passAll arguments
    return .call name slots e'
  | .check f => do
    if ← Engine.perform (f e.view) then return .next e
    else
      Engine.emit .checkFailed
      return .failed
  | .action f => do
    Engine.perform (f e.view)
    return .next e
  | .openScope arguments => return .next (← e.enter arguments)
  | .closeScope => return .next (← e.leave)

end Goal

namespace Resolvent

def ofQuery (c : Clause σ) (actuals : List Actual) : Engine σ (Resolvent σ) := do
  let e ← Engine.lift (Env.ofQuery c.formals actuals)
  let (number, e') := e.nextSerial
  return ⟨e', .ofList (← c.instantiate number)⟩

def solve (e : Env) (a : Agenda σ) : Engine σ (Outcome σ) :=
  match h : a.next? with
  | none => return .complete e
  | some (g, rest) => do
    have := Agenda.length_of_next? h
    Engine.emit (.evaluating e.depth g.text)
    match ← g.step e with
    | .next e' => solve e' rest
    | .failed => return .failed
    | .call name arguments e' => return .suspended ⟨name, arguments, e', rest⟩
termination_by a.toList.length

def run (r : Resolvent σ) : Engine σ (Outcome σ) := solve r.env r.agenda

end Resolvent

namespace Call

def actuals (c : Call σ) : List Actual := c.arguments.map Slot.parameter

/-- The branch that solves a clause's body in a scope of its own and then goes on where the call
stood. Formals and arguments are paired as far as both go. -/
def resume (c : Call σ) (callee : Clause σ) : Engine σ (Resolvent σ) := do
  let (number, e) := c.env.nextSerial
  let body ← callee.instantiate number
  let entry : Goal σ := .openScope (callee.formals.zip c.arguments)
  return ⟨e, ((c.rest.push [.closeScope]).push body).push [entry]⟩

end Call
end Clausal
