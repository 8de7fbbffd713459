import Clausal.Store.Unify

/-! The environment of one branch: its store and its stack of open scopes. A scope maps the formals
of a clause to the caller's arguments and collects the local variables of the body. Only the
innermost scope is ever looked into. -/
namespace Clausal

structure Slot where
  parameter : Actual
  cell : Nat

/-- Locals stand in the order in which the body met them. This order stands for any other: locals are known by their
parameters, and nothing promises that they are listed in one order or another. What may be seen of the order is said
for all of them by `Env.order_shows_iff_torn`. Statements that compare two runs take the same order in both. -/
structure Scope where
  arguments : List (Formal × Slot)
  locals : List Slot
  mark : Mark

/-- A reference found in scope. Its type is the declared one, which is narrower than the cell's
when an output of type `any` was passed for a typed formal. -/
structure Resolved where
  slot : Slot
  ty : Ty

/-- Enclosing scopes stand from the inside out, the query's own scope last. The serial numbers
clause instances and literal arguments. -/
structure Env where
  store : Store
  scope : Scope
  enclosing : List Scope
  serial : Nat

namespace Scope

def argumentSlots (sc : Scope) : List Slot := sc.arguments.map Prod.snd

def slots (sc : Scope) : List Slot := sc.argumentSlots ++ sc.locals

/-- A formal is one that the scope was opened with. An actual is an argument or else a local. -/
def slot? (sc : Scope) : Param → Option Slot
  | .formal f => (sc.arguments.find? fun a => a.1.id = f.id).map Prod.snd
  | .actual a => sc.slots.find? fun slot => slot.parameter.id = a.id

def bodyMatches (sc : Scope) (name : String) : List Resolved :=
  (sc.arguments.filter fun a => a.1.name = name).map (fun a => ⟨a.2, a.1.ty⟩) ++
    (sc.locals.filter fun slot => slot.parameter.name = some name).map
      (fun slot => ⟨slot, slot.parameter.ty⟩)

/-- Arguments that the caller called `name`. -/
def callerMatches (sc : Scope) (name : String) : List Resolved :=
  (sc.argumentSlots.filter fun slot => slot.parameter.name = some name).map
    (fun slot => ⟨slot, slot.parameter.ty⟩)

end Scope

namespace Env

/-- Depth of the innermost scope. The query's own scope has depth 0. -/
def depth (e : Env) : Nat := e.enclosing.length

def outermost (e : Env) : Scope := e.enclosing.getLast?.getD e.scope

def queryArguments (e : Env) : List Slot := e.outermost.argumentSlots

/-- Gives an actual a cell, unless an earlier position of the query has it already. -/
def seat (placed : List Slot × Store) (a : Actual) : List Slot × Store :=
  match placed.1.find? fun slot => slot.parameter.id = a.id with
  | some slot => (placed.1 ++ [⟨a, slot.cell⟩], placed.2)
  | none =>
    let (cell, s) := placed.2.allocateFor a 0
    (placed.1 ++ [⟨a, cell⟩], s)

/-- The environment of a query: one scope that maps the formals to the actuals. -/
def ofQuery (formals : List Formal) (actuals : List Actual) : Except Error Env :=
  if formals.length = actuals.length then
    let (slots, s) := actuals.foldl seat ([], .empty)
    .ok ⟨s, ⟨formals.zip slots, [], ⟨0, 0⟩⟩, [], 0⟩
  else .error (.invalidCall .arityMismatch)

def nextSerial (e : Env) : Nat × Env := (e.serial, { e with serial := e.serial + 1 })

/-- Points the slots of the innermost scope at the representatives of their cells. -/
def redirect (e : Env) : Env :=
  let direct (slot : Slot) : Slot := { slot with cell := e.store.find slot.cell }
  { e with
    store := e.scope.slots.foldl (fun s slot => s.compress slot.cell) e.store
    scope := { e.scope with
      arguments := e.scope.arguments.map fun a => (a.1, direct a.2)
      locals := e.scope.locals.map direct } }

def openScope (e : Env) (arguments : List (Formal × Slot)) : Env :=
  { e with
    scope := ⟨arguments, [], e.store.mark⟩
    enclosing := e.scope :: e.enclosing }

/-- Drops the innermost scope with its cells and aliases. The query's own scope stays open. -/
def closeScope (e : Env) : Except Error Env :=
  match e.enclosing with
  | [] => .error (.invalidGoal .unbalancedScope)
  | outer :: rest =>
    .ok { e with
      store := e.store.closeScope e.depth e.scope.mark
      scope := outer
      enclosing := rest }.redirect

/-- Looks a reference up without making anything. An actual may be missing, a formal may not. -/
def lookup (e : Env) (p : Param) : Except Error (Option Resolved) :=
  match e.scope.slot? p, p with
  | some slot, _ => .ok (some ⟨slot, p.ty⟩)
  | none, .formal f => .error (.unknownParameter f.name)
  | none, .actual _ => .ok none

def addLocal (e : Env) (a : Actual) : Slot × Env :=
  let (cell, s) := e.store.allocateFor a e.depth
  let slot : Slot := ⟨a, cell⟩
  (slot, { e with store := s, scope := { e.scope with locals := e.scope.locals ++ [slot] } })

/-- Looks a reference up. An actual that is missing becomes a local variable. -/
def resolve (e : Env) (p : Param) : Except Error (Resolved × Env) :=
  match e.scope.slot? p, p with
  | some slot, _ => .ok (⟨slot, p.ty⟩, e)
  | none, .formal f => .error (.unknownParameter f.name)
  | none, .actual a =>
    let (slot, e') := e.addLocal a
    .ok (⟨slot, a.ty⟩, e')

/-- The first of several references, provided that all denote one class. -/
def unique (e : Env) (name : String) : List Resolved → Except Error (Option Resolved)
  | [] => .ok none
  | r :: rs =>
    if rs.all fun q => e.store.find q.slot.cell = e.store.find r.slot.cell then .ok (some r)
    else .error (.ambiguousParameter name)

/-- Looks a name up. The body's own names win; only when none matches do the caller's names for
its arguments count. -/
def lookupName (e : Env) (name : String) : Except Error Resolved := do
  match ← e.unique name (e.scope.bodyMatches name) with
  | some r => return r
  | none =>
    match ← e.unique name (e.scope.callerMatches name) with
    | some r => return r
    | none => throw (.unknownParameter name)

def checkDeclared (e : Env) (r : Resolved) : Except Error Unit :=
  match e.store.value r.slot.cell with
  | some v => if r.ty.Accepts v.ty then .ok () else .error (.typeMismatch r.ty v.ty)
  | none => .ok ()

/-- Unifies two references; `none` when their values differ. -/
def equate (e : Env) (target source : Resolved) : Except Error (Option Env) :=
  match e.store.unify target.slot.cell source.slot.cell with
  | (.error err, _) => .error err
  | (.ok false, _) => .ok none
  | (.ok true, s) => do
    let e' := { e with store := s }.redirect
    e'.checkDeclared source
    e'.checkDeclared target
    return some e'

/-- Gives a reference a value; `none` when it holds another. -/
def assign (e : Env) (target : Resolved) (v : Value) : Except Error (Option Env) :=
  match e.store.bindOrCheck target.slot.cell v with
  | (.error err, _) => .error err
  | (.ok false, _) => .ok none
  | (.ok true, s) => do
    let e' := { e with store := s }
    e'.checkDeclared target
    return some e'

/-- Passes a value as an anonymous literal: an actual with a cell, but no local variable. -/
def addLiteral (e : Env) (ty : Ty) (v : Value) : Except Error (Slot × Env) := do
  let (serial, e') := e.nextSerial
  let a ← Actual.input? (.literal serial) none ty v none
  let (cell, s) := e'.store.allocateFor a e'.depth
  return (⟨a, cell⟩, { e' with store := s })

def read (e : Env) (p : Param) : Except Error (Value × Env) := do
  let (r, e') ← e.resolve p
  match e'.store.value r.slot.cell with
  | some v => return (v, e')
  | none => throw (.unbound p.text)

end Env
end Clausal
