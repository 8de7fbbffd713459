import Clausal.Clause
import Clausal.Script.Code
import Std.Data.HashMap

/-! Written forms of clauses, and how clauses are built from them. A form refers to parameters by
name or position; building it looks the references up and checks what the constructors of terms,
goals and clauses check, in the order in which the form is written. -/
namespace Clausal.Script

inductive ActualKind where
  | literal (v : Value)
  | input (name : Option String) (ty : Ty) (v : Value)
  | output (name : Option String) (ty : Ty)

structure ActualForm where
  tag : String
  kind : ActualKind

inductive TermForm where
  | literal (v : Value)
  | constant (ty : Ty) (v : Value)
  | unchecked (ty : Ty) (v : Value)
  | param (r : Ref)
  | map (ty : Ty) (c : Code)
  | mapOf (ty : Ty) (r : Ref) (c : Code)
  /-- The source is read at a type of its own first. -/
  | mapRead (source ty : Ty) (r : Ref) (c : Code)

inductive GoalForm where
  | bind (r : Ref) (t : TermForm)
  | bindUnchecked (r : Ref) (t : TermForm)
  | call (name : String) (arguments : List TermForm)
  | callUnchecked (name : String) (arguments : List TermForm)
  | check (c : Code)
  | action (acts : List (Act))

/-- How bodies are made anew: without limit, or with an error once so many have been made. -/
structure Making where
  limit : Option (Nat × Error)

/-- The key tells clauses apart that count how often their bodies are made. Locals of a fixed body
are shared parameters, numbered from `base`. -/
structure ClauseForm where
  key : Nat
  base : Nat
  name : String
  formals : List Formal
  locals : List ActualForm
  body : List GoalForm
  making : Option Making

structure Host where
  made : Std.HashMap Nat Nat

def Host.start : Host := ⟨∅⟩

def Host.count (h : Host) (key : Nat) : Nat × Host :=
  let k := h.made.getD key 0 + 1
  (k, ⟨h.made.insert key k⟩)

namespace ActualForm

def build (form : ActualForm) (id : ActualId) : Except Error Actual :=
  match form.kind with
  | .literal v => .ok (.literal id v form.tag)
  | .input name ty v => Actual.input? id name ty v form.tag
  | .output name ty => .ok (.output id name ty form.tag)

def buildAll (id : Nat → ActualId) (forms : List ActualForm) : Except Error (List Actual) :=
  forms.zipIdx.mapM fun p => p.1.build (id p.2)

end ActualForm

variable {σ : Type}

namespace TermForm

/-- References outside of code are looked up at once. -/
def build (n : Names) : TermForm → Except Failure (Term σ)
  | .literal v => return .literal v
  | .constant ty v => Failure.lift (Term.constant? ty v)
  | .unchecked ty v => return .constant ty v
  | .param r => return .param (← n.find r)
  | .map ty c => return .map ty (.scope fun view => .answer (c.eval n view none))
  | .mapOf ty r c => return .map ty (.source (← n.find r) fun v => .answer (c.eval n .blank (some v)))
  | .mapRead source ty r c =>
    return .map ty (.source (← n.find r) fun v => .answer do
      c.eval n .blank (some (← Failure.lift (source.ensure v))))

end TermForm

namespace GoalForm

/-- The term is built before the reference that it is bound to. -/
def build (n : Names) : GoalForm → Except Failure (Goal σ)
  | .bind r t => do
    let t' ← t.build n
    let p ← n.find r
    Failure.lift (Goal.bind? p t')
  | .bindUnchecked r t => do
    let t' ← t.build n
    return .bind (← n.find r) t'
  | .call name arguments => do
    let ts ← arguments.mapM fun t => t.build n
    Failure.lift (Goal.call? name ts)
  | .callUnchecked name arguments => return .call name (← arguments.mapM fun t => t.build n)
  | .check c =>
    return .check fun view => .answer do
      Failure.lift (← c.eval n view none).asBool
  | .action acts =>
    return .action fun view =>
      .signal (Act.runAll n view acts).1 (Act.runAll n view acts).2

end GoalForm

namespace ClauseForm

def buildBody (form : ClauseForm) (id : Nat → ActualId) : Except Failure (List (Goal σ)) := do
  let own ← Failure.lift (ActualForm.buildAll id form.locals)
  form.body.mapM fun g => g.build ⟨form.formals, own⟩

/-- Makes a body with fresh locals. Every making is counted and noted, also one that fails. -/
def make (form : ClauseForm) (m : Making) (number : Nat) : Effect Host (List (Goal Host)) := fun host =>
  let (k, host') := host.count form.key
  let result : Except Failure (List (Goal Host)) :=
    match m.limit with
    | some (most, e) => if most < k then .error (.error e) else form.buildBody (.own number)
    | none => form.buildBody (.own number)
  ⟨result, host', [.note (.bodyMade form.name k)]⟩

/-- The clause of a form. A fixed body is built before the signature is checked, a factory is run
after it. -/
def build (form : ClauseForm) : Engine Host (Clause Host) :=
  match form.making with
  | some m => Clause.withFactory? form.name form.formals (form.make m)
  | none => do
    let goals ← Engine.perform (.answer (form.buildBody fun i => .shared (form.base + i)))
    Engine.lift (Clause.define? form.name form.formals (.fixed goals))

end ClauseForm
end Clausal.Script
