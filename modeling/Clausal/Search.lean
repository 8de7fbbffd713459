import Clausal.Answer
import Clausal.Database
import Clausal.Resolvent

/-! Breadth-first search. The query and every suspended call wait in one queue. The first of them is
looked up, and its matching clauses become branches one at a time; a branch that stops at a call
goes to the end of the queue. The token is checked before every turn and every clause. An error ends
the search. A crash loses the branch that it happened in, and the search goes on after it when it is
asked again. -/
namespace Clausal

variable {σ : Type}

inductive Pending (σ : Type) where
  | query (name : String) (actuals : List Actual)
  | call (c : Call σ)

/-- A lookup under way and the clauses that it has not tried yet. -/
structure Alternatives (σ : Type) where
  origin : Pending σ
  clauses : List (Clause σ)

structure Search (σ : Type) where
  source : Source σ
  query : String
  token : Token
  queue : List (Pending σ)
  current : Option (Alternatives σ)
  done : Bool

/-- What one turn of a search comes to. -/
inductive Turn where
  | running
  | answered (a : Answer)
  | exhausted
  | stopped (f : Failure)

/-- What a search yields. `unfinished` means that its turns ran out before it did. -/
inductive Item where
  | answer (a : Answer)
  | failed (e : Error)
  | crashed (c : Crash)
  | ended
  | unfinished
deriving DecidableEq

namespace Pending

def name : Pending σ → String
  | .query name _ => name
  | .call c => c.name

def actuals : Pending σ → List Actual
  | .query _ actuals => actuals
  | .call c => c.actuals

def branch (p : Pending σ) (c : Clause σ) : Engine σ (Resolvent σ) :=
  match p with
  | .query _ actuals => Resolvent.ofQuery c actuals
  | .call stopped => stopped.resume c

def solve (p : Pending σ) (c : Clause σ) : Engine σ (Outcome σ) := do
  (← p.branch c).run

end Pending

def nextMatch (t : Token) (actuals : List Actual) :
    List (Clause σ) → Engine σ (Option (Clause σ × List (Clause σ)))
  | [] => return none
  | c :: rest => do
    Engine.checkpoint t
    if c.Matches actuals then return some (c, rest)
    else
      Engine.emit (.mismatch c.text)
      nextMatch t actuals rest

namespace Search

/-- A search for the solutions of a query. Nothing is looked up before the first turn. -/
def start (s : Source σ) (name : String) (actuals : List Actual) (t : Token) :
    Except Error (Search σ) :=
  if name = "" then .error (.invalidCall .emptyName)
  else .ok ⟨s, name, t, [.query name actuals], none, false⟩

/-- Runs the branch of the next matching clause, which has been taken by the time it runs. -/
def advance (s : Search σ) (a : Alternatives σ) (w : World σ) : (Turn × Search σ) × World σ :=
  match ExceptT.run (nextMatch s.token a.origin.actuals a.clauses) w with
  | (.error f, w') => ((.stopped f, s), w')
  | (.ok none, w') => ((.running, { s with current := none }), w')
  | (.ok (some (c, rest)), w') =>
    let s' := { s with current := some { a with clauses := rest } }
    match ExceptT.run (a.origin.solve c) w' with
    | (.error f, w'') => ((.stopped f, s'), w'')
    | (.ok .failed, w'') => ((.running, s'), w'')
    | (.ok (.complete e), w'') =>
      ((.answered (Answer.ofEnv e), s'), w''.record (.event (.solved s.query)))
    | (.ok (.suspended call), w'') =>
      ((.running, { s' with queue := s.queue ++ [.call call] }),
        w''.record (.event (.suspended call.name s.queue.length)))

/-- One turn: goes on with the lookup under way, or else with the first in the queue. -/
def turn (s : Search σ) (w : World σ) : (Turn × Search σ) × World σ :=
  if s.token ∈ w.cancelled then ((.stopped (.error .cancelled), s), w)
  else
    match s.current, s.queue with
    | some a, _ => s.advance a w
    | none, [] => ((.exhausted, s), w)
    | none, p :: rest =>
      let s' := { s with queue := rest }
      match ExceptT.run (s.source.clauses p.name s.token) w with
      | (.error f, w') => ((.stopped f, s'), w')
      | (.ok clauses, w') => s'.advance ⟨p, clauses⟩ w'

def close (s : Search σ) : Search σ := { s with queue := [], current := none, done := true }

/-- Takes turns, up to a number of them, until there is an item to yield. -/
def next : Nat → Search σ → World σ → (Item × Search σ) × World σ
  | 0, s, w => ((.unfinished, s), w)
  | turns + 1, s, w =>
    if s.done then ((.ended, s), w)
    else
      match s.turn w with
      | ((.running, s'), w') => next turns s' w'
      | ((.answered a, s'), w') => ((.answer a, s'), w')
      | ((.exhausted, s'), w') => ((.ended, s'.close), w')
      | ((.stopped (.error e), s'), w') => ((.failed e, s'.close), w'.record (.event (.aborted s.query e)))
      | ((.stopped (.crash c), s'), w') => ((.crashed c, s'), w')

end Search
end Clausal
