import Clausal.View

/-! The journal of a run: notes that callbacks leave and events that the engine reports, in the
order in which they happened. -/
namespace Clausal

inductive Note where
  | value (v : Value)
  | named (name : String) (b : Except Error Binding)
  | referred (text : String) (b : Except Error Binding)
  | bodyMade (clause : String) (run : Nat)
  | lookup (name : String)

inductive Event where
  | lookup (name : String) (clauses : Nat)
  | mismatch (candidate : String)
  | evaluating (depth : Nat) (goal : String)
  | opened (depth arguments : Nat)
  | closed (depth : Nat)
  | unificationFailed
  | checkFailed
  | suspended (callee : String) (pending : Nat)
  | solved (query : String)
  | aborted (query : String) (error : Error)

/-- Events are reported at one of two levels. -/
def Event.text : Event → String
  | .lookup name clauses => "debug predicate lookup name=" ++ name ++ " clauses=" ++ toString clauses
  | .mismatch candidate => "trace signature mismatch candidate=" ++ candidate
  | .evaluating depth goal => "trace evaluating depth=" ++ toString depth ++ " expression=" ++ goal
  | .opened depth arguments =>
    "trace open scope depth=" ++ toString depth ++ " arguments=" ++ toString arguments
  | .closed depth => "trace close scope depth=" ++ toString depth
  | .unificationFailed => "trace unification failed"
  | .checkFailed => "trace check failed"
  | .suspended callee pending =>
    "trace suspended on call callee=" ++ callee ++ " pending=" ++ toString pending
  | .solved query => "debug solution query=" ++ query
  | .aborted query error => "debug resolution aborted query=" ++ query ++ " error=" ++ error.message

inductive Entry where
  | note (n : Note)
  | event (e : Event)

end Clausal
