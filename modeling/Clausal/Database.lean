import Clausal.Clause

/-! Where clauses come from. A source is asked for the clauses of a name each time a query or a call
needs them. A database is the source that holds its clauses in the order in which they were
added. -/
namespace Clausal

variable {σ : Type}

/-- A source is told whether the token of the query has been cancelled. A lookup hands over all clauses of a name at
once, so no code of the source runs between one clause and the next. A source that makes its clauses one by one, as
they are asked for, and does something else meanwhile is not covered. -/
structure Source (σ : Type) where
  lookup : (name : String) → (cancelled : Bool) → Effect σ (List (Clause σ))

structure Database (σ : Type) where
  clauses : List (Clause σ)

namespace Database

def empty : Database σ := ⟨[]⟩

def add (d : Database σ) (c : Clause σ) : Database σ := ⟨d.clauses ++ [c]⟩

/-- The alternatives of one name, oldest first. -/
def named (d : Database σ) (name : String) : List (Clause σ) :=
  d.clauses.filter fun c => c.name = name

def count (d : Database σ) (name : String) : Nat := (d.named name).length

def source (d : Database σ) : Source σ where
  lookup name cancelled :=
    if cancelled then .answer (.error (.error .cancelled))
    else .signal (.ok (d.named name)) [.event (.lookup name (d.named name).length)]

end Database

namespace Source

/-- The source that notes every lookup, refuses the names in the first table, and cancels the
tokens in the second once it has found clauses. -/
def watched (s : Source σ) (refused : List (String × Error)) (cancels : List (String × Token)) :
    Source σ where
  lookup name cancelled := fun host =>
    match refused.lookup name with
    | some err => ⟨.error (.error err), host, [.note (.lookup name)]⟩
    | none =>
      let reply := s.lookup name cancelled host
      let after : List Signal :=
        match reply.result, cancels.lookup name with
        | .ok _, some t => [.cancel t]
        | _, _ => []
      { reply with signals := .note (.lookup name) :: reply.signals ++ after }

def clauses (s : Source σ) (name : String) (t : Token) : Engine σ (List (Clause σ)) := do
  Engine.perform (s.lookup name (← Engine.isCancelled t))

end Source
end Clausal
