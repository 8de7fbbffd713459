import Clausal.Journal

/-! Effects. A callback is a function of the host's state that answers with a result, a new host
state and signals. Signals only ever add to the journal and to the cancelled tokens, so no callback
can undo a cancellation. The engine runs in a world that holds all three. Main statements: how each
engine operation acts on the world, and that the world is kept when a computation fails. -/
namespace Clausal

/-- Name of a cancellation flag, which may be shared by several queries. -/
abbrev Token := String

inductive Signal where
  | note (n : Note)
  | event (e : Event)
  | cancel (t : Token)

structure Reply (σ α : Type) where
  result : Except Failure α
  host : σ
  signals : List Signal

/-- A host action over host states of type `σ`. -/
def Effect (σ α : Type) : Type := σ → Reply σ α

namespace Effect

variable {σ α : Type}

def answer (r : Except Failure α) : Effect σ α := fun host => ⟨r, host, []⟩

def signal (r : Except Failure α) (signals : List Signal) : Effect σ α := fun host => ⟨r, host, signals⟩

end Effect

structure World (σ : Type) where
  host : σ
  cancelled : List Token
  journal : Array Entry

namespace World

variable {σ : Type}

def start (host : σ) : World σ := ⟨host, [], #[]⟩

def record (w : World σ) : Signal → World σ
  | .note n => { w with journal := w.journal.push (.note n) }
  | .event e => { w with journal := w.journal.push (.event e) }
  | .cancel t => { w with cancelled := t :: w.cancelled }

end World

/-- Computations of the engine: they may fail, and keep the world when they do. -/
abbrev Engine (σ : Type) := ExceptT Failure (StateM (World σ))

namespace Engine

variable {σ α : Type}

def lift (x : Except Error α) : Engine σ α := ExceptT.mk fun w => (Failure.lift x, w)

def emit (e : Event) : Engine σ Unit := modify fun w => w.record (.event e)

/-- Runs a host action and records its signals, whether it succeeds or not. -/
def perform (act : Effect σ α) : Engine σ α := ExceptT.mk fun w =>
  let reply := act w.host
  (reply.result, reply.signals.foldl World.record { w with host := reply.host })

def isCancelled (t : Token) : Engine σ Bool := do
  return t ∈ (← get).cancelled

/-- Fails once the token has been cancelled. -/
def checkpoint (t : Token) : Engine σ Unit := do
  if ← isCancelled t then throw (.error .cancelled)

theorem run_throw (f : Failure) (w : World σ) : ExceptT.run (throw f : Engine σ α) w = (.error f, w) := rfl

theorem run_bind {β : Type} (x : Engine σ α) (f : α → Engine σ β) (w : World σ) :
    ExceptT.run (x >>= f) w =
      match ExceptT.run x w with
      | (.ok a, w') => ExceptT.run (f a) w'
      | (.error f, w') => (.error f, w') := by
  rw [ExceptT.run_bind]
  rcases h : ExceptT.run x w with ⟨r, w'⟩
  cases r with
  | ok a => simp only [bind, StateT.bind, h]
  | error f => simp only [bind, StateT.bind, h]; rfl

theorem run_lift (x : Except Error α) (w : World σ) :
    ExceptT.run (lift x : Engine σ α) w = (Failure.lift x, w) := rfl

theorem run_emit (e : Event) (w : World σ) : ExceptT.run (emit e) w = (.ok (), w.record (.event e)) := rfl

theorem run_perform (act : Effect σ α) (w : World σ) :
    ExceptT.run (perform act) w =
      ((act w.host).result, (act w.host).signals.foldl World.record { w with host := (act w.host).host }) :=
  rfl

theorem run_isCancelled (t : Token) (w : World σ) :
    ExceptT.run (isCancelled t) w = (.ok (decide (t ∈ w.cancelled)), w) := rfl

theorem run_checkpoint (t : Token) (w : World σ) :
    ExceptT.run (checkpoint t) w = (if t ∈ w.cancelled then .error (.error .cancelled) else .ok (), w) := by
  unfold checkpoint
  rw [run_bind, run_isCancelled]
  by_cases h : t ∈ w.cancelled
  · simp only [h, decide_true, if_true, run_throw]
  · simp only [h, decide_false, if_false]
    rfl

end Engine
end Clausal
