import Clausal.Proofs.Branch
import Clausal.Proofs.Scopes

/-! The engine with another way to tidy up. After a unification and after a scope has closed the engine redirects the
innermost scope; here something else is done to the environment in these two places, which may be nothing at all. Main
statement: with redirection in these places it is the engine itself. -/
namespace Clausal

variable {σ : Type} (tidy : Env → Env)

namespace Env

/-- Unifies two references and tidies up; `none` when their values differ. -/
def equateBy (e : Env) (target source : Resolved) : Except Error (Option Env) :=
  match e.store.unify target.slot.cell source.slot.cell with
  | (.error err, _) => .error err
  | (.ok false, _) => .ok none
  | (.ok true, s) => do
    let e' := tidy { e with store := s }
    e'.checkDeclared source
    e'.checkDeclared target
    return some e'

def closeScopeBy (e : Env) : Except Error Env :=
  match e.enclosing with
  | [] => .error (.invalidGoal .unbalancedScope)
  | outer :: rest => .ok (tidy (e.dropScope outer rest))

def solveBindBy (e : Env) (p : Param) (t : Term σ) : Engine σ (Option Env) := do
  let (target, e') ← Engine.lift (e.resolve p)
  match t with
  | .param q =>
    let (source, e'') ← Engine.lift (e'.resolve q)
    Engine.lift (e''.equateBy tidy target source)
  | t =>
    let (v, e'') ← t.evaluate e'
    Engine.lift (e''.assign target v)

def leaveBy (e : Env) : Engine σ Env := do
  let e' ← Engine.lift (e.closeScopeBy tidy)
  Engine.emit (.closed e.depth)
  return e'

end Env

/-- Only bindings and ends of scopes tidy up. -/
def Goal.stepBy (e : Env) : Goal σ → Engine σ Step
  | .bind p t => do
    match ← e.solveBindBy tidy p t with
    | some e' => return .next e'
    | none =>
      Engine.emit .unificationFailed
      return .failed
  | .closeScope => return .next (← e.leaveBy tidy)
  | g => g.step e

namespace Resolvent

def solveBy (e : Env) (a : Agenda σ) : Engine σ (Outcome σ) :=
  match h : a.next? with
  | none => return .complete e
  | some (g, rest) => do
    have := Agenda.length_of_next? h
    Engine.emit (.evaluating e.depth g.text)
    match ← g.stepBy tidy e with
    | .next e' => solveBy e' rest
    | .failed => return .failed
    | .call name arguments e' => return .suspended ⟨name, arguments, e', rest⟩
termination_by a.toList.length

def proceedBy (rest : Agenda σ) : Step → Engine σ (Outcome σ)
  | .next e => solveBy tidy e rest
  | .failed => return .failed
  | .call name arguments e => return .suspended ⟨name, arguments, e, rest⟩

variable {tidy}

theorem solveBy_nil {a : Agenda σ} (h : a.next? = none) (e : Env) : solveBy tidy e a = pure (.complete e) := by
  rw [solveBy]
  split
  · rfl
  · rename_i hn
    rw [h] at hn
    cases hn

theorem solveBy_cons {a rest : Agenda σ} {g : Goal σ} (h : a.next? = some (g, rest)) (e : Env) :
    solveBy tidy e a =
      Engine.emit (.evaluating e.depth g.text) >>= fun _ => g.stepBy tidy e >>= proceedBy tidy rest := by
  rw [solveBy]
  split
  · rename_i hn
    rw [h] at hn
    cases hn
  · rename_i g' rest' hn
    rw [h] at hn
    cases hn
    refine congrArg _ (funext fun _ => congrArg _ (funext fun s => ?_))
    cases s <;> rfl

end Resolvent

def Pending.solveBy (p : Pending σ) (c : Clause σ) : Engine σ (Outcome σ) := do
  let r ← p.branch c
  Resolvent.solveBy tidy r.env r.agenda

namespace Search

/-- What a search makes of a branch that has run. -/
def settle (s : Search σ) : Except Failure (Outcome σ) × World σ → (Turn × Search σ) × World σ
  | (.error f, w) => ((.stopped f, s), w)
  | (.ok .failed, w) => ((.running, s), w)
  | (.ok (.complete e), w) => ((.answered (Answer.ofEnv e), s), w.record (.event (.solved s.query)))
  | (.ok (.suspended call), w) =>
    ((.running, { s with queue := s.queue ++ [.call call] }),
      w.record (.event (.suspended call.name s.queue.length)))

def advanceBy (s : Search σ) (a : Alternatives σ) (w : World σ) : (Turn × Search σ) × World σ :=
  match ExceptT.run (nextMatch s.token a.origin.actuals a.clauses) w with
  | (.error f, w') => ((.stopped f, s), w')
  | (.ok none, w') => ((.running, { s with current := none }), w')
  | (.ok (some (c, rest)), w') =>
    settle { s with current := some { a with clauses := rest } } (ExceptT.run (a.origin.solveBy tidy c) w')

def turnBy (s : Search σ) (w : World σ) : (Turn × Search σ) × World σ :=
  if s.token ∈ w.cancelled then ((.stopped (.error .cancelled), s), w)
  else
    match s.current, s.queue with
    | some a, _ => s.advanceBy tidy a w
    | none, [] => ((.exhausted, s), w)
    | none, p :: rest =>
      let s' := { s with queue := rest }
      match ExceptT.run (s.source.clauses p.name s.token) w with
      | (.error f, w') => ((.stopped f, s'), w')
      | (.ok clauses, w') => s'.advanceBy tidy ⟨p, clauses⟩ w'

def nextBy : Nat → Search σ → World σ → (Item × Search σ) × World σ
  | 0, s, w => ((.unfinished, s), w)
  | turns + 1, s, w =>
    if s.done then ((.ended, s), w)
    else
      match s.turnBy tidy w with
      | ((.running, s'), w') => nextBy turns s' w'
      | ((.answered a, s'), w') => ((.answer a, s'), w')
      | ((.exhausted, s'), w') => ((.ended, s'.close), w')
      | ((.stopped (.error e), s'), w') => ((.failed e, s'.close), w'.record (.event (.aborted s.query e)))
      | ((.stopped (.crash c), s'), w') => ((.crashed c, s'), w')

end Search

/-! Redirection in both places. -/

theorem Goal.stepBy_redirect (g : Goal σ) (e : Env) : g.stepBy Env.redirect e = g.step e := by
  cases g <;> rfl

theorem Resolvent.solveBy_redirect (e : Env) (a : Agenda σ) : solveBy Env.redirect e a = solve e a := by
  induction hl : a.toList generalizing a e with
  | nil => rw [solveBy_nil (Agenda.next?_of_nil hl), solve_nil hl]
  | cons g goals ih =>
      obtain ⟨rest, hnext, hrest⟩ := Agenda.next?_of_cons hl
      rw [solveBy_cons hnext, solve_cons hnext, Goal.stepBy_redirect]
      have hproceed : proceedBy Env.redirect rest = proceed rest := by
        funext s
        cases s with
        | next e' => exact ih e' rest hrest
        | failed => rfl
        | call name arguments e' => rfl
      rw [hproceed]

theorem Pending.solveBy_redirect (p : Pending σ) (c : Clause σ) : p.solveBy Env.redirect c = p.solve c :=
  congrArg (p.branch c >>= ·) (funext fun r => Resolvent.solveBy_redirect r.env r.agenda)

namespace Search

theorem advanceBy_redirect (s : Search σ) (a : Alternatives σ) (w : World σ) :
    s.advanceBy Env.redirect a w = s.advance a w := by
  unfold advanceBy advance
  rcases ExceptT.run (nextMatch s.token a.origin.actuals a.clauses) w with ⟨f | found, w'⟩
  · rfl
  rcases found with _ | ⟨c, rest⟩
  · rfl
  simp only [Pending.solveBy_redirect]
  rcases ExceptT.run (a.origin.solve c) w' with ⟨f | o, w''⟩
  · rfl
  · cases o <;> rfl

theorem turnBy_redirect (s : Search σ) (w : World σ) : s.turnBy Env.redirect w = s.turn w := by
  cases hc : s.current with
  | some a => simp only [turnBy, turn, hc, advanceBy_redirect]
  | none =>
      cases hq : s.queue with
      | nil => simp only [turnBy, turn, hc, hq]
      | cons p rest =>
          rcases hr : ExceptT.run (s.source.clauses p.name s.token) w with ⟨f | clauses, w'⟩ <;>
            simp only [turnBy, turn, hc, hq, hr, advanceBy_redirect]

theorem nextBy_redirect (turns : Nat) (s : Search σ) (w : World σ) :
    nextBy Env.redirect turns s w = next turns s w := by
  induction turns generalizing s w with
  | zero => rfl
  | succ turns ih =>
      rcases ht : s.turn w with ⟨⟨t, s'⟩, w'⟩
      rcases t with _ | a | _ | ⟨e | c⟩ <;> simp only [nextBy, next, turnBy_redirect, ht, ih]

end Search
end Clausal
