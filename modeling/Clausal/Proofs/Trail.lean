import Clausal.Proofs.Branch
import Clausal.Proofs.GoalSteps
import Clausal.Proofs.Lifetime
import Clausal.Proofs.Seating
import Mathlib.Logic.Relation

/-! Trails. A branch goes on goal by goal, and at a call with the body of one of the callee's clauses,
whatever the callbacks answer. Main statements: scopes are opened and closed in pairs along a trail,
and what an environment holds on to lasts as long as the scope that was open then. -/
namespace Clausal

variable {σ : Type}

/-- A goal that a body may hold. Scope goals are the engine's own. -/
def Goal.Authored : Goal σ → Prop
  | .bind _ _ | .call _ _ | .check _ | .action _ => True
  | .openScope _ | .closeScope => False

/-- All bodies that a clause can be given are made of authored goals. -/
def Clause.Authored (c : Clause σ) : Prop :=
  ∀ n goals, (c.instantiate n).Runs goals → ∀ g ∈ goals, g.Authored

namespace Resolvent

/-- One goal of a branch, or a call together with the start of a clause that goes on with it. -/
inductive Step : Resolvent σ → Resolvent σ → Prop where
  | goal {e e' : Env} {a rest : Agenda σ} {g : Goal σ} :
      a.next? = some (g, rest) → (g.step e).Runs (.next e') → Step ⟨e, a⟩ ⟨e', rest⟩
  | call {e e' : Env} {a rest : Agenda σ} {g : Goal σ} {name : String} {slots : List Slot}
      {callee : Clause σ} {r : Resolvent σ} :
      a.next? = some (g, rest) → (g.step e).Runs (.call name slots e') → callee.Authored →
        callee.Matches (slots.map Slot.parameter) →
          ((⟨name, slots, e', rest⟩ : Call σ).resume callee).Runs r → Step ⟨e, a⟩ r

abbrev Trail : Resolvent σ → Resolvent σ → Prop := Relation.ReflTransGen Step

/-- Steps that end no shallower than this. -/
abbrev Within (depth : Nat) : Resolvent σ → Resolvent σ → Prop :=
  Relation.ReflTransGen fun r r' => Step r r' ∧ depth ≤ r'.env.depth

theorem Within.trail {k : Nat} {r r' : Resolvent σ} (h : Within k r r') : Trail r r' :=
  Relation.ReflTransGen.mono (fun _ _ hs => hs.1) _ _ h

theorem Trail.within {r r' : Resolvent σ} (h : Trail r r') : Within 0 r r' :=
  Relation.ReflTransGen.mono (fun _ _ hs => ⟨hs, Nat.zero_le _⟩) _ _ h

end Resolvent

/-- How many scopes the goals will close. -/
def closes : List (Goal σ) → Nat
  | [] => 0
  | .closeScope :: goals => closes goals + 1
  | _ :: goals => closes goals

theorem closes_append (goals more : List (Goal σ)) : closes (goals ++ more) = closes goals + closes more := by
  induction goals with
  | nil => rw [List.nil_append, closes, Nat.zero_add]
  | cons g goals ih =>
      cases g with
      | closeScope =>
          rw [List.cons_append, closes, closes, ih]
          omega
      | _ => exact ih

theorem closes_authored {goals : List (Goal σ)} (h : ∀ g ∈ goals, g.Authored) : closes goals = 0 := by
  induction goals with
  | nil => rfl
  | cons g goals ih =>
      have hg := h g List.mem_cons_self
      have hgoals := ih fun g' h' => h g' (List.mem_cons_of_mem g h')
      cases g with
      | closeScope => exact absurd hg id
      | _ => exact hgoals

/-- None of the goals opens a scope. -/
def NoEntry (goals : List (Goal σ)) : Prop := ∀ g ∈ goals, ∀ arguments, g ≠ .openScope arguments

/-- The goals close the scopes that are open. Only the first one may open another, for which there is
one more to close and whose arguments denote cells. -/
def Balanced (e : Env) (goals : List (Goal σ)) : Prop :=
  (NoEntry goals ∧ closes goals = e.depth) ∨
    ∃ arguments rest, goals = .openScope arguments :: rest ∧ NoEntry rest ∧ closes rest = e.depth + 1 ∧
      ∀ a ∈ arguments, a.2.cell < e.store.cells.size

theorem Balanced.noEntry {e : Env} {g : Goal σ} {goals : List (Goal σ)} (h : Balanced e (g :: goals)) :
    NoEntry goals := by
  rcases h with ⟨hset, -⟩ | ⟨arguments, rest, heq, hset, -⟩
  · exact fun g' h' => hset g' (List.mem_cons_of_mem g h')
  · rw [(List.cons.inj heq).2]
    exact hset

namespace Resolvent

structure Shaped (r : Resolvent σ) : Prop where
  sound : r.env.Sound
  balanced : Balanced r.env r.agenda.toList

/-- What a scope is going to be opened with denotes cells. -/
theorem Shaped.entry_lt {r : Resolvent σ} (hr : r.Shaped) {arguments : List (Formal × Slot)}
    (hmem : .openScope arguments ∈ r.agenda.toList) : ∀ a ∈ arguments, a.2.cell < r.env.store.cells.size := by
  rcases hr.balanced with ⟨hset, -⟩ | ⟨arguments', rest, heq, hset, -, hargs⟩
  · exact absurd rfl (hset _ hmem arguments)
  · rw [heq] at hmem
    rcases List.mem_cons.mp hmem with hsame | hmem
    · obtain rfl := Goal.openScope.inj hsame
      exact hargs
    · exact absurd rfl (hset _ hmem arguments)

theorem closeScope_depth {e e' : Env} (h : e.closeScope = .ok e') : e.depth = e'.depth + 1 := by
  obtain ⟨outer, rest, henc, rfl⟩ := Env.closeScope_eq_ok.mp h
  rw [Env.depth, henc]
  rfl

/-- A step that opens no scope brings the branch down by the scopes that its goal closes. -/
theorem step_depth {e e' : Env} {g : Goal σ} (hb : e.Bounded) (h : (g.step e).Runs (.next e'))
    (hentry : ∀ arguments, g ≠ .openScope arguments) (goals : List (Goal σ)) :
    closes (g :: goals) + e'.depth = closes goals + e.depth := by
  have hnext := Goal.step_next hb h
  cases g with
  | openScope arguments => exact absurd rfl (hentry arguments)
  | closeScope =>
      rw [closeScope_depth hnext, closes]
      omega
  | bind p t => exact congrArg _ hnext.depth_eq
  | call name arguments => exact congrArg _ hnext.toInside.depth_eq
  | check f => exact congrArg _ hnext.toInside.depth_eq
  | action f => exact congrArg _ hnext.toInside.depth_eq

theorem resume_runs {c : Call σ} {callee : Clause σ} {r : Resolvent σ} (h : (c.resume callee).Runs r) :
    r.env = c.env.nextSerial.2 ∧ ∃ body, (callee.instantiate c.env.serial).Runs body ∧
      r.agenda.toList = .openScope (callee.formals.zip c.arguments) :: (body ++ .closeScope :: c.rest.toList) := by
  obtain ⟨body, hbody, h⟩ := h.of_bind
  cases h.of_pure
  refine ⟨rfl, body, hbody, ?_⟩
  simp only [Agenda.toList_push, List.cons_append, List.nil_append]

theorem Shaped.goal {e e' : Env} {a rest : Agenda σ} {g : Goal σ} (hr : (⟨e, a⟩ : Resolvent σ).Shaped)
    (hn : a.next? = some (g, rest)) (hstep : (g.step e).Runs (.next e')) :
    (⟨e', rest⟩ : Resolvent σ).Shaped ∧ Env.Change e e' := by
  have hlist : a.toList = g :: rest.toList := Agenda.toList_of_next? hn
  have hnext := Goal.step_next hr.sound.bounded hstep
  have hbal := hr.balanced
  simp only [hlist] at hbal
  rcases hbal with ⟨hset, hclose⟩ | ⟨arguments, rest', heq, hset, hclose, hargs⟩
  · have hrest : NoEntry rest.toList := fun g' h' => hset g' (List.mem_cons_of_mem g h')
    have hinside (hin : e.Inside e') (hc : closes rest.toList = e.depth) :
        (⟨e', rest⟩ : Resolvent σ).Shaped ∧ Env.Change e e' :=
      ⟨⟨hin.sound hr.sound, .inl ⟨hrest, hc.trans hin.depth_eq.symm⟩⟩, .inside hin⟩
    cases g with
    | openScope arguments => exact absurd rfl (hset _ List.mem_cons_self arguments)
    | closeScope =>
        have hc : Env.Change e e' := .closed hnext
        have hdepth : e.depth = e'.depth + 1 := closeScope_depth hnext
        refine ⟨⟨hc.sound hr.sound, .inl ⟨hrest, ?_⟩⟩, hc⟩
        simp only [closes] at hclose
        change closes rest.toList = e'.depth
        have hclose' : closes rest.toList + 1 = e.depth := hclose
        omega
    | bind p t => exact hinside hnext hclose
    | call name arguments => exact hinside hnext.toInside hclose
    | check f => exact hinside hnext.toInside hclose
    | action f => exact hinside hnext.toInside hclose
  · obtain ⟨rfl, hrest⟩ := List.cons.inj heq
    have hopen : e' = e.openScope arguments := hnext
    subst hopen
    have hc : Env.Change e (e.openScope arguments) := .opened hargs
    refine ⟨⟨hc.sound hr.sound, .inl ?_⟩, hc⟩
    rw [hrest]
    exact ⟨hset, hclose⟩

/-- The goals that a call is replaced with open a scope for the callee's body and close it after it. -/
theorem balanced_called {e e' : Env} {name : String} {terms : List (Term σ)} {goals body : List (Goal σ)}
    {arguments : List (Formal × Slot)} (h : Balanced e (.call name terms :: goals)) (hdepth : e'.depth = e.depth)
    (hbody : ∀ g ∈ body, g.Authored) (hargs : ∀ a ∈ arguments, a.2.cell < e'.store.cells.size) :
    Balanced e' (.openScope arguments :: (body ++ .closeScope :: goals)) := by
  rcases h with ⟨hset, hclose⟩ | ⟨arguments', rest', heq, -⟩
  · refine .inr ⟨arguments, _, rfl, ?_, ?_, hargs⟩
    · intro g hg arguments heq
      subst heq
      rcases List.mem_append.mp hg with hg | hg
      · exact hbody _ hg
      · rcases List.mem_cons.mp hg with hg | hg
        · cases hg
        · exact hset _ (List.mem_cons_of_mem _ hg) arguments rfl
    · have hclose' : closes goals = e.depth := hclose
      rw [closes_append, closes_authored hbody, Nat.zero_add, closes, hclose', hdepth]
  · cases heq

theorem Shaped.call {e e' : Env} {a rest : Agenda σ} {g : Goal σ} {name : String} {slots : List Slot}
    {callee : Clause σ} {r : Resolvent σ} (hr : (⟨e, a⟩ : Resolvent σ).Shaped) (hn : a.next? = some (g, rest))
    (hstep : (g.step e).Runs (.call name slots e')) (hauth : callee.Authored)
    (hresume : ((⟨name, slots, e', rest⟩ : Call σ).resume callee).Runs r) :
    r.Shaped ∧ Env.Change e r.env := by
  have hlist : a.toList = g :: rest.toList := Agenda.toList_of_next? hn
  obtain ⟨⟨terms, rfl⟩, hquiet, hslots⟩ := Goal.step_call hr.sound.bounded hstep
  obtain ⟨henv, body, hbody, hagenda⟩ := resume_runs hresume
  have hin : e.Inside r.env := by
    rw [henv]
    exact hquiet.toInside.trans (.nextSerial e')
  have hbal := hr.balanced
  simp only [hlist] at hbal
  refine ⟨⟨hin.sound hr.sound, ?_⟩, .inside hin⟩
  rw [hagenda]
  apply balanced_called hbal hin.depth_eq (hauth _ body hbody)
  intro a ha
  rw [henv]
  exact hslots a.2 (List.of_mem_zip ha).2

/-- A step keeps the shape, and does to the environment what one goal may do. -/
theorem Step.shaped {r r' : Resolvent σ} (h : Step r r') (hr : r.Shaped) :
    r'.Shaped ∧ Env.Change r.env r'.env := by
  cases h with
  | goal hn hstep => exact hr.goal hn hstep
  | call hn hstep hauth _ hresume => exact hr.call hn hstep hauth hresume

theorem Trail.shaped {r r' : Resolvent σ} (h : Trail r r') (hr : r.Shaped) : r'.Shaped := by
  induction h with
  | refl => exact hr
  | tail _ hstep ih => exact (hstep.shaped ih).1

/-- No scope but the query's own is open when all goals are done. -/
theorem Shaped.depth_eq_zero {r : Resolvent σ} (hr : r.Shaped) (h : r.agenda.toList = []) : r.env.depth = 0 := by
  rcases hr.balanced with ⟨-, hclose⟩ | ⟨arguments, rest, heq, -⟩
  · rw [h] at hclose
    exact hclose.symm
  · rw [h] at heq
    cases heq

theorem Within.above {b r : Resolvent σ} {k : Nat} (h : Within k b r) (hb : b.Shaped) (hk : b.env.depth = k) :
    ∃ inner sc, b.env.Above inner sc r.env := by
  induction h with
  | refl => exact ⟨[], _, .refl b.env⟩
  | tail hpre hstep ih =>
      obtain ⟨inner, sc, h⟩ := ih
      have hr := (Within.trail hpre).shaped hb
      obtain ⟨-, hchange⟩ := hstep.1.shaped hr
      obtain ⟨inner', sc', h', -⟩ := h.change hr.sound hchange (hk ▸ hstep.2)
      exact ⟨inner', sc', h'⟩

theorem ofQuery_runs {c : Clause σ} {actuals : List Actual} {r : Resolvent σ} (h : (ofQuery c actuals).Runs r) :
    ∃ slots n body, Env.Seated actuals slots r.env.store ∧ c.formals.length = actuals.length ∧
      r.env.scope = ⟨c.formals.zip slots, [], ⟨0, 0⟩⟩ ∧ r.env.enclosing = [] ∧ r.env.Sound ∧
      (c.instantiate n).Runs body ∧ r.agenda.toList = body := by
  obtain ⟨e, he, h⟩ := h.of_bind
  obtain ⟨body, hbody, h⟩ := h.of_bind
  cases h.of_pure
  have hok := he.of_lift
  obtain ⟨slots, hs, hlen, hscope, henc⟩ := Env.ofQuery_ok hok
  exact ⟨slots, e.serial, body, hs, hlen, hscope, henc, (Env.Inside.nextSerial e).sound (Env.ofQuery_sound hok), hbody,
    Agenda.toList_ofList body⟩

end Resolvent
end Clausal
