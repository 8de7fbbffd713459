import Clausal.Proofs.SearchOrder
import Clausal.Proofs.Trail

/-! Where items come from. Whatever the source, its callbacks and the host do, an answer is read off a branch
that has come to its end. A failure is a cancellation, or it was raised by the source, by a factory of one of its
clauses, or by a goal that a branch has come to. Nothing is asked of the source. -/
namespace Clausal

variable {σ : Type} {α β : Type}

namespace Engine

variable {x : Engine σ α} {k : α → Engine σ β} {w w' : World σ} {f : Failure}

theorem bind_fails (h : ExceptT.run (x >>= k) w = (.error f, w')) : ExceptT.run x w = (.error f, w') ∨
    ∃ a w₁, ExceptT.run x w = (.ok a, w₁) ∧ ExceptT.run (k a) w₁ = (.error f, w') := by
  rw [run_bind] at h
  generalize hx : ExceptT.run x w = p at h
  obtain ⟨r, w₁⟩ := p
  cases r with
  | error f' =>
      cases h
      exact .inl rfl
  | ok a => exact .inr ⟨a, w₁, rfl, h⟩

/-- Two computations that succeed one after the other. -/
theorem bind_succeeds {b : β} (h : ExceptT.run (x >>= k) w = (.ok b, w')) :
    ∃ a w₁, ExceptT.run x w = (.ok a, w₁) ∧ ExceptT.run (k a) w₁ = (.ok b, w') := by
  rw [run_bind] at h
  rcases hx : ExceptT.run x w with ⟨f | a, w₁⟩
  · rw [hx] at h
    cases h
  · rw [hx] at h
    exact ⟨a, w₁, rfl, h⟩

theorem bind_of_ok {a : α} {w₁ : World σ} (h : ExceptT.run x w = (.ok a, w₁)) :
    ExceptT.run (x >>= k) w = ExceptT.run (k a) w₁ := by
  rw [run_bind, h]

/-- The computation succeeds in all worlds. -/
def NeverFails (x : Engine σ α) : Prop := ∀ w f w', ExceptT.run x w ≠ (.error f, w')

theorem neverFails_pure (a : α) : NeverFails (pure a : Engine σ α) := fun _ _ _ h => by cases h

theorem neverFails_emit (e : Event) : NeverFails (emit e : Engine σ Unit) := fun _ _ _ h => by cases h

theorem NeverFails.bind (hx : NeverFails x) (hk : ∀ a, NeverFails (k a)) : NeverFails (x >>= k) := by
  intro w f w' h
  rcases bind_fails h with h | ⟨a, w₁, -, h⟩
  · exact hx w f w' h
  · exact hk a w₁ f w' h

/-- If the second computation never fails, the first one has failed. -/
theorem first_fails (hk : ∀ a, NeverFails (k a)) (h : ExceptT.run (x >>= k) w = (.error f, w')) :
    ExceptT.run x w = (.error f, w') := by
  rcases bind_fails h with h | ⟨a, w₁, -, h⟩
  · exact h
  · exact absurd h (hk a w₁ f w')

theorem lift_fails {r : Except Error α} (h : ExceptT.run (lift r : Engine σ α) w = (.error f, w')) :
    ∃ e, r = .error e ∧ f = .error e := by
  rw [run_lift] at h
  cases r with
  | ok a => cases h
  | error e =>
      cases h
      exact ⟨e, rfl, rfl⟩

theorem perform_fails {act : Effect σ α} (h : ExceptT.run (perform act) w = (.error f, w')) :
    (act w.host).result = .error f := by
  rw [run_perform] at h
  exact (Prod.mk.inj h).1

theorem checkpoint_fails {t : Token} (h : ExceptT.run (checkpoint t : Engine σ Unit) w = (.error f, w')) :
    f = .error .cancelled := by
  rw [run_checkpoint] at h
  split at h
  · cases h
    rfl
  · cases h

end Engine

/-- The callback of a map, applied to what it reads, and the type that it has to answer with. -/
def Term.callback? (e : Env) : Term σ → Option (Ty × Effect σ Value)
  | .map ty (.scope f) => some (ty, f e.view)
  | .map ty (.source p f) =>
    match e.read p with
    | .ok (v, _) => some (ty, f v)
    | .error _ => none
  | .constant _ _ | .param _ => none

/-- How a goal fails. What a binding or a call evaluates has failed, or a callback, or there is no scope to close. -/
theorem Goal.step_fails {g : Goal σ} {e : Env} {w w' : World σ} {f : Failure}
    (h : ExceptT.run (g.step e) w = (.error f, w')) :
    match g with
    | .bind p t => ExceptT.run (e.solveBind p t) w = (.error f, w')
    | .call _ arguments => ExceptT.run (e.passAll arguments) w = (.error f, w')
    | .check act => (act e.view w.host).result = .error f
    | .action act => (act e.view w.host).result = .error f
    | .openScope _ => False
    | .closeScope => ∃ err, e.closeScope = .error err ∧ f = .error err := by
  cases g with
  | bind p t =>
      refine Engine.first_fails (fun o => ?_) h
      cases o with
      | some e₁ => exact Engine.neverFails_pure _
      | none => exact (Engine.neverFails_emit _).bind fun _ => Engine.neverFails_pure _
  | call name arguments => exact Engine.first_fails (fun _ => Engine.neverFails_pure _) h
  | check act =>
      refine Engine.perform_fails (Engine.first_fails (fun b => ?_) h)
      cases b with
      | true => exact Engine.neverFails_pure _
      | false => exact (Engine.neverFails_emit _).bind fun _ => Engine.neverFails_pure _
  | action act => exact Engine.perform_fails (Engine.first_fails (fun _ => Engine.neverFails_pure _) h)
  | openScope arguments =>
      have henter : (e.enter arguments : Engine σ Env).NeverFails :=
        (Engine.neverFails_emit _).bind fun _ => Engine.neverFails_pure _
      exact (henter.bind fun _ => Engine.neverFails_pure _) w f w' h
  | closeScope =>
      have hleft := Engine.first_fails (fun _ => Engine.neverFails_pure _) h
      exact Engine.lift_fails (Engine.first_fails
        (fun _ => (Engine.neverFails_emit _).bind fun _ => Engine.neverFails_pure _) hleft)

/-- How a term fails: it reads a parameter that it cannot read, or its callback fails, or answers with a value that is
not of the type asked for. -/
inductive Term.Fails (t : Term σ) (e : Env) (w : World σ) : Failure → Prop where
  | read {p : Param} {err : Error} : e.read p = .error err → t.Fails e w (.error err)
  | callback {ty : Ty} {act : Effect σ Value} {f : Failure} : t.callback? e = some (ty, act) →
      (act w.host).result = .error f → t.Fails e w f
  | mistyped {ty : Ty} {act : Effect σ Value} {v : Value} {err : Error} : t.callback? e = some (ty, act) →
      (act w.host).result = .ok v → ty.ensure v = .error err → t.Fails e w (.error err)

/-- How a binding fails: a parameter does not resolve, or the term fails, or the sides cannot be brought together. -/
inductive Env.BindFails (e : Env) (p : Param) (t : Term σ) (w : World σ) : Failure → Prop where
  | resolve {e₁ : Env} {q : Param} {err : Error} : e₁.resolve q = .error err → BindFails e p t w (.error err)
  | term {target : Resolved} {e₁ : Env} {f : Failure} : e.resolve p = .ok (target, e₁) → t.Fails e₁ w f →
      BindFails e p t w f
  | equate {target source : Resolved} {e₁ e₂ : Env} {q : Param} {err : Error} : e.resolve p = .ok (target, e₁) →
      t = .param q → e₁.resolve q = .ok (source, e₂) → e₂.equate target source = .error err →
        BindFails e p t w (.error err)
  | assign {target : Resolved} {e₁ e₂ : Env} {v : Value} {err : Error} : e.resolve p = .ok (target, e₁) →
      (∀ q, t ≠ .param q) → (t.evaluate e₁).Runs (v, e₂) → e₂.assign target v = .error err →
        BindFails e p t w (.error err)

section Failing

variable {e : Env} {w w' : World σ} {f : Failure}

theorem Term.evaluate_fails {t : Term σ} (h : ExceptT.run (t.evaluate e) w = (.error f, w')) : t.Fails e w f := by
  have happly {t : Term σ} {ty : Ty} {act : Effect σ Value} {e₁ : Env} (hcallback : t.callback? e = some (ty, act))
      (h : ExceptT.run (do
        let v ← Engine.perform act
        return (← Engine.lift (ty.ensure v), e₁) : Engine σ (Value × Env)) w = (.error f, w')) : t.Fails e w f := by
    rcases Engine.bind_fails h with h | ⟨v, w₁, hv, h⟩
    · exact .callback hcallback (Engine.perform_fails h)
    · obtain ⟨err, herr, rfl⟩ := Engine.lift_fails (Engine.first_fails (fun _ => Engine.neverFails_pure _) h)
      rw [Engine.run_perform] at hv
      exact .mistyped hcallback (Prod.mk.inj hv).1 herr
  cases t with
  | constant ty v => exact absurd h (Engine.neverFails_pure _ w _ w')
  | param p =>
      obtain ⟨err, herr, rfl⟩ := Engine.lift_fails h
      exact .read herr
  | map ty s =>
      cases s with
      | scope act => exact happly rfl h
      | source p act =>
          rcases Engine.bind_fails h with hread | ⟨⟨v, e₁⟩, w₁, hread, hmap⟩
          · obtain ⟨err, herr, rfl⟩ := Engine.lift_fails hread
            exact .read herr
          · have hok : e.read p = .ok (v, e₁) := Engine.Runs.of_lift ⟨_, _, hread⟩
            rw [Engine.run_lift] at hread
            obtain ⟨-, rfl⟩ := Prod.mk.inj hread
            refine happly ?_ hmap
            simp only [Term.callback?, hok]

/-- The arguments before the one that fails have been passed. -/
theorem Env.passAll_fails {ts : List (Term σ)} (h : ExceptT.run (e.passAll ts) w = (.error f, w')) :
    ∃ before t after slots e' w₁, ts = before ++ t :: after ∧
      ExceptT.run (e.passAll before) w = (.ok (slots, e'), w₁) ∧ ExceptT.run (e'.pass t) w₁ = (.error f, w') := by
  induction ts generalizing e w with
  | nil => exact absurd h (Engine.neverFails_pure _ w _ w')
  | cons t ts ih =>
      rcases Engine.bind_fails h with h | ⟨⟨slot, e₁⟩, w₁, hpass, h⟩
      · exact ⟨[], t, ts, [], e, w, rfl, rfl, h⟩
      · obtain ⟨before, u, after, slots, e₂, w₂, rfl, hbefore, hu⟩ :=
          ih (Engine.first_fails (fun _ => Engine.neverFails_pure _) h)
        refine ⟨t :: before, u, after, slot :: slots, e₂, w₂, rfl, ?_, hu⟩
        rw [Env.passAll, Engine.bind_of_ok hpass, Engine.bind_of_ok hbefore]
        rfl

theorem Env.solveBind_fails {p : Param} {t : Term σ} (h : ExceptT.run (e.solveBind p t) w = (.error f, w')) :
    e.BindFails p t w f := by
  rcases Engine.bind_fails h with hp | ⟨⟨target, e₁⟩, w₁, hp, hrest⟩
  · obtain ⟨err, herr, rfl⟩ := Engine.lift_fails hp
    exact .resolve herr
  have hok : e.resolve p = .ok (target, e₁) := Engine.Runs.of_lift ⟨_, _, hp⟩
  rw [Engine.run_lift] at hp
  obtain ⟨-, rfl⟩ := Prod.mk.inj hp
  have hvalue (hne : ∀ q, t ≠ .param q)
      (h : ExceptT.run (t.evaluate e₁ >>= fun q => Engine.lift (q.2.assign target q.1)) w = (.error f, w')) :
      e.BindFails p t w f := by
    rcases Engine.bind_fails h with h | ⟨⟨v, e₂⟩, w₂, hv, h⟩
    · exact .term hok (Term.evaluate_fails h)
    · obtain ⟨err, herr, rfl⟩ := Engine.lift_fails h
      exact .assign hok hne ⟨_, _, hv⟩ herr
  cases t with
  | param q =>
      rcases Engine.bind_fails hrest with h | ⟨⟨source, e₂⟩, w₂, hq, h⟩
      · obtain ⟨err, herr, rfl⟩ := Engine.lift_fails h
        exact .resolve herr
      · obtain ⟨err, herr, rfl⟩ := Engine.lift_fails h
        exact .equate hok rfl (Engine.Runs.of_lift ⟨_, _, hq⟩) herr
  | constant ty v => exact hvalue (fun _ hq => by cases hq) hrest
  | map ty s => exact hvalue (fun _ hq => by cases hq) hrest

end Failing

/-- The branch stops at this call. -/
def Resolvent.StopsAt (r : Resolvent σ) (stopped : Call σ) : Prop :=
  ∃ g, r.agenda.next? = some (g, stopped.rest) ∧
    (g.step r.env).Runs (.call stopped.name stopped.arguments stopped.env)

namespace Source

/-- The source may hand out this clause. -/
def Offers (src : Source σ) (c : Clause σ) : Prop :=
  ∃ name cancelled host clauses, (src.lookup name cancelled host).result = .ok clauses ∧ c ∈ clauses

/-- What branches of a query come to, goal by goal, with clauses that the source may hand out. -/
inductive Reaches (src : Source σ) (actuals : List Actual) : Resolvent σ → Prop where
  | query {c : Clause σ} {r : Resolvent σ} : src.Offers c → c.Matches actuals →
      (Resolvent.ofQuery c actuals).Runs r → Reaches src actuals r
  | goal {r : Resolvent σ} {g : Goal σ} {rest : Agenda σ} {e : Env} : Reaches src actuals r →
      r.agenda.next? = some (g, rest) → (g.step r.env).Runs (.next e) → Reaches src actuals ⟨e, rest⟩
  | call {r r' : Resolvent σ} {stopped : Call σ} {c : Clause σ} : Reaches src actuals r → r.StopsAt stopped →
      src.Offers c → c.Matches stopped.actuals → (stopped.resume c).Runs r' → Reaches src actuals r'

/-- The failures of a query, by where they come from. -/
inductive Fails (src : Source σ) (actuals : List Actual) : Failure → Prop where
  | cancelled : Fails src actuals (.error .cancelled)
  | lookup {name : String} {cancelled : Bool} {host : σ} {f : Failure} :
      (src.lookup name cancelled host).result = .error f → Fails src actuals f
  | factory {c : Clause σ} {make : Nat → Effect σ (List (Goal σ))} {n : Nat} {host : σ} {f : Failure} :
      src.Offers c → c.body = .factory make → (make n host).result = .error f → Fails src actuals f
  | goal {r : Resolvent σ} {g : Goal σ} {rest : Agenda σ} {w w' : World σ} {f : Failure} :
      src.Reaches actuals r → r.agenda.next? = some (g, rest) →
        ExceptT.run (g.step r.env) w = (.error f, w') → Fails src actuals f

variable {src : Source σ} {actuals : List Actual}

def Answers (src : Source σ) (actuals : List Actual) (a : Answer) : Prop :=
  ∃ r, src.Reaches actuals r ∧ r.agenda.toList = [] ∧ a = Answer.ofEnv r.env

def Results (src : Source σ) (actuals : List Actual) : Except Failure (Outcome σ) → Prop
  | .error f => src.Fails actuals f
  | .ok (.complete e) => ∃ a : Agenda σ, a.toList = [] ∧ src.Reaches actuals ⟨e, a⟩
  | .ok .failed => True
  | .ok (.suspended stopped) => ∃ r, src.Reaches actuals r ∧ r.StopsAt stopped

theorem Reaches.solve {e : Env} {a : Agenda σ} (hr : src.Reaches actuals ⟨e, a⟩) {w w' : World σ}
    {o : Except Failure (Outcome σ)} (h : ExceptT.run (Resolvent.solve e a) w = (o, w')) :
    src.Results actuals o := by
  induction hl : a.toList generalizing e a w with
  | nil =>
      rw [Resolvent.solve_nil hl] at h
      cases h
      exact ⟨a, hl, hr⟩
  | cons g goals ih =>
      obtain ⟨rest, hnext, hrest⟩ := Agenda.next?_of_cons hl
      rw [Resolvent.solve_cons hnext, Engine.bind_of_ok (Engine.run_emit _ _), Engine.run_bind] at h
      generalize hstep : ExceptT.run (g.step e) _ = p at h
      obtain ⟨s, w₁⟩ := p
      cases s with
      | error f =>
          cases h
          exact .goal hr hnext hstep
      | ok s =>
          cases s with
          | next e' => exact ih (.goal hr hnext ⟨_, _, hstep⟩) h hrest
          | failed =>
              cases h
              trivial
          | call name slots e' =>
              cases h
              exact ⟨_, hr, g, hnext, _, _, hstep⟩

/-- Only a factory can fail to make a body. -/
theorem instantiate_fails {c : Clause σ} (hc : src.Offers c) {n : Nat} {w w' : World σ} {f : Failure}
    (h : ExceptT.run (c.instantiate n) w = (.error f, w')) : src.Fails actuals f := by
  unfold Clause.instantiate at h
  cases hbody : c.body with
  | fixed goals =>
      rw [hbody] at h
      cases h
  | factory make =>
      rw [hbody] at h
      exact .factory hc hbody (Engine.perform_fails h)

end Source

theorem Database.mem_of_offers {d : Database σ} {c : Clause σ} (h : d.source.Offers c) : c ∈ d.clauses := by
  obtain ⟨name, cancelled, host, clauses, hclauses, hmem⟩ := h
  cases cancelled with
  | true => cases hclauses
  | false =>
      cases hclauses
      exact (List.mem_filter.mp hmem).1

namespace Pending

variable {src : Source σ} {actuals : List Actual}

/-- The query, or a call that one of its branches has stopped at. -/
def From (src : Source σ) (actuals : List Actual) : Pending σ → Prop
  | .query _ as => as = actuals
  | .call stopped => ∃ r, src.Reaches actuals r ∧ r.StopsAt stopped

theorem From.branch {p : Pending σ} (hp : p.From src actuals) {c : Clause σ} (hc : src.Offers c)
    (hmatch : c.Matches p.actuals) {r : Resolvent σ} (h : (p.branch c).Runs r) : src.Reaches actuals r := by
  cases p with
  | query name as =>
      obtain rfl : as = actuals := hp
      exact .query hc hmatch h
  | call stopped =>
      obtain ⟨r₀, hr₀, hstops⟩ := hp
      exact .call hr₀ hstops hc hmatch h

theorem From.branch_fails {p : Pending σ} {c : Clause σ} (hc : src.Offers c) (hmatch : c.Matches p.actuals)
    {w w' : World σ} {f : Failure} (h : ExceptT.run (p.branch c) w = (.error f, w')) : src.Fails actuals f := by
  cases p with
  | query name as =>
      rcases Engine.bind_fails h with h | ⟨e, w₁, he, h⟩
      · obtain ⟨err, herr, -⟩ := Engine.lift_fails h
        have hlen : c.formals.length = as.length := hmatch.1
        unfold Env.ofQuery at herr
        rw [if_pos hlen] at herr
        cases herr
      · exact Source.instantiate_fails hc (Engine.first_fails (fun _ => Engine.neverFails_pure _) h)
  | call stopped => exact Source.instantiate_fails hc (Engine.first_fails (fun _ => Engine.neverFails_pure _) h)

theorem From.solve {p : Pending σ} (hp : p.From src actuals) {c : Clause σ} (hc : src.Offers c)
    (hmatch : c.Matches p.actuals) {w w' : World σ} {o : Except Failure (Outcome σ)}
    (h : ExceptT.run (p.solve c) w = (o, w')) : src.Results actuals o := by
  unfold Pending.solve at h
  rw [Engine.run_bind] at h
  generalize hbranch : ExceptT.run (p.branch c) w = x at h
  obtain ⟨r, w₁⟩ := x
  cases r with
  | error f =>
      cases h
      exact From.branch_fails hc hmatch hbranch
  | ok r => exact (hp.branch hc hmatch ⟨_, _, hbranch⟩).solve h

end Pending

theorem nextMatch_runs {t : Token} {actuals : List Actual} {clauses rest : List (Clause σ)} {c : Clause σ}
    (h : (nextMatch t actuals clauses).Runs (some (c, rest))) :
    c ∈ clauses ∧ c.Matches actuals ∧ ∀ x ∈ rest, x ∈ clauses := by
  induction clauses with
  | nil => cases h.of_pure
  | cons x clauses ih =>
      rw [nextMatch] at h
      obtain ⟨_, -, h⟩ := h.of_bind
      by_cases hx : x.Matches actuals
      · rw [if_pos hx] at h
        cases h.of_pure
        exact ⟨List.mem_cons_self, hx, fun y hy => List.mem_cons_of_mem _ hy⟩
      · rw [if_neg hx] at h
        obtain ⟨_, -, h⟩ := h.of_bind
        obtain ⟨hmem, hmatch, hrest⟩ := ih h
        exact ⟨List.mem_cons_of_mem x hmem, hmatch, fun y hy => List.mem_cons_of_mem x (hrest y hy)⟩

theorem nextMatch_fails {t : Token} {actuals : List Actual} {clauses : List (Clause σ)} {w w' : World σ} {f : Failure}
    (h : ExceptT.run (nextMatch t actuals clauses) w = (.error f, w')) : f = .error .cancelled := by
  induction clauses generalizing w with
  | nil => exact absurd h (Engine.neverFails_pure _ w f w')
  | cons x clauses ih =>
      rw [nextMatch] at h
      rcases Engine.bind_fails h with h | ⟨_, w₁, -, h⟩
      · exact Engine.checkpoint_fails h
      by_cases hx : x.Matches actuals
      · rw [if_pos hx] at h
        exact absurd h (Engine.neverFails_pure _ w₁ f w')
      · rw [if_neg hx] at h
        rcases Engine.bind_fails h with h | ⟨_, _, -, h⟩
        · exact absurd h (Engine.neverFails_emit _ w₁ f w')
        · exact ih h

namespace Search

variable {src : Source σ} {actuals : List Actual}

/-- All that waits in a search has been reached, and all clauses still to try come from the source. -/
structure From (src : Source σ) (actuals : List Actual) (s : Search σ) : Prop where
  source_eq : s.source = src
  queue : ∀ p ∈ s.queue, p.From src actuals
  current : ∀ a, s.current = some a → a.origin.From src actuals ∧ ∀ c ∈ a.clauses, src.Offers c

def Turn.From (src : Source σ) (actuals : List Actual) : Turn → Prop
  | .answered a => src.Answers actuals a
  | .stopped f => src.Fails actuals f
  | .running | .exhausted => True

def Item.From (src : Source σ) (actuals : List Actual) : Item → Prop
  | .answer a => src.Answers actuals a
  | .failed e => src.Fails actuals (.error e)
  | .crashed c => src.Fails actuals (.crash c)
  | .ended | .unfinished => True

theorem From.advance {s : Search σ} (hs : s.From src actuals) {a : Alternatives σ}
    (ho : a.origin.From src actuals) (hc : ∀ c ∈ a.clauses, src.Offers c) (w : World σ) :
    (s.advance a w).1.2.From src actuals ∧ Turn.From src actuals (s.advance a w).1.1 := by
  unfold Search.advance
  cases hm : ExceptT.run (nextMatch s.token a.origin.actuals a.clauses) w with
  | mk r w' =>
  cases r with
  | error f =>
      obtain rfl := nextMatch_fails hm
      exact ⟨hs, .cancelled⟩
  | ok found =>
  cases found with
  | none => exact ⟨⟨hs.source_eq, hs.queue, fun _ h => absurd h (Option.some_ne_none _).symm⟩, trivial⟩
  | some p =>
      obtain ⟨c, rest⟩ := p
      obtain ⟨hmem, hmatch, hrest⟩ := nextMatch_runs ⟨w, w', hm⟩
      have hleft : ({ s with current := some { a with clauses := rest } } : Search σ).From src actuals := by
        refine ⟨hs.source_eq, hs.queue, fun b hb => ?_⟩
        cases hb
        exact ⟨ho, fun x hx => hc x (hrest x hx)⟩
      simp only
      cases hsolve : ExceptT.run (a.origin.solve c) w' with
      | mk r w'' =>
      have hresult := ho.solve (hc c hmem) hmatch hsolve
      cases r with
      | error f => exact ⟨hleft, hresult⟩
      | ok o =>
          cases o with
          | failed => exact ⟨hleft, trivial⟩
          | complete e =>
              obtain ⟨agenda, hnil, hreaches⟩ := hresult
              exact ⟨hleft, ⟨e, agenda⟩, hreaches, hnil, rfl⟩
          | suspended stopped =>
              refine ⟨⟨hs.source_eq, fun p hp => ?_, hleft.current⟩, trivial⟩
              rcases List.mem_append.mp hp with hp | hp
              · exact hs.queue p hp
              · obtain rfl := List.mem_singleton.mp hp
                exact hresult

theorem From.turn {s : Search σ} (hs : s.From src actuals) (w : World σ) :
    (s.turn w).1.2.From src actuals ∧ Turn.From src actuals (s.turn w).1.1 := by
  unfold Search.turn
  by_cases ht : s.token ∈ w.cancelled
  · rw [if_pos ht]
    exact ⟨hs, .cancelled⟩
  rw [if_neg ht]
  cases hcur : s.current with
  | some a =>
      obtain ⟨ho, hc⟩ := hs.current a hcur
      exact hs.advance ho hc w
  | none =>
  cases hq : s.queue with
  | nil => exact ⟨hs, trivial⟩
  | cons p rest =>
      have hpop : ({ s with queue := rest } : Search σ).From src actuals :=
        ⟨hs.source_eq, fun p' h => hs.queue p' (hq ▸ List.mem_cons_of_mem p h), hs.current⟩
      rw [hcur] at hpop
      simp only
      cases hl : ExceptT.run (s.source.clauses p.name s.token) w with
      | mk r w' =>
      rw [hs.source_eq] at hl
      cases r with
      | error f =>
          refine ⟨hpop, ?_⟩
          rcases Engine.bind_fails hl with h | ⟨b, w₁, -, h⟩
          · rw [Engine.run_isCancelled] at h
            cases h
          · exact .lookup (Engine.perform_fails h)
      | ok clauses =>
          have hoffers : ∀ c ∈ clauses, src.Offers c := by
            obtain ⟨b, -, hperform⟩ := Engine.Runs.of_bind ⟨w, w', hl⟩
            obtain ⟨host, hhost⟩ := hperform.of_perform
            exact fun c hc => ⟨p.name, b, host, clauses, hhost, hc⟩
          have ho := hs.queue p (hq ▸ List.mem_cons_self)
          exact hpop.advance (a := ⟨p, clauses⟩) ho hoffers w'

theorem From.next {turns : Nat} {s s' : Search σ} (hs : s.From src actuals) {w w' : World σ} {item : Item}
    (h : next turns s w = ((item, s'), w')) : s'.From src actuals ∧ Item.From src actuals item := by
  induction turns generalizing s w with
  | zero =>
      cases h
      exact ⟨hs, trivial⟩
  | succ turns ih =>
      rw [Search.next] at h
      by_cases hd : s.done
      · rw [if_pos hd] at h
        cases h
        exact ⟨hs, trivial⟩
      rw [if_neg hd] at h
      obtain ⟨hfrom, hturn⟩ := hs.turn w
      have hclosed {s₁ : Search σ} (hs₁ : s₁.From src actuals) : s₁.close.From src actuals :=
        ⟨hs₁.source_eq, fun _ h => absurd h List.not_mem_nil, fun _ h => absurd h (Option.some_ne_none _).symm⟩
      generalize s.turn w = x at h hfrom hturn
      obtain ⟨⟨t, s₁⟩, w₁⟩ := x
      cases t with
      | running => exact ih hfrom h
      | answered a =>
          cases h
          exact ⟨hfrom, hturn⟩
      | exhausted =>
          cases h
          exact ⟨hclosed hfrom, trivial⟩
      | stopped f =>
          cases f with
          | error e =>
              cases h
              exact ⟨hclosed hfrom, hturn⟩
          | crash c =>
              cases h
              exact ⟨hfrom, hturn⟩

/-- Every item of a search has a branch, the source, a factory or a cancellation behind it. -/
theorem items_from {name : String} {t : Token} {s s' : Search σ} (hstart : start src name actuals t = .ok s)
    {w w' : World σ} {items : List Item} (h : Calls s w items s' w') :
    ∀ item ∈ items, Item.From src actuals item := by
  have hs : s.From src actuals := by
    unfold start at hstart
    split at hstart
    · cases hstart
    · cases hstart
      refine ⟨rfl, fun p hp => ?_, fun _ h => absurd h (Option.some_ne_none _).symm⟩
      obtain rfl := List.mem_singleton.mp hp
      rfl
  clear hstart
  induction h with
  | nil => exact fun _ h => absurd h List.not_mem_nil
  | cons turns hnext _ _ ih =>
      obtain ⟨hfrom, hitem⟩ := hs.next hnext
      intro item hmem
      rcases List.mem_cons.mp hmem with rfl | hmem
      · exact hitem
      · exact ih hfrom item hmem

end Search
end Clausal
