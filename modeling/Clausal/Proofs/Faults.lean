import Clausal.Proofs.Answers

/-! Faults of the engine's own. Some errors tell of a mistake in the engine itself: a bound class that is bound again,
an argument list of the wrong length, a signature that does not hold, a scope that is closed but not open. Main
statement: no search yields any of these unless a callback, a factory or the source has raised it, and the scope goals
that a branch has left are in balance with the scopes that are open. -/
namespace Clausal

variable {σ α : Type}

namespace Error

/-- Errors that solving a goal may come to. -/
def Foreseen : Error → Prop
  | .unknownParameter _ | .unbound _ | .typeMismatch _ _ => True
  | .invalidCall _ | .invalidClause _ _ | .invalidGoal _ | .ambiguousParameter _ | .alreadyBound | .cancelled => False

/-- Errors that would tell of a mistake in the engine. -/
def Internal : Error → Prop
  | .alreadyBound | .invalidCall _ | .invalidClause _ _ | .invalidGoal _ => True
  | .unknownParameter _ | .ambiguousParameter _ | .unbound _ | .typeMismatch _ _ | .cancelled => False

theorem Internal.not_foreseen {e : Error} (h : e.Internal) : ¬e.Foreseen := by
  cases e with
  | invalidCall fault => exact id
  | invalidClause name fault => exact id
  | invalidGoal fault => exact id
  | alreadyBound => exact id
  | unknownParameter name => exact h.elim
  | ambiguousParameter name => exact h.elim
  | unbound name => exact h.elim
  | typeMismatch expected found => exact h.elim
  | cancelled => exact h.elim

end Error

def Failure.Foreseen : Failure → Prop
  | .error e => e.Foreseen
  | .crash _ => False

section Foreseen

variable {err : Error}

theorem Ty.ensure_foreseen {ty : Ty} {v : Value} (h : ty.ensure v = .error err) : err.Foreseen := by
  unfold Ty.ensure at h
  split at h
  · cases h
  · cases h
    trivial

namespace Store

variable {s t : Store}

/-- A class is asked for its value before it is bound, so it is never bound twice. -/
theorem bindOrCheck_foreseen {c : Nat} {v : Value} (h : s.bindOrCheck c v = (.error err, t)) : err.Foreseen := by
  unfold bindOrCheck bindValue at h
  cases hv : s.value c with
  | some w =>
      rw [hv] at h
      cases h
  | none =>
      rw [hv] at h
      by_cases hacc : (s.ty c).Accepts v.ty
      · simp only [if_pos hacc] at h
        cases h
      · simp only [if_neg hacc] at h
        cases h
        trivial

theorem merge_foreseen {a b : Nat} (h : s.merge a b = (.error err, t)) : err.Foreseen := by
  unfold merge at h
  split at h
  · cases h
    trivial
  · simp only at h
    split at h
    · cases h
    · split at h
      · cases h
      · cases h
        trivial

theorem unify_foreseen {a b : Nat} (h : s.unify a b = (.error err, t)) : err.Foreseen := by
  unfold Store.unify at h
  split at h
  · cases h
  · split at h
    · cases h
    · exact merge_foreseen h

end Store

namespace Env

variable {e : Env}

theorem resolve_foreseen {p : Param} (h : e.resolve p = .error err) : err.Foreseen := by
  unfold Env.resolve at h
  split at h
  · cases h
  · cases h
    trivial
  · cases h

theorem read_foreseen {p : Param} (h : e.read p = .error err) : err.Foreseen := by
  rcases Except.bind_eq_error h with h | ⟨⟨r, e₁⟩, -, h⟩
  · exact resolve_foreseen h
  · simp only at h
    cases hv : e₁.store.value r.slot.cell with
    | none =>
        rw [hv] at h
        cases h
        trivial
    | some v =>
        rw [hv] at h
        cases h

theorem addLiteral_foreseen {ty : Ty} {v : Value} (h : e.addLiteral ty v = .error err) : err.Foreseen := by
  rcases Except.bind_eq_error h with h | ⟨a, -, h⟩
  · unfold Actual.input? at h
    split at h
    · cases h
    · cases h
      trivial
  · cases h

theorem checkDeclared_foreseen {r : Resolved} (h : e.checkDeclared r = .error err) : err.Foreseen := by
  unfold checkDeclared at h
  split at h
  · split at h
    · cases h
    · cases h
      trivial
  · cases h

theorem equate_foreseen {target source : Resolved} (h : e.equate target source = .error err) : err.Foreseen := by
  unfold equate at h
  rcases hu : e.store.unify target.slot.cell source.slot.cell with ⟨r, s⟩
  rw [hu] at h
  rcases r with err' | b
  · cases h
    exact Store.unify_foreseen hu
  cases b with
  | false => cases h
  | true =>
      rcases Except.bind_eq_error h with h | ⟨_, -, h⟩
      · exact checkDeclared_foreseen h
      rcases Except.bind_eq_error h with h | ⟨_, -, h⟩
      · exact checkDeclared_foreseen h
      · cases h

theorem assign_foreseen {target : Resolved} {v : Value} (h : e.assign target v = .error err) : err.Foreseen := by
  unfold assign at h
  rcases hu : e.store.bindOrCheck target.slot.cell v with ⟨r, s⟩
  rw [hu] at h
  rcases r with err' | b
  · cases h
    exact Store.bindOrCheck_foreseen hu
  cases b with
  | false => cases h
  | true =>
      rcases Except.bind_eq_error h with h | ⟨_, -, h⟩
      · exact checkDeclared_foreseen h
      · cases h

end Env

end Foreseen

/-- In this world the callback of the term raises the failure. -/
def Term.Raises (t : Term σ) (e : Env) (w : World σ) (f : Failure) : Prop :=
  ∃ ty act, t.callback? e = some (ty, act) ∧ (act w.host).result = .error f

/-- In this world a callback of the goal raises the failure: that of its term, that of an argument after the ones before
have been passed, or its own. -/
def Goal.Raises (e : Env) (w : World σ) (f : Failure) : Goal σ → Prop
  | .bind p t => ∃ target e', e.resolve p = .ok (target, e') ∧ t.Raises e' w f
  | .call _ arguments => ∃ before t after slots e' w', arguments = before ++ t :: after ∧
      ExceptT.run (e.passAll before) w = (.ok (slots, e'), w') ∧ t.Raises e' w' f
  | .check act => (act e.view w.host).result = .error f
  | .action act => (act e.view w.host).result = .error f
  | .openScope _ | .closeScope => False

/-- The source raises the failure, or a factory of its clauses, or a callback of a goal that a branch of the query has
come to. -/
def Source.Raises (src : Source σ) (actuals : List Actual) (f : Failure) : Prop :=
  (∃ name cancelled host, (src.lookup name cancelled host).result = .error f) ∨
    (∃ c make n host, src.Offers c ∧ c.body = .factory make ∧ (make n host).result = .error f) ∨
    ∃ r g rest w, src.Reaches actuals r ∧ r.agenda.next? = some (g, rest) ∧ g.Raises r.env w f

section Raise

variable {e : Env} {w w' : World σ} {f : Failure}

theorem Engine.lift_foreseen {r : Except Error α} (hr : ∀ err, r = .error err → err.Foreseen)
    (h : ExceptT.run (Engine.lift r : Engine σ α) w = (.error f, w')) : f.Foreseen := by
  obtain ⟨err, herr, rfl⟩ := Engine.lift_fails h
  exact hr err herr

theorem Term.Fails.raises {t : Term σ} (h : t.Fails e w f) : f.Foreseen ∨ t.Raises e w f := by
  cases h with
  | read h => exact .inl (Env.read_foreseen h)
  | callback hcallback h => exact .inr ⟨_, _, hcallback, h⟩
  | mistyped _ _ h => exact .inl (Ty.ensure_foreseen h)

theorem Env.pass_raises {t : Term σ} (h : ExceptT.run (e.pass t) w = (.error f, w')) :
    f.Foreseen ∨ t.Raises e w f := by
  have hvalue (h : ExceptT.run (t.evaluate e >>= fun q => Engine.lift (q.2.addLiteral t.ty q.1)) w = (.error f, w')) :
      f.Foreseen ∨ t.Raises e w f := by
    rcases Engine.bind_fails h with h | ⟨q, w₁, -, h⟩
    · exact (Term.evaluate_fails h).raises
    · exact .inl (Engine.lift_foreseen (fun _ => Env.addLiteral_foreseen) h)
  cases t with
  | param p =>
      have hresolve := Engine.first_fails (fun _ => Engine.neverFails_pure _) h
      exact .inl (Engine.lift_foreseen (fun _ => Env.resolve_foreseen) hresolve)
  | constant ty v => exact hvalue h
  | map ty s => exact hvalue h

theorem Env.BindFails.raises {p : Param} {t : Term σ} (h : e.BindFails p t w f) :
    f.Foreseen ∨ (Goal.bind p t).Raises e w f := by
  cases h with
  | resolve h => exact .inl (Env.resolve_foreseen h)
  | term hok h => exact h.raises.imp id fun ht => ⟨_, _, hok, ht⟩
  | equate _ _ _ h => exact .inl (Env.equate_foreseen h)
  | assign _ _ _ h => exact .inl (Env.assign_foreseen h)

/-- A goal comes to a foreseen error, or one of its callbacks has failed, or there is no scope to close. -/
theorem Goal.step_raises {g : Goal σ} (h : ExceptT.run (g.step e) w = (.error f, w')) :
    f.Foreseen ∨ g.Raises e w f ∨ (g = .closeScope ∧ e.depth = 0) := by
  have hfails := Goal.step_fails h
  cases g with
  | bind p t => exact (Env.solveBind_fails hfails).raises.imp id .inl
  | call name arguments =>
      obtain ⟨before, t, after, slots, e', w₁, harguments, hbefore, ht⟩ := Env.passAll_fails hfails
      exact (Env.pass_raises ht).imp id fun ht => .inl ⟨before, t, after, slots, e', w₁, harguments, hbefore, ht⟩
  | check act => exact .inr (.inl hfails)
  | action act => exact .inr (.inl hfails)
  | openScope arguments => exact hfails.elim
  | closeScope =>
      obtain ⟨err, herr, -⟩ := hfails
      refine .inr (.inr ⟨rfl, ?_⟩)
      unfold Env.closeScope at herr
      split at herr
      · rename_i henc
        rw [Env.depth, henc]
        rfl
      · cases herr

end Raise

def opens : List (Goal σ) → Nat
  | [] => 0
  | .openScope _ :: goals => opens goals + 1
  | _ :: goals => opens goals

/-- The goals close the scopes that they open and those that are open already, and none before it is open. -/
structure Bracketed (depth : Nat) (goals : List (Goal σ)) : Prop where
  total : closes goals = opens goals + depth
  prefixes : ∀ before, before <+: goals → closes before ≤ opens before + depth

theorem opens_noEntry {goals : List (Goal σ)} (h : NoEntry goals) : opens goals = 0 := by
  induction goals with
  | nil => rfl
  | cons g goals ih =>
      have hgoals := ih fun g' h' => h g' (List.mem_cons_of_mem g h')
      cases g with
      | openScope arguments => exact absurd rfl (h _ List.mem_cons_self arguments)
      | _ => exact hgoals

theorem closes_mono {before goals : List (Goal σ)} (h : before <+: goals) : closes before ≤ closes goals := by
  obtain ⟨after, rfl⟩ := h
  rw [closes_append]
  exact Nat.le_add_right _ _

/-- Goals that open no scope are in balance if they close as many as are open. -/
theorem NoEntry.bracketed {goals : List (Goal σ)} (h : NoEntry goals) : Bracketed (closes goals) goals where
  total := by rw [opens_noEntry h, Nat.zero_add]
  prefixes := fun _ hbefore => Nat.le_add_left_of_le (closes_mono hbefore)

theorem Bracketed.entered {depth : Nat} {goals : List (Goal σ)} (h : Bracketed (depth + 1) goals)
    (arguments : List (Formal × Slot)) : Bracketed depth (.openScope arguments :: goals) where
  total := by
    change closes goals = opens goals + 1 + depth
    rw [h.total, Nat.add_assoc, Nat.add_comm 1]
  prefixes := by
    intro before hbefore
    rcases List.prefix_cons_iff.mp hbefore with rfl | ⟨before', rfl, hbefore'⟩
    · exact Nat.zero_le _
    · change closes before' ≤ opens before' + 1 + depth
      rw [Nat.add_assoc, Nat.add_comm 1]
      exact h.prefixes before' hbefore'

theorem Balanced.bracketed {e : Env} {goals : List (Goal σ)} (h : Balanced e goals) : Bracketed e.depth goals := by
  rcases h with ⟨hset, hclose⟩ | ⟨arguments, rest, rfl, hset, hclose, -⟩
  · rw [← hclose]
    exact hset.bracketed
  · refine Bracketed.entered ?_ arguments
    rw [← hclose]
    exact hset.bracketed

namespace Resolvent

theorem Shaped.stopsAt_bracketed {r : Resolvent σ} (hr : r.Shaped) {stopped : Call σ} (h : r.StopsAt stopped) :
    Bracketed stopped.env.depth stopped.rest.toList := by
  obtain ⟨g, hnext, hstep⟩ := h
  obtain ⟨⟨arguments, rfl⟩, hquiet, -⟩ := Goal.step_call hr.sound.bounded hstep
  have hbalanced := hr.balanced
  rw [Agenda.toList_of_next? hnext] at hbalanced
  rw [hquiet.toInside.depth_eq]
  rcases hbalanced with ⟨hset, hclose⟩ | ⟨arguments', rest, heq, -⟩
  · rw [← hclose]
    exact NoEntry.bracketed fun g hg => hset g (List.mem_cons_of_mem _ hg)
  · cases heq

/-- There is always a scope to close. -/
theorem Shaped.raises {r : Resolvent σ} (hr : r.Shaped) {g : Goal σ} {rest : Agenda σ}
    (hnext : r.agenda.next? = some (g, rest)) {w w' : World σ} {f : Failure}
    (h : ExceptT.run (g.step r.env) w = (.error f, w')) : f.Foreseen ∨ g.Raises r.env w f := by
  rcases Goal.step_raises h with hf | hg | ⟨rfl, hdepth⟩
  · exact .inl hf
  · exact .inr hg
  · have hle := hr.balanced.bracketed.prefixes [.closeScope] (by
      rw [Agenda.toList_of_next? hnext]
      exact ⟨rest.toList, rfl⟩)
    rw [hdepth] at hle
    exact absurd hle (by decide : ¬1 ≤ 0)

end Resolvent

/-- An error that would tell of a mistake in the engine is yielded only if the source, a factory or a callback has
raised it. Wherever a branch stands or stops, the scope goals left are in balance with the scopes that are open, and
a branch that completes has closed all but the query's own. -/
theorem Search.internal_errors_from_outside {src : Source σ} (hsrc : src.Authored) {name : String}
    {actuals : List Actual} {t : Token} {s s' : Search σ} (hstart : start src name actuals t = .ok s)
    {w w' : World σ} {items : List Item} (hcalls : Calls s w items s' w') :
    (∀ err, .failed err ∈ items → err.Internal → src.Raises actuals (.error err)) ∧
      ∀ r, src.Reaches actuals r → Bracketed r.env.depth r.agenda.toList ∧
        (∀ stopped, r.StopsAt stopped → Bracketed stopped.env.depth stopped.rest.toList) ∧
          (r.agenda.toList = [] → r.env.depth = 0) := by
  constructor
  · intro err hmem hinternal
    have hfails : src.Fails actuals (.error err) := items_from hstart hcalls _ hmem
    cases hfails with
    | cancelled => exact hinternal.elim
    | lookup h => exact .inl ⟨_, _, _, h⟩
    | factory hc hbody h => exact .inr (.inl ⟨_, _, _, _, hc, hbody, h⟩)
    | goal hr hnext h =>
        rcases (hr.shaped hsrc).raises hnext h with hforeseen | hraises
        · exact absurd hforeseen hinternal.not_foreseen
        · exact .inr (.inr ⟨_, _, _, _, hr, hnext, hraises⟩)
  · intro r hr
    have hshaped := hr.shaped hsrc
    exact ⟨hshaped.balanced.bracketed, fun stopped => hshaped.stopsAt_bracketed, hshaped.depth_eq_zero⟩

/-- A clause calls another one, whose callback raises an error that is the engine's own. -/
def rebinding : Database Unit where
  clauses :=
    [⟨"twice", [⟨0, "v", .int⟩], .fixed [.call "once" [.param (.formal ⟨0, "v", .int⟩)]], by decide, by decide⟩,
     ⟨"once", [⟨1, "u", .int⟩],
      .fixed [.bind (.formal ⟨1, "u", .int⟩) (.literal (.int 5)),
        .action fun _ => .answer (.error (.error .alreadyBound))], by decide, by decide⟩]

theorem rebinding_authored : rebinding.source.Authored := by
  refine Database.source_authored fun c hc => ?_
  rcases List.mem_cons.mp hc with rfl | hc
  · exact Clause.authored_of_fixed rfl (by simp [Goal.Authored])
  · obtain rfl := List.mem_singleton.mp hc
    exact Clause.authored_of_fixed rfl (by simp [Goal.Authored])

/-- The search yields the error, and it is the callback that has raised it. -/
theorem rebinding_from_outside : ∃ s s' w',
    Search.start rebinding.source "twice" [.output (.shared 0) none .int none] "t" = .ok s ∧
      Search.Calls s (World.start ()) [.failed .alreadyBound] s' w' ∧
        rebinding.source.Raises [.output (.shared 0) none .int none] (.error .alreadyBound) := by
  have hstart : Search.start rebinding.source "twice" [.output (.shared 0) none .int none] "t" = .ok _ := rfl
  have hitems : Search.pull 10 1 ⟨rebinding.source, "twice", "t",
      [.query "twice" [.output (.shared 0) none .int none]], none, false⟩ (World.start ()) =
        [.failed .alreadyBound] := by decide +kernel
  obtain ⟨s', w', hcalls⟩ := Search.calls_of_pull hitems (by simp)
  obtain ⟨hraises, -⟩ := Search.internal_errors_from_outside rebinding_authored hstart hcalls
  exact ⟨_, s', w', hstart, hcalls, hraises _ (by simp) trivial⟩

end Clausal
