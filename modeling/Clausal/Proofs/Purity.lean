import Clausal.Search

/-! Pure callbacks. A callback is pure when its result is settled by what it is given: the host's
state has no say in it, and it cancels nothing. The host may still count how often it is asked.
Main statement: when all callbacks of a branch are pure, so is the branch, and a call that it stops
at leaves a branch of the same kind. -/
namespace Clausal

variable {σ α β : Type}

/-- The action answers with this result whatever the host's state, and cancels nothing. -/
def Effect.Answers (act : Effect σ α) (r : Except Error α) : Prop :=
  ∀ host, (act host).result = Failure.lift r ∧ ∀ t, Signal.cancel t ∉ (act host).signals

/-- One result for every state of the host. A crash is no result. -/
def Effect.Pure (act : Effect σ α) : Prop := ∃ r, act.Answers r

def Selector.Pure : Selector σ → Prop
  | .scope f => ∀ v, (f v).Pure
  | .source _ f => ∀ v, (f v).Pure

def Term.Pure : Term σ → Prop
  | .map _ s => s.Pure
  | .constant _ _ | .param _ => True

def Goal.Pure : Goal σ → Prop
  | .bind _ t => t.Pure
  | .call _ arguments => ∀ t ∈ arguments, t.Pure
  | .check f => ∀ v, (f v).Pure
  | .action f => ∀ v, (f v).Pure
  | .openScope _ | .closeScope => True

/-- A factory is pure, and so is all that it makes. -/
def Body.Pure : Body σ → Prop
  | .fixed goals => ∀ g ∈ goals, g.Pure
  | .factory make => ∀ n, ∃ r, (make n).Answers r ∧ ∀ goals, r = .ok goals → ∀ g ∈ goals, g.Pure

def Clause.Pure (c : Clause σ) : Prop := c.body.Pure

def Database.Pure (d : Database σ) : Prop := ∀ c ∈ d.clauses, c.Pure

def Agenda.Pure (a : Agenda σ) : Prop := ∀ g ∈ a.toList, g.Pure

theorem World.record_host (w : World σ) (s : Signal) : (w.record s).host = w.host := by
  cases s <;> rfl

theorem World.foldl_record_host (signals : List Signal) (w : World σ) :
    (signals.foldl World.record w).host = w.host := by
  induction signals generalizing w with
  | nil => rfl
  | cons s rest ih => rw [List.foldl_cons, ih, World.record_host]

theorem World.foldl_record_cancelled {signals : List Signal} (h : ∀ t, Signal.cancel t ∉ signals)
    (w : World σ) : (signals.foldl World.record w).cancelled = w.cancelled := by
  induction signals generalizing w with
  | nil => rfl
  | cons s rest ih =>
      rw [List.foldl_cons, ih fun t ht => h t (List.mem_cons_of_mem _ ht)]
      cases s with
      | note n => rfl
      | event e => rfl
      | cancel t => exact absurd List.mem_cons_self (h t)

namespace Engine

/-- In every world the computation has this result, changes the host's state by this function and
cancels nothing. -/
def Settles (x : Engine σ α) (r : Except Error α) (f : σ → σ) : Prop :=
  ∀ w, (ExceptT.run x w).1 = Failure.lift r ∧ (ExceptT.run x w).2.host = f w.host ∧
    (ExceptT.run x w).2.cancelled = w.cancelled

/-- The computation settles, and its value has the property. -/
def Settled (x : Engine σ α) (P : α → Prop) : Prop :=
  ∃ r f, x.Settles r f ∧ ∀ a, r = .ok a → P a

theorem settles_pure (a : α) : (pure a : Engine σ α).Settles (.ok a) id := fun _ => ⟨rfl, rfl, rfl⟩

theorem settles_lift (x : Except Error α) : (lift x : Engine σ α).Settles x id := fun _ => ⟨rfl, rfl, rfl⟩

theorem settles_emit (e : Event) : (emit e : Engine σ Unit).Settles (.ok ()) id := fun _ => ⟨rfl, rfl, rfl⟩

theorem Settles.bind_ok {x : Engine σ α} {k : α → Engine σ β} {a : α} {r : Except Error β}
    {f g : σ → σ} (hx : x.Settles (.ok a) f) (hk : (k a).Settles r g) :
    (x >>= k).Settles r (g ∘ f) := by
  intro w
  obtain ⟨hr, hh, hc⟩ := hx w
  rw [run_bind]
  generalize ExceptT.run x w = p at hr hh hc
  obtain ⟨r', w'⟩ := p
  change r' = .ok a at hr
  subst hr
  obtain ⟨kr, kh, kc⟩ := hk w'
  exact ⟨kr, kh.trans (congrArg g hh), kc.trans hc⟩

theorem Settles.bind_error {x : Engine σ α} {k : α → Engine σ β} {e : Error} {f : σ → σ}
    (hx : x.Settles (.error e) f) : (x >>= k).Settles (.error e) f := by
  intro w
  obtain ⟨hr, hh, hc⟩ := hx w
  rw [run_bind]
  generalize ExceptT.run x w = p at hr hh hc
  obtain ⟨r', w'⟩ := p
  change r' = .error (.error e) at hr
  subst hr
  exact ⟨rfl, hh, hc⟩

theorem settled_pure {P : α → Prop} {a : α} (h : P a) : (pure a : Engine σ α).Settled P :=
  ⟨.ok a, id, settles_pure a, fun _ e => Except.ok.inj e ▸ h⟩

theorem settled_lift (x : Except Error α) : (lift x : Engine σ α).Settled fun _ => True :=
  ⟨x, id, settles_lift x, fun _ _ => trivial⟩

theorem settled_emit (e : Event) : (emit e : Engine σ Unit).Settled fun _ => True :=
  ⟨.ok (), id, settles_emit e, fun _ _ => trivial⟩

theorem settles_perform {act : Effect σ α} {r : Except Error α} (h : act.Answers r) :
    (perform act).Settles r fun host => (act host).host := by
  intro w
  rw [run_perform]
  exact ⟨(h w.host).1, World.foldl_record_host _ _, World.foldl_record_cancelled (h w.host).2 _⟩

theorem settled_perform {act : Effect σ α} (h : act.Pure) : (perform act).Settled fun _ => True := by
  obtain ⟨r, hr⟩ := h
  exact ⟨r, _, settles_perform hr, fun _ _ => trivial⟩

theorem Settled.bind {x : Engine σ α} {k : α → Engine σ β} {P : α → Prop} {Q : β → Prop}
    (hx : x.Settled P) (hk : ∀ a, P a → (k a).Settled Q) : (x >>= k).Settled Q := by
  obtain ⟨r, f, hr, hP⟩ := hx
  cases r with
  | error e => exact ⟨.error e, f, hr.bind_error, fun _ h => nomatch h⟩
  | ok a =>
      obtain ⟨s, g, hs, hQ⟩ := hk a (hP a rfl)
      exact ⟨s, g ∘ f, hr.bind_ok hs, hQ⟩

end Engine

theorem Clause.instantiate_settled {c : Clause σ} (hc : c.Pure) (n : Nat) :
    (c.instantiate n).Settled fun goals => ∀ g ∈ goals, g.Pure := by
  unfold Clause.Pure at hc
  unfold Clause.instantiate
  cases hb : c.body with
  | fixed goals =>
      rw [hb] at hc
      exact Engine.settled_pure hc
  | factory make =>
      rw [hb] at hc
      obtain ⟨r, hr, hgoals⟩ := hc n
      exact ⟨r, _, Engine.settles_perform hr, hgoals⟩

theorem Term.evaluate_settled {t : Term σ} (ht : t.Pure) (e : Env) :
    (t.evaluate e).Settled fun _ => True := by
  cases t with
  | constant ty v => exact Engine.settled_pure trivial
  | param p => exact Engine.settled_lift _
  | map ty s =>
      cases s with
      | scope f =>
          refine (Engine.settled_perform (ht e.view)).bind fun v _ => ?_
          exact (Engine.settled_lift _).bind fun _ _ => Engine.settled_pure trivial
      | source p f =>
          refine (Engine.settled_lift _).bind fun w _ => ?_
          refine (Engine.settled_perform (ht w.1)).bind fun v _ => ?_
          exact (Engine.settled_lift _).bind fun _ _ => Engine.settled_pure trivial

namespace Env

theorem pass_settled {t : Term σ} (ht : t.Pure) (e : Env) : (e.pass t).Settled fun _ => True := by
  cases t with
  | param p => exact (Engine.settled_lift _).bind fun _ _ => Engine.settled_pure trivial
  | constant ty v => exact (Term.evaluate_settled ht e).bind fun _ _ => Engine.settled_lift _
  | map ty s => exact (Term.evaluate_settled ht e).bind fun _ _ => Engine.settled_lift _

theorem passAll_settled {ts : List (Term σ)} (hts : ∀ t ∈ ts, t.Pure) (e : Env) :
    (e.passAll ts).Settled fun _ => True := by
  induction ts generalizing e with
  | nil => exact Engine.settled_pure trivial
  | cons t ts ih =>
      refine (pass_settled (hts t List.mem_cons_self) e).bind fun p _ => ?_
      refine (ih (fun u hu => hts u (List.mem_cons_of_mem t hu)) p.2).bind fun _ _ => ?_
      exact Engine.settled_pure trivial

theorem solveBind_settled {t : Term σ} (ht : t.Pure) (e : Env) (p : Param) :
    (e.solveBind p t).Settled fun _ => True := by
  refine (Engine.settled_lift _).bind fun target _ => ?_
  cases t with
  | param q => exact (Engine.settled_lift _).bind fun _ _ => Engine.settled_lift _
  | constant ty v => exact (Term.evaluate_settled ht _).bind fun _ _ => Engine.settled_lift _
  | map ty s => exact (Term.evaluate_settled ht _).bind fun _ _ => Engine.settled_lift _

end Env

theorem Goal.step_settled {g : Goal σ} (hg : g.Pure) (e : Env) : (g.step e).Settled fun _ => True := by
  cases g with
  | bind p t =>
      refine (Env.solveBind_settled hg e p).bind fun r _ => ?_
      cases r with
      | some e' => exact Engine.settled_pure trivial
      | none => exact (Engine.settled_emit _).bind fun _ _ => Engine.settled_pure trivial
  | call name arguments =>
      exact (Env.passAll_settled hg e).bind fun _ _ => Engine.settled_pure trivial
  | check f =>
      refine (Engine.settled_perform (hg e.view)).bind fun b _ => ?_
      cases b with
      | true => exact Engine.settled_pure trivial
      | false => exact (Engine.settled_emit _).bind fun _ _ => Engine.settled_pure trivial
  | action f => exact (Engine.settled_perform (hg e.view)).bind fun _ _ => Engine.settled_pure trivial
  | openScope arguments =>
      refine Engine.Settled.bind (P := fun _ => True) ?_ fun _ _ => Engine.settled_pure trivial
      exact (Engine.settled_emit _).bind fun _ _ => Engine.settled_pure trivial
  | closeScope =>
      refine Engine.Settled.bind (P := fun _ => True) ?_ fun _ _ => Engine.settled_pure trivial
      refine (Engine.settled_lift _).bind fun _ _ => ?_
      exact (Engine.settled_emit _).bind fun _ _ => Engine.settled_pure trivial

end Clausal
