import Clausal.Proofs.Branch
import Clausal.Proofs.MirroredScopes
import Clausal.Proofs.Trail

/-! Running in lockstep. Two bodies are run that are the same but for their callbacks, and these answer alike
when they are shown the same in related states of their hosts. Main statement: from mirrored environments both
runs fail in one way, or come to outcomes that correspond, whatever clauses are chosen for nested calls. -/
namespace Clausal

variable {σ τ α β γ δ : Type} {H : σ → τ → Prop}

/-- Actions that answer alike in related states, and leave related states. -/
def Effect.Alike (H : σ → τ → Prop) (P : α → β → Prop) (act : Effect σ α) (act' : Effect τ β) : Prop :=
  ∀ host host', H host host' →
    Agree P (act host).result (act' host').result ∧ H (act host).host (act' host').host

namespace Engine

/-- In related worlds both computations fail in one way, or come to values that correspond. They leave related
worlds. -/
def Related (R : World σ → World τ → Prop) (P : α → β → Prop) (x : Engine σ α) (y : Engine τ β) : Prop :=
  ∀ w w', R w w' → Agree P (ExceptT.run x w).1 (ExceptT.run y w').1 ∧
    R (ExceptT.run x w).2 (ExceptT.run y w').2

/-- In worlds with related hosts both computations fail in one way, or come to values that correspond. The hosts
stay related. -/
def Lockstep (H : σ → τ → Prop) (P : α → β → Prop) (x : Engine σ α) (y : Engine τ β) : Prop :=
  ∀ w w', H w.host w'.host → Agree P (ExceptT.run x w).1 (ExceptT.run y w').1 ∧
    H (ExceptT.run x w).2.host (ExceptT.run y w').2.host

section Related

variable {R : World σ → World τ → Prop} {P : α → β → Prop} {Q : γ → δ → Prop} {x : Engine σ α} {y : Engine τ β}

theorem related_pure {a : α} {b : β} (h : P a b) : Related R P (pure a) (pure b) :=
  fun _ _ hR => ⟨.ok h, hR⟩

theorem related_lift {x : Except Error α} {y : Except Error β} (h : Agree P x y) : Related R P (lift x) (lift y) := by
  intro w w' hR
  rw [run_lift, run_lift]
  refine ⟨?_, hR⟩
  cases h with
  | error e => exact .error _
  | ok hab => exact .ok hab

theorem Related.imp {Q : α → β → Prop} (h : Related R P x y) (hPQ : ∀ a b, P a b → Q a b) : Related R Q x y :=
  fun w w' hR => ⟨(h w w' hR).1.imp hPQ, (h w w' hR).2⟩

/-- What follows a value may use that the computation has come to it. -/
theorem Related.bind {k : α → Engine σ γ} {l : β → Engine τ δ} (h : Related R P x y)
    (hk : ∀ a b, P a b → x.Runs a → Related R Q (k a) (l b)) : Related R Q (x >>= k) (y >>= l) := by
  intro w w' hR
  obtain ⟨hresult, hworlds⟩ := h w w' hR
  rw [run_bind, run_bind]
  rcases hx : ExceptT.run x w with ⟨r, w₁⟩
  rcases hy : ExceptT.run y w' with ⟨r', w₁'⟩
  rw [hx, hy] at hresult hworlds
  cases hresult with
  | error f => exact ⟨.error f, hworlds⟩
  | ok hab => exact hk _ _ hab ⟨w, w₁, hx⟩ w₁ w₁' hworlds

end Related

variable {P : α → β → Prop} {Q : γ → δ → Prop} {x : Engine σ α} {y : Engine τ β}

theorem lockstep_pure {a : α} {b : β} (h : P a b) : Lockstep H P (pure a) (pure b) :=
  related_pure (R := fun w w' => H w.host w'.host) h

theorem lockstep_lift {x : Except Error α} {y : Except Error β} (h : Agree P x y) :
    Lockstep H P (lift x) (lift y) := related_lift (R := fun w w' => H w.host w'.host) h

theorem lockstep_emit (v v' : Event) : Lockstep H (fun _ _ => True) (emit v) (emit v') := fun w w' hH => by
  rw [run_emit, run_emit]
  exact ⟨.ok trivial, hH⟩

theorem lockstep_perform {act : Effect σ α} {act' : Effect τ β} (h : Effect.Alike H P act act') :
    Lockstep H P (perform act) (perform act') := fun w w' hH => by
  rw [run_perform, run_perform, World.foldl_record_host, World.foldl_record_host]
  exact h w.host w'.host hH

theorem Lockstep.imp {Q : α → β → Prop} (h : Lockstep H P x y) (hPQ : ∀ a b, P a b → Q a b) : Lockstep H Q x y :=
  Related.imp (R := fun w w' => H w.host w'.host) h hPQ

theorem Lockstep.bind {k : α → Engine σ γ} {l : β → Engine τ δ} (h : Lockstep H P x y)
    (hk : ∀ a b, P a b → x.Runs a → Lockstep H Q (k a) (l b)) : Lockstep H Q (x >>= k) (y >>= l) :=
  Related.bind (R := fun w w' => H w.host w'.host) h hk

end Engine

/-- Maps over the same, whose callbacks answer alike. -/
inductive Selector.Agrees (H : σ → τ → Prop) : Selector σ → Selector τ → Prop where
  | scope {f : View → Effect σ Value} {f' : View → Effect τ Value} :
      (∀ v, Effect.Alike H Eq (f v) (f' v)) → Agrees H (.scope f) (.scope f')
  | source (p : Param) {f : Value → Effect σ Value} {f' : Value → Effect τ Value} :
      (∀ v, Effect.Alike H Eq (f v) (f' v)) → Agrees H (.source p f) (.source p f')

inductive Term.Agrees (H : σ → τ → Prop) : Term σ → Term τ → Prop where
  | constant (ty : Ty) (v : Value) : Agrees H (.constant ty v) (.constant ty v)
  | param (p : Param) : Agrees H (.param p) (.param p)
  | map (ty : Ty) {s : Selector σ} {s' : Selector τ} : s.Agrees H s' → Agrees H (.map ty s) (.map ty s')

/-- Goals that are the same but for their callbacks, which answer alike. None of them opens a scope. -/
inductive Goal.Agrees (H : σ → τ → Prop) : Goal σ → Goal τ → Prop where
  | bind (p : Param) {t : Term σ} {t' : Term τ} : t.Agrees H t' → Agrees H (.bind p t) (.bind p t')
  | call (name : String) {ts : List (Term σ)} {ts' : List (Term τ)} :
      List.Forall₂ (Term.Agrees H) ts ts' → Agrees H (.call name ts) (.call name ts')
  | check {f : View → Effect σ Bool} {f' : View → Effect τ Bool} :
      (∀ v, Effect.Alike H Eq (f v) (f' v)) → Agrees H (.check f) (.check f')
  | action {f : View → Effect σ Unit} {f' : View → Effect τ Unit} :
      (∀ v, Effect.Alike H Eq (f v) (f' v)) → Agrees H (.action f) (.action f')
  | closeScope : Agrees H .closeScope .closeScope

/-- Bodies that agree goal by goal. What factories make does, in related states of the hosts. -/
inductive Body.Agrees (H : σ → τ → Prop) : Body σ → Body τ → Prop where
  | fixed {goals : List (Goal σ)} {goals' : List (Goal τ)} :
      List.Forall₂ (Goal.Agrees H) goals goals' → Agrees H (.fixed goals) (.fixed goals')
  | factory {make : Nat → Effect σ (List (Goal σ))} {make' : Nat → Effect τ (List (Goal τ))} :
      (∀ n, Effect.Alike H (List.Forall₂ (Goal.Agrees H)) (make n) (make' n)) →
        Agrees H (.factory make) (.factory make')

structure Clause.Agrees (H : σ → τ → Prop) (c : Clause σ) (c' : Clause τ) : Prop where
  formals : c'.formals = c.formals
  authored : c.Authored
  body : c.body.Agrees H c'.body

theorem Clause.Agrees.instantiate {c : Clause σ} {c' : Clause τ} (h : c.Agrees H c') (n : Nat) :
    Engine.Lockstep H (List.Forall₂ (Goal.Agrees H)) (c.instantiate n) (c'.instantiate n) := by
  have hbody := h.body
  unfold Clause.instantiate
  cases hc : c.body with
  | fixed goals =>
      cases hc' : c'.body with
      | fixed goals' =>
          rw [hc, hc'] at hbody
          cases hbody with
          | fixed hgoals => exact Engine.lockstep_pure hgoals
      | factory make' =>
          rw [hc, hc'] at hbody
          cases hbody
  | factory make =>
      cases hc' : c'.body with
      | fixed goals' =>
          rw [hc, hc'] at hbody
          cases hbody
      | factory make' =>
          rw [hc, hc'] at hbody
          cases hbody with
          | factory hmake => exact Engine.lockstep_perform (hmake n)

theorem Term.Agrees.ty_eq {t : Term σ} {t' : Term τ} (h : t.Agrees H t') : t'.ty = t.ty := by
  cases h <;> rfl

variable {μ : Mirror} {e e' : Env}

theorem Mirror.Envs.shown (he : μ.Envs e e') {α : Type} {f : View → Effect σ α} {f' : View → Effect τ α}
    (hf : ∀ v, Effect.Alike H Eq (f v) (f' v)) :
    Engine.Lockstep H Eq (Engine.perform (f e.view)) (Engine.perform (f' e'.view)) := by
  apply Engine.lockstep_perform
  rw [he.view]
  exact hf e.view

theorem Term.Agrees.evaluate {t : Term σ} {t' : Term τ} (ht : t.Agrees H t') (he : μ.Envs e e') :
    Engine.Lockstep H (fun p q => q.1 = p.1 ∧ μ.Envs p.2 q.2) (t.evaluate e) (t'.evaluate e') := by
  cases ht with
  | constant ty v => exact Engine.lockstep_pure ⟨rfl, he⟩
  | param p => exact Engine.lockstep_lift (he.read p)
  | map ty hs =>
      cases hs with
      | scope hf =>
          refine (he.shown hf).bind fun v v' hv _ => ?_
          subst hv
          refine (Engine.lockstep_lift (Agree.refl _)).bind fun u u' hu _ => ?_
          subst hu
          exact Engine.lockstep_pure ⟨rfl, he⟩
      | source p hf =>
          refine (Engine.lockstep_lift (he.read p)).bind fun r r' hr _ => ?_
          obtain ⟨w, e₁⟩ := r
          obtain ⟨w', e₁'⟩ := r'
          obtain ⟨rfl, henvs⟩ := hr
          refine (Engine.lockstep_perform (hf w')).bind fun v v' hv _ => ?_
          subst hv
          refine (Engine.lockstep_lift (Agree.refl _)).bind fun u u' hu _ => ?_
          subst hu
          exact Engine.lockstep_pure ⟨rfl, henvs⟩

namespace Mirror

variable (μ)

structure Arguments (p q : List Slot × Env) : Prop where
  moved : q.1 = p.1.map (Slot.move μ.cell)
  seen : ∀ slot ∈ p.1, slot.cell ∈ μ.seen
  lt : ∀ slot ∈ p.1, slot.cell < p.2.store.cells.size
  envs : μ.Envs p.2 q.2

inductive Steps : Step → Step → Prop where
  | next {e e' : Env} : μ.Envs e e' → Steps (.next e) (.next e')
  | failed : Steps .failed .failed
  | call (name : String) {slots slots' : List Slot} {e e' : Env} :
      μ.Arguments (slots, e) (slots', e') → Steps (.call name slots e) (.call name slots' e')

/-- Branches that have stopped at the same call. The goals that are left agree, close the scopes that have been opened
inside the callees, and at last the callees' own. -/
structure Calls (H : σ → τ → Prop) (c : Call σ) (c' : Call τ) : Prop where
  name : c'.name = c.name
  arguments : μ.Arguments (c.arguments, c.env) (c'.arguments, c'.env)
  rest : ∃ goals goals', c.rest.toList = goals ++ [.closeScope] ∧ c'.rest.toList = goals' ++ [.closeScope] ∧
    List.Forall₂ (Goal.Agrees H) goals goals' ∧ closes goals + (μ.left.depth + 1) = c.env.depth

/-- Outcomes that correspond. Where the branches are complete, the callees' scopes have been closed. -/
inductive Outcomes (H : σ → τ → Prop) : Outcome σ → Outcome τ → Prop where
  | complete {e e' : Env} : μ.Stores e.store e'.store → Outcomes H (.complete e) (.complete e')
  | failed : Outcomes H .failed .failed
  | suspended {c : Call σ} {c' : Call τ} : μ.Calls H c c' → Outcomes H (.suspended c) (.suspended c')

/-- Resolvents that are about to open corresponding scopes, for bodies that agree. -/
def Entries (H : σ → τ → Prop) (r : Resolvent σ) (r' : Resolvent τ) : Prop :=
  ∃ arguments goals goals', r.agenda.toList = .openScope arguments :: (goals ++ [.closeScope]) ∧
    r'.agenda.toList = .openScope (moveAll μ.cell arguments) :: (goals' ++ [.closeScope]) ∧
    List.Forall₂ (Goal.Agrees H) goals goals' ∧ closes goals + μ.left.depth = r.env.depth ∧
    μ.Envs (r.env.openScope arguments) (r'.env.openScope (moveAll μ.cell arguments))

end Mirror

namespace Mirror.Envs

theorem pass (he : μ.Envs e e') {t : Term σ} {t' : Term τ} (ht : t.Agrees H t') :
    Engine.Lockstep H μ.Passings (e.pass t) (e'.pass t') := by
  have hvalue : Engine.Lockstep H μ.Passings (t.evaluate e >>= fun p => Engine.lift (p.2.addLiteral t.ty p.1))
      (t'.evaluate e' >>= fun p => Engine.lift (p.2.addLiteral t'.ty p.1)) := by
    refine (ht.evaluate he).bind fun p q hpq _ => ?_
    obtain ⟨hsame, henvs⟩ := hpq
    rw [ht.ty_eq, hsame]
    exact Engine.lockstep_lift (henvs.addLiteral t.ty p.1)
  cases ht with
  | param p =>
      refine (Engine.lockstep_lift (he.resolve p)).bind fun r r' hr _ => Engine.lockstep_pure ?_
      exact ⟨congrArg Resolved.slot hr.moved, hr.seen, hr.lt, hr.envs⟩
  | constant ty v => exact hvalue
  | map ty hs => exact hvalue

theorem passAll (he : μ.Envs e e') {ts : List (Term σ)} {ts' : List (Term τ)}
    (hts : List.Forall₂ (Term.Agrees H) ts ts') : Engine.Lockstep H μ.Arguments (e.passAll ts) (e'.passAll ts') := by
  induction hts generalizing e e' with
  | nil =>
      exact Engine.lockstep_pure
        ⟨rfl, fun _ h => absurd h List.not_mem_nil, fun _ h => absurd h List.not_mem_nil, he⟩
  | cons ht _ ih =>
      refine (he.pass ht).bind fun p q hp _ => (ih hp.envs).bind fun ps qs hps hrun => Engine.lockstep_pure ?_
      have hgrows := (Env.passAll_runs hp.envs.sound.bounded hrun).1.grows
      constructor
      · rw [List.map_cons, ← hp.moved, ← hps.moved]
      · intro slot hslot
        rcases List.mem_cons.mp hslot with rfl | hslot
        · exact hp.seen
        · exact hps.seen slot hslot
      · intro slot hslot
        rcases List.mem_cons.mp hslot with rfl | hslot
        · exact Nat.lt_of_lt_of_le hp.lt hgrows.size_le
        · exact hps.lt slot hslot
      · exact hps.envs

theorem solveBind (he : μ.Envs e e') (p : Param) {t : Term σ} {t' : Term τ} (ht : t.Agrees H t') :
    Engine.Lockstep H (Option.Rel μ.Envs) (e.solveBind p t) (e'.solveBind p t') := by
  refine (Engine.lockstep_lift (he.resolve p)).bind fun target target' htarget _ => ?_
  obtain ⟨r, e₁⟩ := target
  obtain ⟨r', e₁'⟩ := target'
  obtain ⟨rfl, hseen, hlt, henvs⟩ := htarget
  have hvalue : Engine.Lockstep H (Option.Rel μ.Envs) (t.evaluate e₁ >>= fun q => Engine.lift (q.2.assign r q.1))
      (t'.evaluate e₁' >>= fun q => Engine.lift (q.2.assign (r.move μ.cell) q.1)) := by
    refine (ht.evaluate henvs).bind fun v v' hv hrun => ?_
    obtain ⟨hsame, henvs'⟩ := hv
    have hgrows := (Term.evaluate_runs henvs.sound.bounded hrun).grows
    rw [hsame]
    exact Engine.lockstep_lift (henvs'.assign hseen (Nat.lt_of_lt_of_le hlt hgrows.size_le) v.1)
  cases ht with
  | constant ty v => exact hvalue
  | map ty hs => exact hvalue
  | param q =>
      refine (Engine.lockstep_lift (henvs.resolve q)).bind fun source source' hsource hrun => ?_
      obtain ⟨rs, e₂⟩ := source
      obtain ⟨rs', e₂'⟩ := source'
      obtain ⟨rfl, hseen', hlt', henvs'⟩ := hsource
      have hgrows := (Env.resolve_ok henvs.sound.bounded hrun.of_lift).1.grows
      exact Engine.lockstep_lift (henvs'.equate hseen hseen' (Nat.lt_of_lt_of_le hlt hgrows.size_le) hlt')

theorem leave (he : μ.Envs e e') :
    Engine.Lockstep H (fun f f' => μ.Stores f.store f'.store ∧ (μ.left.depth + 1 < e.depth → μ.Envs f f'))
      (Env.leave (σ := σ) e) (Env.leave (σ := τ) e') := by
  have hagree : Agree (fun f f' => μ.Stores f.store f'.store ∧ (μ.left.depth + 1 < e.depth → μ.Envs f f'))
      e.closeScope e'.closeScope := by
    obtain ⟨f, f', hclose, hclose', hleft⟩ := he.closeScope
    rw [hclose, hclose']
    exact .ok hleft
  exact (Engine.lockstep_lift hagree).bind fun _ _ hf _ =>
    (Engine.lockstep_emit _ _).bind fun _ _ _ _ => Engine.lockstep_pure hf

end Mirror.Envs

/-- A goal does the same on both sides, unless it closes the two callees' own scopes. -/
theorem Goal.Agrees.step {g : Goal σ} {g' : Goal τ} (hg : g.Agrees H g') (he : μ.Envs e e')
    (hclose : g = .closeScope → μ.left.depth + 1 < e.depth) :
    Engine.Lockstep H μ.Steps (g.step e) (g'.step e') := by
  cases hg with
  | bind p ht =>
      refine (he.solveBind p ht).bind fun r r' hr _ => ?_
      cases hr with
      | some henvs => exact Engine.lockstep_pure (.next henvs)
      | none => exact (Engine.lockstep_emit _ _).bind fun _ _ _ _ => Engine.lockstep_pure .failed
  | call name hts => exact (he.passAll hts).bind fun p q hpq _ => Engine.lockstep_pure (.call name hpq)
  | check hf =>
      refine (he.shown hf).bind fun b b' hb _ => ?_
      subst hb
      cases b with
      | true => exact Engine.lockstep_pure (.next he)
      | false => exact (Engine.lockstep_emit _ _).bind fun _ _ _ _ => Engine.lockstep_pure .failed
  | action hf => exact (he.shown hf).bind fun _ _ _ _ => Engine.lockstep_pure (.next he)
  | closeScope => exact he.leave.bind fun f f' hf _ => Engine.lockstep_pure (.next (hf.2 (hclose rfl)))

namespace Resolvent

/-- Solving the goals of two bodies, and closing their scopes after them. -/
theorem solve_lockstep {goals : List (Goal σ)} {goals' : List (Goal τ)}
    (hgoals : List.Forall₂ (Goal.Agrees H) goals goals')
    {a : Agenda σ} {a' : Agenda τ} (ha : a.toList = goals ++ [.closeScope]) (ha' : a'.toList = goals' ++ [.closeScope])
    (he : μ.Envs e e') (hdepth : closes goals + (μ.left.depth + 1) = e.depth) :
    Engine.Lockstep H (μ.Outcomes H) (solve e a) (solve e' a') := by
  induction hgoals generalizing a a' e e' with
  | nil =>
      obtain ⟨rest, hnext, hrest⟩ := Agenda.next?_of_cons ha
      obtain ⟨rest', hnext', hrest'⟩ := Agenda.next?_of_cons ha'
      rw [solve_cons hnext, solve_cons hnext']
      refine (Engine.lockstep_emit _ _).bind fun _ _ _ _ => ?_
      refine Engine.Lockstep.bind (P := fun s s' => ∃ f f', s = .next f ∧ s' = .next f' ∧ μ.Stores f.store f'.store)
        (he.leave.bind fun f f' hf _ => Engine.lockstep_pure ⟨f, f', rfl, rfl, hf.1⟩) fun s s' hs _ => ?_
      obtain ⟨f, f', rfl, rfl, hstores⟩ := hs
      simp only [proceed, solve_nil hrest, solve_nil hrest']
      exact Engine.lockstep_pure (.complete hstores)
  | @cons g g' goals goals' hg hgoals ih =>
      obtain ⟨rest, hnext, hrest⟩ := Agenda.next?_of_cons ha
      obtain ⟨rest', hnext', hrest'⟩ := Agenda.next?_of_cons ha'
      rw [solve_cons hnext, solve_cons hnext']
      refine (Engine.lockstep_emit _ _).bind fun _ _ _ _ => ?_
      have hinner : g = .closeScope → μ.left.depth + 1 < e.depth := by
        rintro rfl
        have hmore : closes goals + 1 + (μ.left.depth + 1) = e.depth := hdepth
        omega
      refine (hg.step he hinner).bind fun s s' hs hrun => ?_
      cases hs with
      | failed => exact Engine.lockstep_pure .failed
      | call name hargs =>
          have hcall := Goal.step_call he.sound.bounded hrun
          obtain ⟨⟨terms, rfl⟩, hquiet, -⟩ := hcall
          refine Engine.lockstep_pure (.suspended ⟨rfl, hargs, goals, goals', hrest, hrest', hgoals, ?_⟩)
          rw [hquiet.depth_eq]
          exact hdepth
      | next henvs =>
          apply ih hrest hrest' henvs
          have hentry : ∀ arguments, g ≠ .openScope arguments := by
            rintro arguments rfl
            cases hg
          have hsteps := step_depth he.sound.bounded hrun hentry goals
          omega

theorem run_lockstep {r : Resolvent σ} {r' : Resolvent τ} (h : μ.Entries H r r') :
    Engine.Lockstep H (μ.Outcomes H) r.run r'.run := by
  obtain ⟨arguments, goals, goals', hlist, hlist', hgoals, hdepth, henvs⟩ := h
  obtain ⟨rest, hnext, hrest⟩ := Agenda.next?_of_cons hlist
  obtain ⟨rest', hnext', hrest'⟩ := Agenda.next?_of_cons hlist'
  unfold run
  rw [solve_cons hnext, solve_cons hnext']
  refine (Engine.lockstep_emit _ _).bind fun _ _ _ _ => ?_
  refine Engine.Lockstep.bind
    (P := fun s s' => s = .next (r.env.openScope arguments) ∧ s' = .next (r'.env.openScope (moveAll μ.cell arguments)))
      ?_ fun s s' hs _ => ?_
  · refine Engine.Lockstep.bind
      (P := fun f f' => f = r.env.openScope arguments ∧ f' = r'.env.openScope (moveAll μ.cell arguments)) ?_ ?_
    · exact (Engine.lockstep_emit _ _).bind fun _ _ _ _ => Engine.lockstep_pure ⟨rfl, rfl⟩
    · rintro f f' ⟨rfl, rfl⟩ -
      exact Engine.lockstep_pure ⟨rfl, rfl⟩
  · obtain ⟨rfl, rfl⟩ := hs
    apply solve_lockstep hgoals hrest hrest' henvs
    rw [← Nat.add_assoc, hdepth]
    rfl

/-- Follows a branch, at each call with the next of these clauses. Without a clause it stops at the call. -/
def follow : Resolvent σ → List (Clause σ) → Engine σ (Outcome σ)
  | r, [] => r.run
  | r, callee :: choices => do
    match ← r.run with
    | .suspended c => follow (← c.resume callee) choices
    | o => return o

end Resolvent

theorem Call.resume_lockstep {c : Call σ} {c' : Call τ} {callee : Clause σ} {callee' : Clause τ}
    (hcallee : callee.Agrees H callee') {goals : List (Goal σ)} {goals' : List (Goal τ)}
    (hgoals : List.Forall₂ (Goal.Agrees H) goals goals')
    (hrest : .closeScope :: c.rest.toList = goals ++ [.closeScope])
    (hrest' : .closeScope :: c'.rest.toList = goals' ++ [.closeScope])
    (hdepth : closes goals + μ.left.depth = c.env.depth) (hserial : c'.env.serial = c.env.serial)
    (hargs : c'.arguments = c.arguments.map (Slot.move μ.cell))
    (henvs : ∀ formals : List Formal, μ.Envs (c.env.nextSerial.2.openScope (formals.zip c.arguments))
      (c'.env.nextSerial.2.openScope (moveAll μ.cell (formals.zip c.arguments)))) :
    Engine.Lockstep H (μ.Entries H) (c.resume callee) (c'.resume callee') := by
  have hzip : callee'.formals.zip c'.arguments = moveAll μ.cell (callee.formals.zip c.arguments) := by
    rw [hcallee.formals, hargs, List.zip_map_right]
    rfl
  unfold Call.resume Env.nextSerial
  simp only [hserial, hzip]
  refine (hcallee.instantiate c.env.serial).bind fun body body' hbody hrun => Engine.lockstep_pure ?_
  have hauth := hcallee.authored _ body hrun
  refine ⟨callee.formals.zip c.arguments, body ++ goals, body' ++ goals', ?_, ?_, List.rel_append hbody hgoals, ?_, ?_⟩
  · simp only [Agenda.toList_push, List.append_assoc, List.cons_append, List.nil_append, hrest]
  · simp only [Agenda.toList_push, List.append_assoc, List.cons_append, List.nil_append, hrest']
  · rw [closes_append, closes_authored hauth, Nat.zero_add]
    exact hdepth
  · have hopened := henvs callee.formals
    simp only [Env.nextSerial, hserial] at hopened
    exact hopened

namespace Mirror

theorem Calls.resume {c : Call σ} {c' : Call τ} (h : μ.Calls H c c') {callee : Clause σ} {callee' : Clause τ}
    (hcallee : callee.Agrees H callee') : Engine.Lockstep H (μ.Entries H) (c.resume callee) (c'.resume callee') := by
  obtain ⟨goals, goals', hrest, hrest', hgoals, hdepth⟩ := h.rest
  apply Call.resume_lockstep hcallee (hgoals.cons .closeScope)
  · rw [hrest]
    rfl
  · rw [hrest']
    rfl
  · have hmore : closes goals + 1 + μ.left.depth = c.env.depth := by omega
    exact hmore
  · exact h.arguments.envs.serial
  · exact h.arguments.moved
  · intro formals
    apply h.arguments.envs.nextSerial.openScope
    · exact fun a ha => h.arguments.seen a.2 (List.of_mem_zip ha).2
    · exact fun a ha => h.arguments.lt a.2 (List.of_mem_zip ha).2

/-- Whatever clauses are chosen for nested calls, both branches come to the same. -/
theorem Entries.follow {r : Resolvent σ} {r' : Resolvent τ} (h : μ.Entries H r r') {choices : List (Clause σ)}
    {choices' : List (Clause τ)} (hchoices : List.Forall₂ (Clause.Agrees H) choices choices') :
    Engine.Lockstep H (μ.Outcomes H) (r.follow choices) (r'.follow choices') := by
  induction hchoices generalizing r r' with
  | nil => exact Resolvent.run_lockstep h
  | cons hcallee _ ih =>
      refine (Resolvent.run_lockstep h).bind fun o o' ho _ => ?_
      cases ho with
      | complete hstores => exact Engine.lockstep_pure (.complete hstores)
      | failed => exact Engine.lockstep_pure .failed
      | suspended hcalls => exact (hcalls.resume hcallee).bind fun _ _ hr _ => ih hr

end Mirror
end Clausal
