import Clausal.Proofs.Agreement
import Clausal.Proofs.Footprint
import Clausal.Proofs.Lockstep
import Clausal.Proofs.Redirection

/-! The engine without redirection. Two engines that tidy up in different ways run side by side, from environments that
agree, on the same goals and in the same world. Main statement: redirection keeps the slots of the innermost scope direct
wherever a branch stands, and a search without it yields the same items and leaves the same worlds. -/
namespace Clausal

variable {σ α β γ : Type}

namespace Engine

/-- In the same world both computations fail in one way, or come to values that correspond. They leave the same
world. -/
abbrev Agrees (P : α → β → Prop) (x : Engine σ α) (y : Engine σ β) : Prop := Related Eq P x y

theorem agrees_refl (x : Engine σ α) : Agrees Eq x x := by
  rintro w _ rfl
  exact ⟨.refl _, rfl⟩

theorem agrees_after {P : β → γ → Prop} (x : Engine σ α) {k : α → Engine σ β} {l : α → Engine σ γ}
    (hk : ∀ a, x.Runs a → Agrees P (k a) (l a)) : Agrees P (x >>= k) (x >>= l) :=
  (agrees_refl x).bind fun a b hab hrun => by
    subst hab
    exact hk a hrun

end Engine

theorem Store.map_parameter_coincide {s : Store} {slots slots' : List Slot} (h : List.Forall₂ s.Coincide slots slots') :
    slots'.map Slot.parameter = slots.map Slot.parameter := by
  induction h with
  | nil => rfl
  | cons hslot _ ih => exact congrArg₂ List.cons hslot.parameter ih

namespace Env

variable {e e' : Env}

structure Passings (p q : Slot × Env) : Prop where
  slot : p.2.store.Coincide p.1 q.1
  envs : p.2.Agrees q.2

structure Arguments (p q : List Slot × Env) : Prop where
  slots : List.Forall₂ p.2.store.Coincide p.1 q.1
  envs : p.2.Agrees q.2

theorem zip_coincide {s : Store} {slots slots' : List Slot} (h : List.Forall₂ s.Coincide slots slots')
    (formals : List Formal) : moveAll s.find (formals.zip slots') = moveAll s.find (formals.zip slots) ∧
      (∀ a ∈ formals.zip slots, a.2.cell < s.cells.size) ∧ ∀ a ∈ formals.zip slots', a.2.cell < s.cells.size := by
  induction h generalizing formals with
  | nil => simp [moveAll]
  | @cons slot slot' slots slots' hslot _ ih =>
      cases formals with
      | nil => simp [moveAll]
      | cons f formals =>
          obtain ⟨hmoved, hlt, hlt'⟩ := ih formals
          simp only [List.zip_cons_cons, List.forall_mem_cons]
          refine ⟨?_, ⟨hslot.lt, hlt⟩, hslot.lt', hlt'⟩
          exact congrArg₂ List.cons (congrArg (Prod.mk f) hslot.moved) hmoved

namespace Agrees

theorem evaluate (h : e.Agrees e') (t : Term σ) :
    Engine.Agrees (fun p q => q.1 = p.1 ∧ p.2.Agrees q.2) (t.evaluate e) (t.evaluate e') := by
  cases t with
  | constant ty v => exact Engine.related_pure ⟨rfl, h⟩
  | param p => exact Engine.related_lift (h.read p)
  | map ty s =>
      cases s with
      | scope f =>
          unfold Term.evaluate
          rw [h.view]
          exact Engine.agrees_after _ fun v _ => Engine.agrees_after _ fun u _ => Engine.related_pure ⟨rfl, h⟩
      | source p f =>
          refine (Engine.related_lift (h.read p)).bind fun r r' hr _ => ?_
          obtain ⟨w, e₁⟩ := r
          obtain ⟨w', e₁'⟩ := r'
          obtain ⟨rfl, henvs⟩ := hr
          exact Engine.agrees_after _ fun v _ => Engine.agrees_after _ fun u _ => Engine.related_pure ⟨rfl, henvs⟩

theorem pass (h : e.Agrees e') (t : Term σ) : Engine.Agrees Passings (e.pass t) (e'.pass t) := by
  have hvalue : Engine.Agrees Passings (t.evaluate e >>= fun p => Engine.lift (p.2.addLiteral t.ty p.1))
      (t.evaluate e' >>= fun p => Engine.lift (p.2.addLiteral t.ty p.1)) := by
    refine (h.evaluate t).bind fun p q hpq _ => ?_
    obtain ⟨hsame, henvs⟩ := hpq
    rw [hsame]
    exact Engine.related_lift ((henvs.addLiteral t.ty p.1).imp fun _ _ hab => ⟨hab.1, hab.2⟩)
  cases t with
  | param p => exact (Engine.related_lift (h.resolve p)).bind fun r r' hr _ => Engine.related_pure ⟨hr.slot, hr.envs⟩
  | constant ty v => exact hvalue
  | map ty s => exact hvalue

theorem passAll (h : e.Agrees e') (ts : List (Term σ)) : Engine.Agrees Arguments (e.passAll ts) (e'.passAll ts) := by
  induction ts generalizing e e' with
  | nil => exact Engine.related_pure ⟨.nil, h⟩
  | cons t ts ih =>
      refine (h.pass t).bind fun p q hp _ => (ih hp.envs).bind fun ps qs hps hrun => Engine.related_pure ?_
      have hgrows := (Env.passAll_runs hp.envs.sound.bounded hrun).1.grows
      exact ⟨.cons (hp.slot.grows hgrows) hps.slots, hps.envs⟩

section Tidy

variable {tidy tidy' : Env → Env} (ht : Tidies tidy) (ht' : Tidies tidy')

include ht ht'

theorem solveBindBy (h : e.Agrees e') (p : Param) (t : Term σ) :
    Engine.Agrees (Option.Rel Env.Agrees) (e.solveBindBy tidy p t) (e'.solveBindBy tidy' p t) := by
  refine (Engine.related_lift (h.resolve p)).bind fun target target' htarget _ => ?_
  obtain ⟨r, e₁⟩ := target
  obtain ⟨r', e₁'⟩ := target'
  obtain ⟨hty, hslot, henvs⟩ := htarget
  have hvalue : Engine.Agrees (Option.Rel Env.Agrees) (t.evaluate e₁ >>= fun q => Engine.lift (q.2.assign r q.1))
      (t.evaluate e₁' >>= fun q => Engine.lift (q.2.assign r' q.1)) := by
    refine (henvs.evaluate t).bind fun v v' hv hrun => ?_
    obtain ⟨hsame, henvs'⟩ := hv
    have hgrows := (Term.evaluate_runs henvs.sound.bounded hrun).grows
    rw [hsame]
    exact Engine.related_lift (henvs'.assign hty (hslot.grows hgrows) v.1)
  cases t with
  | constant ty v => exact hvalue
  | map ty s => exact hvalue
  | param q =>
      refine (Engine.related_lift (henvs.resolve q)).bind fun source source' hsource hrun => ?_
      have hgrows := (Env.resolve_ok henvs.sound.bounded hrun.of_lift).1.grows
      exact Engine.related_lift (hsource.envs.equateBy ht ht' hty (hslot.grows hgrows) hsource.ty hsource.slot)

theorem leaveBy (h : e.Agrees e') :
    Engine.Agrees Env.Agrees (Env.leaveBy (σ := σ) tidy e) (Env.leaveBy (σ := σ) tidy' e') := by
  refine (Engine.related_lift (h.closeScopeBy ht ht')).bind fun f f' hf _ => ?_
  rw [h.depth_eq]
  exact Engine.agrees_after _ fun _ _ => Engine.related_pure hf

end Tidy

/-- The query's arguments denote the same variables. -/
theorem queryArguments (h : e.Agrees e') : List.Forall₂ e.store.Coincide e.queryArguments e'.queryArguments := by
  have hlast (e : Env) : e.scopes.getLast? = some e.outermost := List.getLast?_cons
  have houtermost : e'.outermost.move e.store.find = e.outermost.move e.store.find := by
    have hmoved := congrArg List.getLast? h.scopes
    rw [List.getLast?_map, List.getLast?_map, hlast, hlast] at hmoved
    exact Option.some.inj hmoved
  have hmoved : e'.queryArguments.map (Slot.move e.store.find) = e.queryArguments.map (Slot.move e.store.find) := by
    rw [Env.queryArguments, Env.queryArguments, ← Scope.argumentSlots_move, ← Scope.argumentSlots_move, houtermost]
  have hlt {e : Env} (hs : e.Sound) {slot : Slot} (hslot : slot ∈ e.queryArguments) : slot.cell < e.store.cells.size :=
    hs.held.slots_lt _ (List.mem_of_getLast? (hlast e)) slot (List.mem_append_left _ hslot)
  exact forall₂_of_map_eq hmoved fun slot hslot slot' hslot' hmove =>
    .of_moved hmove (hlt h.sound hslot) (h.stores.size_eq ▸ hlt h.sound' hslot')

theorem aliasesOf_eq (h : e.Agrees e') {slots slots' : List Slot} (hslots : List.Forall₂ e.store.Coincide slots slots')
    {slot slot' : Slot} (hslot : e.store.Coincide slot slot') :
    Answer.aliasesOf e' slots' slot' = Answer.aliasesOf e slots slot := by
  refine congrArg Actual.distinct (Store.map_parameter_coincide (List.rel_filter ?_ hslots))
  intro other other' hother
  simp only [hother.parameter, hslot.parameter, h.stores.find_eq, hother.find, hslot.find]

theorem ofEnv_eq (h : e.Agrees e') : Answer.ofEnv e' = Answer.ofEnv e := by
  have hslots := h.queryArguments
  refine congrArg Answer.mk (List.forall₂_eq_eq_eq ▸ ?_)
  rw [List.forall₂_map_left_iff, List.forall₂_map_right_iff]
  refine hslots.flip.imp fun slot' slot hslot => ?_
  have hty : e'.store.ty slot'.cell = e.store.ty slot.cell := (h.stores.ty_eq _).trans (Store.ty_congr hslot.find)
  rw [hslot.parameter, hty, h.value_eq hslot, h.aliasesOf_eq hslots hslot]

end Agrees
end Env

inductive Step.Agrees : Step → Step → Prop where
  | next {e e' : Env} : e.Agrees e' → Agrees (.next e) (.next e')
  | failed : Agrees .failed .failed
  | call (name : String) {slots slots' : List Slot} {e e' : Env} :
      Env.Arguments (slots, e) (slots', e') → Agrees (.call name slots e) (.call name slots' e')

/-- Branches that have stopped at the same call, with the same goals left. -/
structure Call.Agrees (c c' : Call σ) : Prop where
  name : c'.name = c.name
  arguments : Env.Arguments (c.arguments, c.env) (c'.arguments, c'.env)
  rest : c'.rest = c.rest
  noEntry : NoEntry c.rest.toList

inductive Outcome.Agrees : Outcome σ → Outcome σ → Prop where
  | complete {e e' : Env} : e.Agrees e' → Agrees (.complete e) (.complete e')
  | failed : Agrees .failed .failed
  | suspended {c c' : Call σ} : c.Agrees c' → Agrees (.suspended c) (.suspended c')

section Tidy

variable {tidy tidy' : Env → Env} (ht : Env.Tidies tidy) (ht' : Env.Tidies tidy') {e e' : Env}

include ht ht'

/-- A goal that opens no scope does the same on both sides. -/
theorem Goal.stepBy_agrees (h : e.Agrees e') {g : Goal σ} (hg : ∀ arguments, g ≠ .openScope arguments) :
    Engine.Agrees Step.Agrees (g.stepBy tidy e) (g.stepBy tidy' e') := by
  cases g with
  | bind p t =>
      refine (h.solveBindBy ht ht' p t).bind fun r r' hr _ => ?_
      cases hr with
      | some henvs => exact Engine.related_pure (.next henvs)
      | none => exact Engine.agrees_after _ fun _ _ => Engine.related_pure .failed
  | call name arguments => exact (h.passAll arguments).bind fun p q hpq _ => Engine.related_pure (.call name hpq)
  | check f =>
      unfold Goal.stepBy Goal.step
      rw [h.view]
      refine Engine.agrees_after _ fun b _ => ?_
      cases b with
      | true => exact Engine.related_pure (.next h)
      | false => exact Engine.agrees_after _ fun _ _ => Engine.related_pure .failed
  | action f =>
      unfold Goal.stepBy Goal.step
      rw [h.view]
      exact Engine.agrees_after _ fun _ _ => Engine.related_pure (.next h)
  | openScope arguments => exact absurd rfl (hg arguments)
  | closeScope => exact (h.leaveBy ht ht').bind fun f f' hf _ => Engine.related_pure (.next hf)

namespace Resolvent

theorem solveBy_agrees (h : e.Agrees e') {a : Agenda σ} (ha : NoEntry a.toList) :
    Engine.Agrees Outcome.Agrees (solveBy tidy e a) (solveBy tidy' e' a) := by
  induction hl : a.toList generalizing a e e' with
  | nil =>
      rw [solveBy_nil (Agenda.next?_of_nil hl), solveBy_nil (Agenda.next?_of_nil hl)]
      exact Engine.related_pure (.complete h)
  | cons g goals ih =>
      obtain ⟨rest, hnext, hrest⟩ := Agenda.next?_of_cons hl
      rw [hl] at ha
      have hgoals : NoEntry rest.toList := hrest ▸ fun g' h' => ha g' (List.mem_cons_of_mem g h')
      rw [solveBy_cons hnext, solveBy_cons hnext, h.depth_eq]
      have hstep := Goal.stepBy_agrees ht ht' h (ha g List.mem_cons_self)
      refine Engine.agrees_after _ fun _ _ => hstep.bind fun s s' hs _ => ?_
      cases hs with
      | next henvs => exact ih henvs hgoals hrest
      | failed => exact Engine.related_pure .failed
      | call name harguments => exact Engine.related_pure (.suspended ⟨rfl, harguments, rfl, hgoals⟩)

/-- Scopes that are opened with coinciding arguments are reported alike. -/
theorem solveBy_entry {arguments arguments' : List (Formal × Slot)} (hlength : arguments'.length = arguments.length)
    (h : (e.openScope arguments).Agrees (e'.openScope arguments')) {a : Agenda σ} (ha : NoEntry a.toList) :
    Engine.Agrees Outcome.Agrees (solveBy tidy e (a.push [.openScope arguments]))
      (solveBy tidy' e' (a.push [.openScope arguments'])) := by
  have hdepth : e'.depth = e.depth := Nat.succ.inj h.depth_eq
  have hnext (arguments : List (Formal × Slot)) :
      (a.push [.openScope arguments]).next? = some (.openScope arguments, ⟨[] :: a.segments⟩) := rfl
  have htext : (Goal.openScope arguments' : Goal σ).text = (Goal.openScope arguments : Goal σ).text := by
    simp only [Goal.text, hlength]
  rw [solveBy_cons (hnext arguments), solveBy_cons (hnext arguments'), htext, hdepth]
  refine Engine.agrees_after _ fun _ _ => Engine.Related.bind (P := Step.Agrees) ?_ fun s s' hs _ => ?_
  · refine Engine.Related.bind (P := Env.Agrees) ?_ fun f f' hf _ => Engine.related_pure (.next hf)
    unfold Env.enter
    rw [hdepth, hlength]
    exact Engine.agrees_after _ fun _ _ => Engine.related_pure h
  · cases hs with
    | next henvs => exact solveBy_agrees ht ht' henvs ha
    | failed => exact Engine.related_pure .failed
    | call name harguments => exact Engine.related_pure (.suspended ⟨rfl, harguments, rfl, ha⟩)

end Resolvent

end Tidy

inductive Pending.Agrees : Pending σ → Pending σ → Prop where
  | query (name : String) (actuals : List Actual) : Agrees (.query name actuals) (.query name actuals)
  | call {c c' : Call σ} : c.Agrees c' → Agrees (.call c) (.call c')

structure Alternatives.Agrees (a a' : Alternatives σ) : Prop where
  origin : a.origin.Agrees a'.origin
  clauses : a'.clauses = a.clauses
  authored : ∀ c ∈ a.clauses, c.Authored

/-- Searches of one query that stand at the same point. -/
structure Search.Agrees (s s' : Search σ) : Prop where
  source : s'.source = s.source
  query : s'.query = s.query
  token : s'.token = s.token
  done : s'.done = s.done
  queue : List.Forall₂ Pending.Agrees s.queue s'.queue
  current : Option.Rel Alternatives.Agrees s.current s'.current
  authored : s.source.Authored

namespace Pending.Agrees

variable {p p' : Pending σ}

theorem name_eq (h : p.Agrees p') : p'.name = p.name := by
  cases h with
  | query name actuals => rfl
  | call hc => exact hc.name

theorem actuals_eq (h : p.Agrees p') : p'.actuals = p.actuals := by
  cases h with
  | query name actuals => rfl
  | @call c c' hc =>
      exact Store.map_parameter_coincide hc.arguments.slots

section Tidy

variable {tidy tidy' : Env → Env} (ht : Env.Tidies tidy) (ht' : Env.Tidies tidy')

include ht ht'

theorem solveBy (h : p.Agrees p') {callee : Clause σ} (hauth : callee.Authored) :
    Engine.Agrees Outcome.Agrees (p.solveBy tidy callee) (p'.solveBy tidy' callee) := by
  cases h with
  | query name actuals =>
      refine Engine.agrees_after _ fun r hrun => ?_
      obtain ⟨slots, n, body, -, -, -, -, hsound, hbody, hagenda⟩ := Resolvent.ofQuery_runs hrun
      apply Resolvent.solveBy_agrees ht ht' (.refl hsound)
      rw [hagenda]
      rintro g hg arguments rfl
      exact hauth n body hbody _ hg
  | @call c c' hc =>
      have hserial : c'.env.serial = c.env.serial := hc.arguments.envs.serial
      obtain ⟨hmoved, hlt, hlt'⟩ := Env.zip_coincide hc.arguments.slots callee.formals
      have hopened := hc.arguments.envs.nextSerial.openScope hmoved hlt hlt'
      have hlength : (callee.formals.zip c'.arguments).length = (callee.formals.zip c.arguments).length := by
        rw [List.length_zip, List.length_zip, ← hc.arguments.slots.length_eq]
      unfold Pending.solveBy Pending.branch Call.resume
      simp only [Env.nextSerial, hserial, bind_assoc, pure_bind] at hopened ⊢
      refine Engine.agrees_after _ fun body hbody => ?_
      rw [hc.rest]
      apply Resolvent.solveBy_entry ht ht' hlength hopened
      rw [Agenda.toList_push, Agenda.toList_push]
      rintro g hg arguments rfl
      rcases List.mem_append.mp hg with hg | hg
      · exact hauth _ body hbody _ hg
      · rcases List.mem_cons.mp hg with hg | hg
        · cases hg
        · exact hc.noEntry _ hg arguments rfl

end Tidy

end Pending.Agrees

namespace Search

variable {ρ : Type} {s s' : Search σ} {a a' : Alternatives σ}

structure Alongside (x y : (ρ × Search σ) × World σ) : Prop where
  result : y.1.1 = x.1.1
  search : x.1.2.Agrees y.1.2
  world : y.2 = x.2

theorem Agrees.close (h : s.Agrees s') : s.close.Agrees s'.close :=
  ⟨h.source, h.query, h.token, rfl, .nil, .none, h.authored⟩

theorem Agrees.settle (h : s.Agrees s') {r r' : Except Failure (Outcome σ)} (hr : Agree Outcome.Agrees r r')
    (w : World σ) : Alongside (s.settle (r, w)) (s'.settle (r', w)) := by
  cases hr with
  | error f => exact ⟨rfl, h, rfl⟩
  | ok ho =>
      cases ho with
      | failed => exact ⟨rfl, h, rfl⟩
      | complete henvs =>
          refine ⟨congrArg Turn.answered henvs.ofEnv_eq, h, ?_⟩
          simp only [Search.settle, h.query]
      | @suspended c c' hc =>
          refine ⟨rfl, ⟨h.source, h.query, h.token, h.done, ?_, h.current, h.authored⟩, ?_⟩
          · exact List.rel_append h.queue (.cons (.call hc) .nil)
          · simp only [Search.settle, hc.name, h.queue.length_eq]

section Tidy

variable {tidy tidy' : Env → Env} (ht : Env.Tidies tidy) (ht' : Env.Tidies tidy')

include ht ht'

theorem Agrees.advanceBy (h : s.Agrees s') (ha : a.Agrees a') (w : World σ) :
    Alongside (s.advanceBy tidy a w) (s'.advanceBy tidy' a' w) := by
  have hfound : nextMatch s'.token a'.origin.actuals a'.clauses = nextMatch s.token a.origin.actuals a.clauses := by
    rw [h.token, ha.origin.actuals_eq, ha.clauses]
  unfold Search.advanceBy
  rw [hfound]
  rcases hm : ExceptT.run (nextMatch s.token a.origin.actuals a.clauses) w with ⟨f | found, w'⟩
  · exact ⟨rfl, h, rfl⟩
  rcases found with _ | ⟨c, rest⟩
  · exact ⟨rfl, ⟨h.source, h.query, h.token, h.done, h.queue, .none, h.authored⟩, rfl⟩
  obtain ⟨hmem, -, hrest⟩ := nextMatch_runs ⟨w, w', hm⟩
  have hleft : ({ s with current := some { a with clauses := rest } } : Search σ).Agrees
      { s' with current := some { a' with clauses := rest } } :=
    ⟨h.source, h.query, h.token, h.done, h.queue,
      .some ⟨ha.origin, rfl, fun x hx => ha.authored x (hrest x hx)⟩, h.authored⟩
  obtain ⟨hresult, hworld⟩ := ha.origin.solveBy ht ht' (ha.authored c hmem) w' w' rfl
  simp only
  generalize ExceptT.run (a.origin.solveBy tidy c) w' = x at hresult hworld
  generalize ExceptT.run (a'.origin.solveBy tidy' c) w' = y at hresult hworld
  obtain ⟨r, w₁⟩ := x
  obtain ⟨r', w₁'⟩ := y
  obtain rfl : w₁ = w₁' := hworld
  exact hleft.settle hresult w₁

theorem Agrees.turnBy (h : s.Agrees s') (w : World σ) : Alongside (s.turnBy tidy w) (s'.turnBy tidy' w) := by
  obtain ⟨source, query, token, queue, current, done⟩ := s
  obtain ⟨source', query', token', queue', current', done'⟩ := s'
  obtain ⟨hsource, hquery, htoken, hdone, hqueue, hcurrent, hauth⟩ := h
  obtain rfl : source' = source := hsource
  obtain rfl : token' = token := htoken
  have hagree {queue queue' : List (Pending σ)} {current current' : Option (Alternatives σ)}
      (hqueue : List.Forall₂ Pending.Agrees queue queue') (hcurrent : Option.Rel Alternatives.Agrees current current') :
      (⟨source', query, token', queue, current, done⟩ : Search σ).Agrees
        ⟨source', query', token', queue', current', done'⟩ := ⟨rfl, hquery, rfl, hdone, hqueue, hcurrent, hauth⟩
  unfold Search.turnBy
  simp only
  split
  · exact ⟨rfl, hagree hqueue hcurrent, rfl⟩
  cases hcurrent with
  | some ha => exact (hagree hqueue (.some ha)).advanceBy ht ht' ha w
  | none =>
      cases hqueue with
      | nil => exact ⟨rfl, hagree .nil .none, rfl⟩
      | @cons p p' rest rest' hp hrest =>
          simp only [hp.name_eq]
          rcases hl : ExceptT.run (source'.clauses p.name token') w with ⟨f | clauses, w'⟩
          · exact ⟨rfl, hagree hrest .none, rfl⟩
          · obtain ⟨b, -, hperform⟩ := Engine.Runs.of_bind ⟨w, w', hl⟩
            obtain ⟨host, hhost⟩ := hperform.of_perform
            have hfound : Alternatives.Agrees ⟨p, clauses⟩ ⟨p', clauses⟩ :=
              ⟨hp, rfl, hauth p.name b host clauses hhost⟩
            exact (hagree hrest .none).advanceBy ht ht' hfound w'

theorem Agrees.nextBy (h : s.Agrees s') (turns : Nat) (w : World σ) :
    Alongside (Search.nextBy tidy turns s w) (Search.nextBy tidy' turns s' w) := by
  induction turns generalizing s s' w with
  | zero => exact ⟨rfl, h, rfl⟩
  | succ turns ih =>
      have hturn := h.turnBy ht ht' w
      rw [Search.nextBy, Search.nextBy, h.done]
      split
      · exact ⟨rfl, h, rfl⟩
      generalize s.turnBy tidy w = x at hturn
      generalize s'.turnBy tidy' w = y at hturn
      obtain ⟨⟨t, s₁⟩, w₁⟩ := x
      obtain ⟨⟨t', s₁'⟩, w₁'⟩ := y
      obtain ⟨hresult, hsearch, hworld⟩ := hturn
      obtain rfl : t' = t := hresult
      obtain rfl : w₁' = w₁ := hworld
      cases t' with
      | running => exact ih hsearch w₁'
      | answered a => exact ⟨rfl, hsearch, rfl⟩
      | exhausted => exact ⟨rfl, hsearch.close, rfl⟩
      | stopped f =>
          cases f with
          | error err => exact ⟨rfl, hsearch.close, by rw [h.query]⟩
          | crash c => exact ⟨rfl, hsearch, rfl⟩

end Tidy

theorem start_agrees {src : Source σ} (hsrc : src.Authored) {name : String} {actuals : List Actual} {t : Token}
    (h : start src name actuals t = .ok s) : s.Agrees s := by
  unfold start at h
  split at h
  · cases h
  · cases h
    exact ⟨rfl, rfl, rfl, rfl, .cons (.query name actuals) .nil, .none, hsrc⟩

/-- The items of several calls, each with a number of turns, and the world that they leave. Before each call the host may
do something to the world. -/
def yields (next : Nat → Search σ → World σ → (Item × Search σ) × World σ) :
    List (Nat × (World σ → World σ)) → Search σ → World σ → List Item × World σ
  | [], _, w => ([], w)
  | (turns, meanwhile) :: calls, s, w =>
    let yielded := next turns s (meanwhile w)
    let more := yields next calls yielded.1.2 yielded.2
    (yielded.1.1 :: more.1, more.2)

/-- Engines that tidy up in different ways yield the same. -/
theorem Agrees.yields {tidy tidy' : Env → Env} (ht : Env.Tidies tidy) (ht' : Env.Tidies tidy') (h : s.Agrees s')
    (calls : List (Nat × (World σ → World σ))) (w : World σ) :
    s'.yields (Search.nextBy tidy') calls w = s.yields (Search.nextBy tidy) calls w := by
  induction calls generalizing s s' w with
  | nil => rfl
  | cons call calls ih =>
      obtain ⟨turns, meanwhile⟩ := call
      obtain ⟨hresult, hsearch, hworld⟩ := h.nextBy ht ht' turns (meanwhile w)
      simp only [Search.yields, hresult, hworld, ih hsearch]

end Search

/-- How the scopes of a branch fare. What is done inside the innermost one leaves it direct and rewrites no other; the
next one outwards is rewritten when it becomes the innermost. -/
structure Resolvent.KeptDirect (r : Resolvent σ) : Prop where
  before : r.env.Direct
  after : ∀ g rest e, r.agenda.next? = some (g, rest) → (g.step r.env).Runs (.next e) → e.Direct
  stops : ∀ stopped, r.StopsAt stopped → stopped.env.Direct ∧
    (∀ slot ∈ stopped.arguments, stopped.env.AtRoot slot) ∧ stopped.env.enclosing = r.env.enclosing
  enclosing : ∀ g rest e, r.agenda.next? = some (g, rest) → (g.step r.env).Runs (.next e) → g.Authored →
    e.enclosing = r.env.enclosing
  closes : ∀ rest e, r.agenda.next? = some (.closeScope, rest) → ((Goal.closeScope : Goal σ).step r.env).Runs (.next e) →
    ∃ outer, r.env.enclosing = outer :: e.enclosing ∧ e.scope = outer.move e.store.find

theorem Env.closeScope_moves {e e' : Env} (h : e.closeScope = .ok e') :
    ∃ outer, e.enclosing = outer :: e'.enclosing ∧ e'.scope = outer.move e'.store.find := by
  obtain ⟨outer, rest, henc, rfl⟩ := Env.closeScope_eq_ok.mp h
  have hfind : (e.dropScope outer rest).redirect.store.find = (e.dropScope outer rest).store.find :=
    funext (Env.alike_redirect _).find_eq
  refine ⟨outer, henc, ?_⟩
  rw [hfind]
  rfl

theorem Source.Reaches.keptDirect {src : Source σ} (hsrc : src.Authored) {actuals : List Actual} {r : Resolvent σ}
    (hr : src.Reaches actuals r) : r.KeptDirect where
  before := (hr.direct hsrc).env
  after := fun _ _ _ hnext hstep => (hr.goal hnext hstep).direct hsrc |>.env
  stops := fun stopped hstops => by
    obtain ⟨hdirect, hslots⟩ := (hr.direct hsrc).stops (hr.shaped hsrc) hstops
    obtain ⟨g, -, hstep⟩ := hstops
    exact ⟨hdirect, hslots, (Goal.step_call (hr.shaped hsrc).sound.bounded hstep).2.1.toInside.enclosing_eq⟩
  enclosing := fun _ _ _ _ hstep hg =>
    ((Goal.step_edits hstep hg).inside (hr.shaped hsrc).sound.bounded).enclosing_eq
  closes := fun _ _ _ hstep => Env.closeScope_moves (Goal.step_next (hr.shaped hsrc).sound.bounded hstep)

def unite : Goal Unit := .bind (.formal ⟨0, "former", .int⟩) (.param (.formal ⟨1, "latter", .int⟩))

def uniting : Clause Unit where
  name := "unite"
  formals := [⟨0, "former", .int⟩, ⟨1, "latter", .int⟩]
  body := .fixed [unite]
  name_ne := by decide
  distinct := by decide

def delegate : Goal Unit := .call "unite" [.param (.formal ⟨2, "c", .int⟩), .param (.formal ⟨3, "d", .int⟩)]

def bindSecond : Goal Unit := .bind (.formal ⟨3, "d", .int⟩) (.literal (.int 5))

def delegating : Clause Unit where
  name := "delegate"
  formals := [⟨2, "c", .int⟩, ⟨3, "d", .int⟩]
  body := .fixed [delegate, bindSecond]
  name_ne := by decide
  distinct := by decide

def delegates : Database Unit := ⟨[uniting, delegating]⟩

theorem delegates_authored : delegates.source.Authored := by
  refine Database.source_authored fun c hc => ?_
  rcases List.mem_cons.mp hc with rfl | hc
  · exact Clause.authored_of_fixed rfl (by simp [unite, Goal.Authored])
  · obtain rfl := List.mem_singleton.mp hc
    exact Clause.authored_of_fixed rfl (by simp [delegate, bindSecond, Goal.Authored])

def leftOutput : Actual := .output (.shared 0) none .int none

def rightOutput : Actual := .output (.shared 1) none .int none

def delegated (serial : Nat) : Env where
  store := ⟨#[⟨0, .int, none, [⟨leftOutput, 0⟩]⟩, ⟨1, .int, none, [⟨rightOutput, 0⟩]⟩], []⟩
  scope := ⟨[(⟨2, "c", .int⟩, ⟨leftOutput, 0⟩), (⟨3, "d", .int⟩, ⟨rightOutput, 1⟩)], [], ⟨0, 0⟩⟩
  enclosing := []
  serial := serial

def united : List (Formal × Slot) := [(⟨0, "former", .int⟩, ⟨leftOutput, 0⟩), (⟨1, "latter", .int⟩, ⟨rightOutput, 1⟩)]

/-- Inside the callee the caller's second formal goes on to denote a cell that represents nothing any more. -/
theorem delegates_stale : ∃ r : Resolvent Unit, delegates.source.Reaches [leftOutput, rightOutput] r ∧ r.env.Stale := by
  have hdelegating : delegates.source.Offers delegating :=
    ⟨"delegate", false, (), _, rfl, by simp [delegates, Database.named, delegating]⟩
  have huniting : delegates.source.Offers uniting :=
    ⟨"unite", false, (), _, rfl, by simp [delegates, Database.named, uniting]⟩
  have hquery : delegates.source.Reaches [leftOutput, rightOutput] ⟨delegated 1, .ofList [delegate, bindSecond]⟩ :=
    .query hdelegating (by decide) ⟨World.start (), _, rfl⟩
  have hstops : Resolvent.StopsAt ⟨delegated 1, .ofList [delegate, bindSecond]⟩
      ⟨"unite", [⟨leftOutput, 0⟩, ⟨rightOutput, 1⟩], delegated 1, ⟨[[bindSecond]]⟩⟩ :=
    ⟨_, rfl, World.start (), _, rfl⟩
  have hcall : delegates.source.Reaches [leftOutput, rightOutput]
      ⟨delegated 2, ⟨[[.openScope united], [unite], [.closeScope], [bindSecond]]⟩⟩ :=
    .call hquery hstops huniting (by decide) ⟨World.start (), _, rfl⟩
  have hopened : delegates.source.Reaches [leftOutput, rightOutput]
      ⟨(delegated 2).openScope united, ⟨[[], [unite], [.closeScope], [bindSecond]]⟩⟩ :=
    .goal hcall rfl ⟨World.start (), _, rfl⟩
  have hstale : ((ExceptT.run (unite.step ((delegated 2).openScope united)) (World.start ())).1.toOption.bind
      Step.next?).any (fun e => decide e.Stale) = true := by decide +kernel
  obtain ⟨e, hnext, hstale⟩ := (Option.any_eq_true _ _).mp hstale
  exact ⟨⟨e, _⟩, .goal hopened rfl (Goal.runs_of_next? hnext), of_decide_eq_true hstale⟩

/-- Redirection suffices: wherever a branch stands, before and after every goal, the innermost scope is direct, although
enclosing scopes go stale until what they have called is done. And it cannot be told from no redirection: in whatever
order cells are compressed, nothing that is read off them changes, and a search without it yields the same items. -/
theorem redirection_suffices_and_is_unseen {src : Source σ} (hsrc : src.Authored) :
    (∀ (actuals : List Actual) (r : Resolvent σ), src.Reaches actuals r → r.KeptDirect) ∧
    (∃ (d : Database Unit) (actuals : List Actual) (r : Resolvent Unit),
      d.source.Authored ∧ d.source.Reaches actuals r ∧ r.env.Stale) ∧
    (∀ (s : Store) (slots : List Slot), s.ReadsAs (slots.foldl (fun s slot => s.compress slot.cell) s)) ∧
    (∀ (e : Env) (slots : List Slot), e.scope.slots.Perm slots →
      slots.foldl (fun s slot => s.compress slot.cell) e.store = e.redirect.store) ∧
    (∀ (turns : Nat) (s : Search σ) (w : World σ), Search.nextBy Env.redirect turns s w = Search.next turns s w) ∧
    ∀ (name : String) (actuals : List Actual) (t : Token) (s : Search σ), Search.start src name actuals t = .ok s →
      ∀ (calls : List (Nat × (World σ → World σ))) (w : World σ),
        s.yields (Search.nextBy id) calls w = s.yields Search.next calls w := by
  have hnext : Search.nextBy (σ := σ) Env.redirect = Search.next :=
    funext fun turns => funext fun s => funext fun w => Search.nextBy_redirect turns s w
  obtain ⟨r, hr, hstale⟩ := delegates_stale
  refine ⟨fun actuals r hr => hr.keptDirect hsrc, ⟨_, _, r, delegates_authored, hr, hstale⟩, Store.readsAs_compressAll,
    fun e slots hperm => e.store.compressAll_perm hperm, Search.nextBy_redirect, ?_⟩
  intro name actuals t s hstart calls w
  rw [← hnext]
  exact (Search.start_agrees hsrc hstart).yields Env.tidies_redirect Env.tidies_id calls w

/-- The callee leaves the caller's scope stale, and the caller finds its second formal all the same. -/
theorem delegates_unseen : ∃ (r : Resolvent Unit) (s : Search Unit),
    delegates.source.Authored ∧ delegates.source.Reaches [leftOutput, rightOutput] r ∧ r.env.Stale ∧ r.KeptDirect ∧
    Search.start delegates.source "delegate" [leftOutput, rightOutput] "t" = .ok s ∧
    (s.yields (Search.nextBy id) [(9, id), (9, id)] (World.start ())).1 =
      [.answer ⟨[⟨leftOutput, .int, some (.int 5), [rightOutput]⟩, ⟨rightOutput, .int, some (.int 5), [leftOutput]⟩]⟩,
        .ended] := by
  obtain ⟨r, hr, hstale⟩ := delegates_stale
  obtain ⟨hdirect, -, -, -, -, hyields⟩ := redirection_suffices_and_is_unseen delegates_authored
  have hstart : Search.start delegates.source "delegate" [leftOutput, rightOutput] "t" = .ok _ := rfl
  refine ⟨r, _, delegates_authored, hr, hstale, hdirect _ r hr, hstart, ?_⟩
  rw [hyields _ _ _ _ hstart]
  decide +kernel

end Clausal
