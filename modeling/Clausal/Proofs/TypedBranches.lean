import Clausal.Proofs.Typing

/-! Typed branches. Main statement: with a typed source and a typed query, all that a branch comes to is typed, for
the actuals of all clause instances that have been made on the way. -/
namespace Clausal

variable {σ : Type} {T T' : Typing}

theorem Term.ty_of_constant? {ty : Ty} {v : Value} (h : Term.constant? ty v = .ok (.constant ty v : Term σ)) :
    ty.Accepts v.ty := by
  obtain ⟨w, hw, h⟩ := Except.bind_eq_ok h
  cases h
  unfold Ty.ensure at hw
  split at hw
  · assumption
  · cases hw

theorem Goal.accepts_of_bind? {p : Param} {t : Term σ} (h : Goal.bind? p t = .ok (.bind p t)) : p.ty.Accepts t.ty := by
  unfold Goal.bind? at h
  split at h
  · assumption
  · cases h

theorem Goal.Typed.bind_ty_eq {p : Param} {t : Term σ} (h : (Goal.bind p t).Typed T) : p.ty = t.ty :=
  (Goal.accepts_of_bind? h.2.2).eq_of_ne h.1.ty_ne

namespace Env

variable {e e' : Env}

structure Denotes (e : Env) (r : Resolved) : Prop where
  lt : r.slot.cell < e.store.cells.size
  own_eq : e.store.own r.slot.cell = r.ty

theorem Typed.resolve (h : e.Typed T) (hs : e.Sound) {p : Param} (hp : p.Typed T) {r : Resolved}
    (hr : e.resolve p = .ok (r, e')) : e'.Typed T ∧ e'.Sound ∧ e'.Denotes r ∧ r.ty = p.ty := by
  obtain ⟨hadds, hty, hslot⟩ := resolve_adds (P := Param.Typed T) (Q := (· ≠ .any)) hp hr
  obtain ⟨h', hs', -⟩ := h.additions hs hadds
  exact ⟨h', hs', ⟨hs'.bounded r.slot (Scope.mem_slots_of_slot? hslot), (h'.own_eq hp hslot).trans hty.symm⟩, hty⟩

theorem Typed.denotes (h : e.Typed T) (hs : e.Sound) (hadds : Additions (Param.Typed T) (· ≠ .any) e e') {r : Resolved}
    (hr : e.Denotes r) : e'.Denotes r := by
  obtain ⟨-, -, hsize, hown⟩ := h.additions hs hadds
  exact ⟨Nat.lt_of_lt_of_le hr.lt hsize, (hown _ hr.lt).trans hr.own_eq⟩

/-- References of one type unify without a change of types. -/
theorem Typed.unify (h : e.Typed T) (hs : e.Sound) {target source : Resolved} (ht : e.Denotes target)
    (hsource : e.Denotes source) (hty : target.ty = source.ty) {s : Store}
    (hu : e.store.unify target.slot.cell source.slot.cell = (.ok true, s)) :
    (({ e with store := s } : Env).redirect).Typed T ∧ (({ e with store := s } : Env).redirect).Sound ∧
      (({ e with store := s } : Env).redirect).Denotes target ∧
        (({ e with store := s } : Env).redirect).Denotes source := by
  have hsame : e.store.own target.slot.cell = e.store.own source.slot.cell := by
    rw [ht.own_eq, hsource.own_eq, hty]
  obtain ⟨hown, huniform⟩ := h.uniform.unify hsame ht.lt hsource.lt hu
  have hinside : e.Inside ({ e with store := s } : Env).redirect :=
    (Inside.of_store (Store.grows_unify ht.lt hsource.lt hu)
      fun hv => hv.unify ht.lt hsource.lt hu).trans (.redirect _)
  have hdenotes {r : Resolved} (hr : e.Denotes r) : (({ e with store := s } : Env).redirect).Denotes r := by
    refine ⟨Nat.lt_of_lt_of_le hr.lt hinside.grows.size_le, ?_⟩
    rw [(alike_redirect _).own_eq]
    exact (hown _).trans hr.own_eq
  exact ⟨(h.withStore hs huniform fun c _ => hown c).redirect, hinside.sound hs, hdenotes ht, hdenotes hsource⟩

theorem Typed.bindOrCheck (h : e.Typed T) (hs : e.Sound) {r : Resolved} (hr : e.Denotes r) {v : Value} {s : Store}
    (hbind : e.store.bindOrCheck r.slot.cell v = (.ok true, s)) : ({ e with store := s } : Env).Typed T ∧
      ({ e with store := s } : Env).Sound ∧ ({ e with store := s } : Env).Denotes r := by
  have hinside : e.Inside { e with store := s } :=
    .of_store (Store.grows_bindOrCheck hbind) fun hv => hv.bindOrCheck hbind
  have hown := Store.own_bindOrCheck hbind
  refine ⟨h.withStore hs (h.uniform.bindOrCheck hbind) fun c _ => hown c, hinside.sound hs, ?_, ?_⟩
  · exact Nat.lt_of_lt_of_le hr.lt hinside.grows.size_le
  · exact (hown _).trans hr.own_eq

theorem Typed.pass (h : e.Typed T) (hs : e.Sound) {t : Term σ} (ht : t.Typed T) {slot : Slot}
    (hpass : (e.pass t).Runs (slot, e')) : slot.Typed T e'.store := by
  obtain ⟨hadds, hslot⟩ := pass_adds (P := Param.Typed T) (Q := (· ≠ .any)) ht.reads ht.ty_ne hpass
  rcases hslot with ⟨p, -, hslot⟩ | ⟨v, e₁, hv, hok⟩
  · exact (h.additions hs hadds).1.slot_typed (Scope.mem_slots_of_slot? hslot)
  · obtain ⟨h₁, hs₁, -⟩ := h.additions hs (evaluate_adds ht.reads hv)
    exact (h₁.addLiteral hs₁ ht.ty_ne hok).2

theorem Typed.passAll_additions {ts : List (Term σ)} (hts : ∀ t ∈ ts, t.Typed T) {slots : List Slot}
    (hpass : (e.passAll ts).Runs (slots, e')) : Additions (Param.Typed T) (· ≠ .any) e e' :=
  passAll_adds (fun t ht => (hts t ht).reads) (fun t ht => (hts t ht).ty_ne) hpass

theorem Typed.passAll (h : e.Typed T) (hs : e.Sound) {ts : List (Term σ)} (hts : ∀ t ∈ ts, t.Typed T)
    {slots : List Slot} (hpass : (e.passAll ts).Runs (slots, e')) : ∀ slot ∈ slots, slot.Typed T e'.store := by
  induction ts generalizing e slots with
  | nil =>
      cases hpass.of_pure
      exact fun _ h => absurd h List.not_mem_nil
  | cons t ts ih =>
      obtain ⟨⟨first, e₁⟩, hfirst, hpass⟩ := hpass.of_bind
      obtain ⟨⟨rest, e₂⟩, hrest, hpass⟩ := hpass.of_bind
      cases hpass.of_pure
      have ht := hts t List.mem_cons_self
      have hts' : ∀ t ∈ ts, t.Typed T := fun t' h' => hts t' (List.mem_cons_of_mem t h')
      obtain ⟨h₁, hs₁, -⟩ := h.additions hs (pass_adds ht.reads ht.ty_ne hfirst).1
      obtain ⟨-, -, -, hown⟩ := h₁.additions hs₁ (Typed.passAll_additions hts' hrest)
      intro slot hslot
      rcases List.mem_cons.mp hslot with rfl | hslot
      · exact (h.pass hs ht hfirst).of_own (hown _ (pass_runs hs.bounded hfirst).2)
      · exact ih h₁ hs₁ hts' hrest slot hslot

/-- Actuals that match a signature of typed formals have the types of the formals. -/
theorem arguments_typed {c : Clause σ} (hc : ∀ f ∈ c.formals, T.formal f.id = some f.ty) {s : Store}
    {slots : List Slot} (hslots : ∀ slot ∈ slots, slot.Typed T s) (hmatch : c.Matches (slots.map Slot.parameter)) :
    ∀ a ∈ c.formals.zip slots, Argument.Typed T s a := by
  rintro ⟨f, slot⟩ ha
  have hf := hc f (List.of_mem_zip ha).1
  have hslot := hslots slot (List.of_mem_zip ha).2
  have hmem : (f, slot.parameter) ∈ c.formals.zip (slots.map Slot.parameter) := by
    rw [List.zip_map_right]
    exact List.mem_map_of_mem ha
  have hty : f.ty = slot.parameter.ty := by
    have hmatches : slot.parameter.Matches f := hmatch.2 _ hmem
    unfold Actual.Matches at hmatches
    split at hmatches
    · exact hmatches.eq_of_ne (Param.Typed.ty_ne (p := .formal f) hf)
    · exact (hmatches.eq_of_ne hslot.ne_any).symm
  exact ⟨hslot, hty ▸ hf⟩

end Env

namespace Goal

variable {e e' : Env}

/-- A typed binding that leads on keeps the environment typed. -/
theorem Typed.bind {p : Param} {t : Term σ} (hg : (Goal.bind p t).Typed T) (h : e.Typed T) (hs : e.Sound)
    (hstep : ((Goal.bind p t).step e).Runs (.next e')) : e'.Typed T := by
  obtain ⟨target, e₁, hp, hnext⟩ := bind_next hstep
  obtain ⟨h₁, hs₁, htarget, hty⟩ := h.resolve hs hg.1 hp
  rcases hnext with ⟨q, source, e₂, s, rfl, hq, hu, rfl⟩ | ⟨v, e₂, s, -, hv, hbind, rfl⟩
  · have hqt : q.Typed T := hg.2.1
    obtain ⟨h₂, hs₂, hsource, hty'⟩ := h₁.resolve hs₁ hqt hq
    have htarget' := h₁.denotes hs₁ (Env.resolve_adds hqt hq).1 htarget
    have hsame : target.ty = source.ty := by
      rw [hty, hty']
      exact hg.bind_ty_eq
    exact (h₂.unify hs₂ htarget' hsource hsame hu).1
  · have hadds := Env.evaluate_adds (Q := (· ≠ Ty.any)) hg.2.1.reads hv
    obtain ⟨h₂, hs₂, -⟩ := h₁.additions hs₁ hadds
    exact (h₂.bindOrCheck hs₂ (h₁.denotes hs₁ hadds htarget) hbind).1

/-- Goals that a branch may have left. What a scope is going to be opened with is typed. -/
def TypedIn (T : Typing) (e : Env) : Goal σ → Prop
  | .openScope arguments => ∀ a ∈ arguments, Argument.Typed T e.store a
  | .closeScope => True
  | .bind p t => (Goal.bind p t).Typed T
  | .call name arguments => (Goal.call name arguments).Typed T
  | .check _ | .action _ => True

theorem Typed.typedIn {g : Goal σ} (h : g.Typed T) (e : Env) : g.TypedIn T e := by
  cases g with
  | bind p t => exact h
  | call name arguments => exact h
  | check f => trivial
  | action f => trivial
  | openScope arguments => exact h.elim
  | closeScope => exact h.elim

/-- All goals but those that open a scope are typed in any environment, and once more actuals are typed. -/
theorem TypedIn.elsewhere {g : Goal σ} (h : g.TypedIn T e) (hg : ∀ arguments, g ≠ .openScope arguments)
    (hT : T'.Extends T) (e' : Env) : g.TypedIn T' e' := by
  cases g with
  | openScope arguments => exact absurd rfl (hg arguments)
  | closeScope => trivial
  | bind p t => exact Typed.mono (g := .bind p t) hT h
  | call name arguments => exact Typed.mono (g := .call name arguments) hT h
  | check f => trivial
  | action f => trivial

theorem TypedIn.step {g : Goal σ} (hg : g.TypedIn T e) (h : e.Typed T) (hs : e.Sound)
    (hstep : (g.step e).Runs (.next e')) : e'.Typed T := by
  cases leads hstep with
  | bind _ => exact Typed.bind hg h hs hstep
  | check f => exact h
  | action f => exact h
  | openScope arguments => exact h.openScope hg
  | closeScope hclose => exact h.closeScope hs hclose

end Goal

namespace Resolvent

structure Typed (T : Typing) (r : Resolvent σ) : Prop where
  env : r.env.Typed T
  goals : ∀ g ∈ r.agenda.toList, g.TypedIn T r.env

theorem Typed.goal {r : Resolvent σ} (h : r.Typed T) (hr : r.Shaped) {g : Goal σ} {rest : Agenda σ} {e : Env}
    (hnext : r.agenda.next? = some (g, rest)) (hstep : (g.step r.env).Runs (.next e)) :
    (⟨e, rest⟩ : Resolvent σ).Typed T := by
  have hlist : r.agenda.toList = g :: rest.toList := Agenda.toList_of_next? hnext
  have hbalanced := hr.balanced
  rw [hlist] at hbalanced
  have hgoals := h.goals
  rw [hlist] at hgoals
  refine ⟨(hgoals g List.mem_cons_self).step h.env hr.sound hstep, fun g' hg' => ?_⟩
  exact (hgoals g' (List.mem_cons_of_mem g hg')).elsewhere (hbalanced.noEntry g' hg') (.refl T) e

/-- Up to the call, and in what it passes, everything is typed. -/
theorem Typed.stopsAt {r : Resolvent σ} (h : r.Typed T) (hr : r.Shaped) {stopped : Call σ}
    (hstops : r.StopsAt stopped) : stopped.env.Typed T ∧
      (∀ slot ∈ stopped.arguments, slot.Typed T stopped.env.store) ∧
        ∀ g ∈ stopped.rest.toList, g.TypedIn T r.env ∧ ∀ arguments, g ≠ .openScope arguments := by
  obtain ⟨g, hnext, hstep⟩ := hstops
  have hlist : r.agenda.toList = g :: stopped.rest.toList := Agenda.toList_of_next? hnext
  have hbalanced := hr.balanced
  rw [hlist] at hbalanced
  have hgoals := h.goals
  rw [hlist] at hgoals
  obtain ⟨⟨arguments, rfl⟩, -⟩ := Goal.step_call hr.sound.bounded hstep
  have hts : ∀ t ∈ arguments, t.Typed T := hgoals _ List.mem_cons_self
  obtain ⟨⟨slots, e⟩, hpass, hstep⟩ := hstep.of_bind
  cases hstep.of_pure
  refine ⟨(h.env.additions hr.sound (Env.Typed.passAll_additions hts hpass)).1,
    h.env.passAll hr.sound hts hpass, fun g' hg' => ?_⟩
  exact ⟨hgoals g' (List.mem_cons_of_mem _ hg'), hbalanced.noEntry g' hg'⟩

theorem Typed.call {T₀ : Typing} {r r' : Resolvent σ} (h : r.Typed T) (hr : r.Shaped) (hT : T.Extends T₀)
    {stopped : Call σ} (hstops : r.StopsAt stopped) {c : Clause σ} (hc : c.Typed T₀)
    (hmatch : c.Matches stopped.actuals) (hresume : (stopped.resume c).Runs r') : ∃ T', T'.Extends T ∧ r'.Typed T' := by
  obtain ⟨henv, hslots, hrest⟩ := h.stopsAt hr hstops
  obtain ⟨hserial, body, hbody, hagenda⟩ := resume_runs hresume
  obtain ⟨own, hown⟩ := hc.bodies _ _ hbody
  have hextends : (T.extend stopped.env.serial own).Extends T := Typing.extends_extend henv.before.fresh own
  have hformals : ∀ f ∈ c.formals, T.formal f.id = some f.ty := by
    intro f hf
    rw [hT.formal_eq]
    exact hc.formals f hf
  have harguments := Env.arguments_typed hformals hslots hmatch
  refine ⟨_, hextends, ⟨?_, ?_⟩⟩
  · rw [hserial]
    exact ⟨henv.uniform, fun sc hsc slot hslot => (henv.slots sc hsc slot hslot).mono hextends, henv.formals,
      henv.before.extend own⟩
  · rw [hagenda, hserial]
    intro g hg
    rcases List.mem_cons.mp hg with rfl | hg
    · exact fun a ha => ⟨(harguments a ha).1.mono hextends, (harguments a ha).2⟩
    rcases List.mem_append.mp hg with hg | hg
    · exact ((hown g hg).mono (hT.extend _ own)).typedIn _
    rcases List.mem_cons.mp hg with rfl | hg
    · trivial
    · exact (hrest g hg).1.elsewhere (hrest g hg).2 hextends _

theorem Typed.start {actuals : List Actual} (hactuals : ∀ a ∈ actuals, (Param.actual a).Typed T)
    (hshared : ∀ id ty, T.actual id = some ty → ∃ n, id = .shared n) {c : Clause σ} (hc : c.Typed T)
    (hmatch : c.Matches actuals) {r : Resolvent σ} (hruns : (Resolvent.ofQuery c actuals).Runs r) :
    ∃ T', T'.Extends T ∧ r.Typed T' := by
  obtain ⟨e, he, hruns⟩ := hruns.of_bind
  obtain ⟨body, hbody, hruns⟩ := hruns.of_bind
  cases hruns.of_pure
  obtain ⟨slots, hseated, -, hscope, henc⟩ := Env.ofQuery_ok he.of_lift
  obtain ⟨own, hown⟩ := hc.bodies _ _ hbody
  have hbefore : T.Before e.serial := by
    intro id ty hty
    obtain ⟨n, rfl⟩ := hshared id ty hty
    trivial
  have hextends : (T.extend e.serial own).Extends T := Typing.extends_extend hbefore.fresh own
  have hparameter : ∀ slot ∈ slots, T.actual slot.parameter.id = some slot.parameter.ty := by
    intro slot hslot
    refine hactuals slot.parameter ?_
    rw [← hseated.parameters]
    exact List.mem_map_of_mem hslot
  have hne : ∀ slot ∈ slots, slot.parameter.ty ≠ .any := fun slot hslot =>
    Param.Typed.ty_ne (p := .actual slot.parameter) (hparameter slot hslot)
  have hslots : ∀ slot ∈ slots, slot.Typed T e.store := by
    intro slot hslot
    refine ⟨?_, hne slot hslot, .inl (hparameter slot hslot)⟩
    obtain ⟨first, hfirst, hid, -, hown, -⟩ := hseated.shared slot hslot
    rw [hown]
    have hty := hparameter first hfirst
    rw [hid, hparameter slot hslot] at hty
    exact (Option.some.inj hty).symm
  have harguments : ∀ a ∈ c.formals.zip slots, Argument.Typed T e.store a := by
    refine Env.arguments_typed hc.formals hslots ?_
    rw [hseated.parameters]
    exact hmatch
  have hscopes : ∀ sc ∈ e.nextSerial.2.scopes, sc = ⟨c.formals.zip slots, [], ⟨0, 0⟩⟩ := by
    intro sc hsc
    have hsc : sc ∈ e.scope :: e.enclosing := hsc
    rw [hscope, henc] at hsc
    exact List.mem_singleton.mp hsc
  refine ⟨_, hextends, ⟨?_, ?_⟩⟩
  · constructor
    case uniform =>
      refine ⟨fun i hi => ?_, fun i => ?_, hseated.unnarrowed⟩
      · obtain ⟨slot, hslot, -, hown, -⟩ := hseated.backed i hi
        exact hown ▸ hne slot hslot
      · exact congrArg e.store.own (hseated.roots i)
    case slots =>
      intro sc hsc slot hslot
      obtain rfl := hscopes sc hsc
      rcases List.mem_append.mp hslot with hslot | hslot
      · obtain ⟨a, ha, rfl⟩ := List.mem_map.mp hslot
        exact (harguments a ha).1.mono hextends
      · exact absurd hslot List.not_mem_nil
    case formals =>
      intro sc hsc a ha
      obtain rfl := hscopes sc hsc
      exact (harguments a ha).2
    case before => exact hbefore.extend own
  · rw [Agenda.toList_ofList]
    exact fun g hg => (hown g hg).typedIn _

end Resolvent

/-- Goals that refer to no actuals of an instance's own are typed in every instance. -/
theorem Clause.typed_of_fixed {c : Clause σ} {goals : List (Goal σ)} (hT : ∀ n index, T.actual (.own n index) = none)
    (hc : c.body = .fixed goals) (hformals : ∀ f ∈ c.formals, T.formal f.id = some f.ty)
    (hgoals : ∀ g ∈ goals, g.Typed T) : c.Typed T where
  formals := hformals
  bodies := by
    intro n made hruns
    unfold Clause.instantiate at hruns
    rw [hc] at hruns
    cases hruns.of_pure
    refine ⟨fun _ => ⟨.bool, by decide⟩, fun g hg => (hgoals g hg).mono ?_⟩
    exact Typing.extends_extend (hT n) _

/-- All that branches of a typed query come to is typed. -/
theorem Source.Reaches.typed {src : Source σ} {actuals : List Actual} (hsrc : src.Typed T)
    (hactuals : ∀ a ∈ actuals, (Param.actual a).Typed T) {r : Resolvent σ} (h : src.Reaches actuals r) :
    ∃ T', T'.Extends T ∧ r.Typed T' ∧ r.Shaped := by
  suffices htyped : ∃ T', T'.Extends T ∧ r.Typed T' from
    htyped.imp fun T' h' => ⟨h'.1, h'.2, h.shaped hsrc.authored⟩
  induction h with
  | query hc hmatch hruns => exact Resolvent.Typed.start hactuals hsrc.shared (hsrc.clauses _ hc) hmatch hruns
  | goal hpre hnext hstep ih =>
      obtain ⟨T', hT, htyped⟩ := ih
      exact ⟨T', hT, htyped.goal (hpre.shaped hsrc.authored) hnext hstep⟩
  | call hpre hstops hc hmatch hresume ih =>
      obtain ⟨T', hT, htyped⟩ := ih
      obtain ⟨T'', hT', htyped'⟩ := htyped.call (hpre.shaped hsrc.authored) hT hstops (hsrc.clauses _ hc) hmatch hresume
      exact ⟨T'', hT'.trans hT, htyped'⟩

end Clausal
