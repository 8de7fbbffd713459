import Clausal.Proofs.Coherence
import Clausal.Proofs.Persistence

/-! One variable for each parameter of a scope. In whatever environment a branch is, its scopes are coherent. Main
statement: resolving a parameter over and over, as long as its scope is open, always gives one variable, and looking
it up gives the same; and at the start two positions of a query denote one cell exactly if they were given one
parameter. -/
namespace Clausal

variable {σ : Type}

def Goal.reads : Goal σ → List Param
  | .bind p t => p :: t.reads
  | .call _ arguments => arguments.flatMap Term.reads
  | .check _ | .action _ | .openScope _ | .closeScope => []

/-- Bodies are made of authored goals, which refer to no literal that is still to get its identity. -/
def Clause.Given (c : Clause σ) : Prop :=
  ∀ n goals, (c.instantiate n).Runs goals → ∀ g ∈ goals, g.Authored ∧ ∀ p ∈ g.reads, p.Given n

def Source.Given (src : Source σ) : Prop := ∀ c, src.Offers c → c.Given

theorem Clause.Given.authored {c : Clause σ} (h : c.Given) : c.Authored :=
  fun n goals hruns g hg => (h n goals hruns g hg).1

theorem Source.Given.authored {src : Source σ} (h : src.Given) : src.Authored :=
  fun name cancelled host clauses hok c hc => (h c ⟨name, cancelled, host, clauses, hok, hc⟩).authored

theorem Clause.given_of_fixed {c : Clause σ} {goals : List (Goal σ)} (hc : c.body = .fixed goals)
    (h : ∀ g ∈ goals, g.Authored ∧ ∀ p ∈ g.reads, p.Given 0) : c.Given := by
  intro n made hruns g hg
  unfold Clause.instantiate at hruns
  rw [hc] at hruns
  cases hruns.of_pure
  exact ⟨(h g hg).1, fun p hp => ((h g hg).2 p hp).mono (Nat.zero_le n)⟩

namespace Env

variable {e e' : Env} {n : Nat} {Q : Ty → Prop}

theorem Coherent.bind {p : Param} {t : Term σ} (h : e.Coherent) (hs : e.Sound) (hp : p.Given e.serial)
    (ht : ∀ q ∈ t.reads, q.Given e.serial) (hstep : ((Goal.bind p t).step e).Runs (.next e')) :
    e'.Coherent ∧ e.serial ≤ e'.serial := by
  obtain ⟨target, e₁, hresolve, hnext⟩ := Goal.bind_next hstep
  have htarget := (resolve_ok hs.bounded hresolve).2.1
  have hadds₁ := (resolve_adds (Q := fun _ => True) hp hresolve).1
  have hinside₁ := (resolve_ok hs.bounded hresolve).1
  rcases hnext with ⟨q, source, e₂, s, rfl, hq, hu, rfl⟩ | ⟨v, e₂, s, -, hv, hbind, rfl⟩
  · have hadds₂ := (resolve_adds (Q := fun _ => True) (ht q List.mem_cons_self) hq).1
    obtain ⟨h₂, hs₂, hserial⟩ := h.additions hs (Nat.le_refl _) (hadds₁.trans hadds₂)
    obtain ⟨hquiet, hsource, -⟩ := resolve_ok (hinside₁.bounded hs.bounded) hq
    have hgrows := Store.grows_unify (Nat.lt_of_lt_of_le htarget hquiet.grows.size_le) hsource hu
    have hunified : ({ e₂ with store := s } : Env).Coherent := h₂.grow hs₂ rfl hgrows (Nat.le_refl _)
    exact ⟨hunified.redirect, hserial⟩
  · have hadds₂ := evaluate_adds (Q := fun _ => True) ht hv
    obtain ⟨h₂, hs₂, hserial⟩ := h.additions hs (Nat.le_refl _) (hadds₁.trans hadds₂)
    exact ⟨h₂.grow hs₂ rfl (Store.grows_bindOrCheck hbind) (Nat.le_refl _), hserial⟩

theorem Coherent.goal {g : Goal σ} (h : e.Coherent) (hs : e.Sound) (hg : ∀ p ∈ g.reads, p.Given e.serial)
    (hentry : ∀ arguments, g = .openScope arguments → e.Coheres (arguments.map Prod.snd))
    (hstep : (g.step e).Runs (.next e')) : e'.Coherent ∧ e.serial ≤ e'.serial := by
  cases Goal.leads hstep with
  | @bind p t _ _ =>
      exact h.bind hs (hg p List.mem_cons_self) (fun q hq => hg q (List.mem_cons_of_mem p hq)) hstep
  | check f => exact ⟨h, Nat.le_refl _⟩
  | action f => exact ⟨h, Nat.le_refl _⟩
  | openScope arguments => exact ⟨h.openScope (hentry arguments rfl), Nat.le_refl _⟩
  | closeScope hclose =>
      refine ⟨h.closeScope hs hclose, ?_⟩
      obtain ⟨outer, rest, -, rfl⟩ := closeScope_eq_ok.mp hclose
      exact Nat.le_refl _

/-- What may become of an environment: edits in the innermost scope, and scopes that open and close. -/
inductive Turn : Env → Env → Prop where
  | edited {e e' : Env} : e.Edit e' → Turn e e'
  | opened {e : Env} (arguments : List (Formal × Slot)) :
      (∀ a ∈ arguments, a.2.cell < e.store.cells.size) → Turn e (e.openScope arguments)
  | closed {e e' : Env} : e.closeScope = .ok e' → Turn e e'

/-- Any number of turns while the scope of this depth is open. -/
abbrev Onward (k : Nat) : Env → Env → Prop := Relation.ReflTransGen fun e e' => e.Turn e' ∧ k ≤ e'.depth

theorem Onward.lasts {k : Nat} (h : e.Onward k e') (hs : e.Sound) (hk : k ≤ e.depth) :
    e.Lasts k e' ∧ e'.Sound ∧ k ≤ e'.depth := by
  induction h with
  | refl => exact ⟨.refl k e, hs, hk⟩
  | tail _ hturn ih =>
      obtain ⟨hlasts, hs₁, hk₁⟩ := ih
      obtain ⟨hturn, hk₂⟩ := hturn
      cases hturn with
      | edited hedit =>
          exact ⟨hlasts.trans (hedit.lasts hs₁ hk₁), (hedit.inside hs₁.bounded).sound hs₁, hk₂⟩
      | opened arguments harguments =>
          exact ⟨hlasts.trans (lasts_openScope arguments hk₁), hs₁.openScope harguments, hk₂⟩
      | closed hclose =>
          exact ⟨hlasts.trans (lasts_closeScope hs₁ hclose hk₂), (Change.closed hclose).sound hs₁, hk₂⟩

theorem Edits.onward {k : Nat} (h : e.Edits e') (hb : e.Bounded) (hk : k ≤ e.depth) : e.Onward k e' := by
  induction h with
  | refl => exact .refl
  | tail hpre hedit ih =>
      have hinside := Edits.inside (.tail hpre hedit) hb
      exact ih.tail ⟨.edited hedit, hinside.depth_eq ▸ hk⟩

theorem lookup_of_slot? {p : Param} {slot : Slot} (h : e.scope.slot? p = some slot) :
    e.lookup p = .ok (some ⟨slot, p.ty⟩) := by
  unfold lookup
  rw [h]

theorem resolve_of_slot? {p : Param} {slot : Slot} (h : e.scope.slot? p = some slot) :
    e.resolve p = .ok (⟨slot, p.ty⟩, e) := by
  unfold resolve
  rw [h]

/-- What has been resolved is found again, as the same variable, whenever the scope is the innermost one. -/
theorem resolve_again {e₁ : Env} {p : Param} {r : Resolved} (hs : e.Sound) (h : e.resolve p = .ok (r, e₁)) :
    e₁.lookup p = .ok (some r) ∧ ∀ e₂, e₁.Onward e.depth e₂ → e₂.depth = e.depth → ∃ r₂,
      e₂.lookup p = .ok (some r₂) ∧ e₂.resolve p = .ok (r₂, e₂) ∧
        e₂.store.find r₂.slot.cell = e₂.store.find r.slot.cell := by
  obtain ⟨-, hty, hslot⟩ := resolve_adds (P := fun _ => True) (Q := fun _ => True) trivial h
  have hinside := (resolve_widens h).1.edits.inside hs.bounded
  have hs₁ := hinside.sound hs
  refine ⟨?_, fun e₂ honward hdepth => ?_⟩
  · rw [lookup_of_slot? hslot, ← hty]
  · obtain ⟨hhere, howned⟩ := slotAt?_here hslot (hs₁.bounded r.slot (Scope.mem_slots_of_slot? hslot))
    rw [hinside.depth_eq] at hhere howned
    obtain ⟨hlasts, -, -⟩ := honward.lasts hs₁ (Nat.le_of_eq hinside.depth_eq.symm)
    obtain ⟨slot₂, hslot₂, -, hfind⟩ := hlasts.slots p r.slot hhere howned
    rw [← hdepth, slotAt?_depth] at hslot₂
    exact ⟨⟨slot₂, p.ty⟩, lookup_of_slot? hslot₂, resolve_of_slot? hslot₂, hfind⟩

theorem read_resolves {p : Param} {v : Value} (h : e.read p = .ok (v, e')) : ∃ r, e.resolve p = .ok (r, e') := by
  obtain ⟨⟨r, e₁⟩, hr, h⟩ := Except.bind_eq_ok h
  simp only at h
  split at h
  · cases h
    exact ⟨r, hr⟩
  · cases h

end Env

section Resolves

variable {e e' : Env} {n : Nat} {p : Param}

theorem Term.evaluate_resolves {t : Term σ} {v : Value} (hp : p ∈ t.reads) (h : (t.evaluate e).Runs (v, e')) :
    ∃ r, e.resolve p = .ok (r, e') := by
  cases t with
  | constant ty w => exact absurd hp List.not_mem_nil
  | param q =>
      obtain rfl := List.mem_singleton.mp hp
      exact Env.read_resolves h.of_lift
  | map ty s =>
      cases s with
      | scope f => exact absurd hp List.not_mem_nil
      | source q f =>
          obtain rfl := List.mem_singleton.mp hp
          obtain ⟨⟨w, e₁⟩, hread, h⟩ := h.of_bind
          obtain ⟨u, -, h⟩ := h.of_bind
          obtain ⟨u', -, h⟩ := h.of_bind
          cases h.of_pure
          exact Env.read_resolves hread.of_lift

/-- On the way from one environment to another the parameter is resolved, after some additions. -/
def Env.ResolvesTo (n : Nat) (p : Param) (e e' : Env) : Prop :=
  ∃ d r d', Env.Additions (Param.Given n) (fun _ => True) e d ∧ d.resolve p = .ok (r, d') ∧ d'.Edits e'

theorem Env.pass_resolves {t : Term σ} {slot : Slot} (hp : p ∈ t.reads) (h : (e.pass t).Runs (slot, e')) :
    e.ResolvesTo n p e' := by
  have hvalue (h : (t.evaluate e >>= fun q => Engine.lift (q.2.addLiteral t.ty q.1)).Runs (slot, e')) :
      e.ResolvesTo n p e' := by
    obtain ⟨⟨v, e₁⟩, hv, h⟩ := h.of_bind
    obtain ⟨r, hr⟩ := Term.evaluate_resolves hp hv
    have hadds : Env.Additions (fun _ => True) (fun _ => True) e₁ e' := .single (.passed trivial h.of_lift)
    exact ⟨e, r, e₁, .refl, hr, hadds.widens.edits⟩
  cases t with
  | constant ty v => exact absurd hp List.not_mem_nil
  | map ty s => exact hvalue h
  | param q =>
      obtain rfl := List.mem_singleton.mp hp
      obtain ⟨⟨r, e₁⟩, hr, h⟩ := h.of_bind
      cases h.of_pure
      exact ⟨e, r, e', .refl, hr.of_lift, .refl⟩

theorem Env.passAll_resolves {ts : List (Term σ)} {slots : List Slot} (hts : ∀ t ∈ ts, ∀ q ∈ t.reads, q.Given n)
    {t : Term σ} (ht : t ∈ ts) (hp : p ∈ t.reads) (h : (e.passAll ts).Runs (slots, e')) : e.ResolvesTo n p e' := by
  induction ts generalizing e slots with
  | nil => exact absurd ht List.not_mem_nil
  | cons t' ts ih =>
      obtain ⟨⟨slot, e₁⟩, hfirst, h⟩ := h.of_bind
      obtain ⟨⟨rest, e₂⟩, hrest, h⟩ := h.of_bind
      cases h.of_pure
      have hts' : ∀ t ∈ ts, ∀ q ∈ t.reads, q.Given n := fun t h' => hts t (List.mem_cons_of_mem t' h')
      rcases List.mem_cons.mp ht with rfl | ht
      · obtain ⟨d, r, d', hd, hr, hedits⟩ := Env.pass_resolves (n := n) hp hfirst
        have hadds := passAll_adds (Q := fun _ => True) hts' (fun _ _ => trivial) hrest
        exact ⟨d, r, d', hd, hr, hedits.trans hadds.widens.edits⟩
      · obtain ⟨d, r, d', hd, hr, hedits⟩ := ih hts' ht hrest
        have hadds := (pass_adds (Q := fun _ => True) (hts t' List.mem_cons_self) trivial hfirst).1
        exact ⟨d, r, d', hadds.trans hd, hr, hedits⟩

/-- A binding resolves the parameter first, and then what its term reads. -/
theorem Goal.bind_resolves {q : Param} {t : Term σ} (hq : q.Given n) (hp : p ∈ (Goal.bind q t).reads)
    (h : ((Goal.bind q t).step e).Runs (.next e')) : e.ResolvesTo n p e' := by
  obtain ⟨target, e₁, hresolve, hnext⟩ := bind_next h
  have hadds₁ := (Env.resolve_adds (Q := fun _ => True) hq hresolve).1
  obtain ⟨hwidens₁, htarget⟩ := Env.resolve_widens hresolve
  obtain ⟨e₂, hwidens₂, hlast, hterm⟩ : ∃ e₂, e₁.Widens e₂ ∧ e₂.Edits e' ∧
      ∀ p ∈ t.reads, ∃ r, e₁.resolve p = .ok (r, e₂) := by
    rcases hnext with ⟨q', source, e₂, s, rfl, hsource, hu, rfl⟩ | ⟨v, e₂, s, -, hv, hbind, rfl⟩
    · obtain ⟨hwidens₂, hin⟩ := Env.resolve_widens hsource
      refine ⟨e₂, hwidens₂, .tail (.single (.unified (hwidens₂.slots _ htarget) hin hu)) (.redirected _), ?_⟩
      intro p hp
      obtain rfl := List.mem_singleton.mp hp
      exact ⟨source, hsource⟩
    · have hwidens₂ := Term.evaluate_widens hv
      refine ⟨e₂, hwidens₂, .single (.bound (hwidens₂.slots _ htarget) hbind), fun p hp => ?_⟩
      exact Term.evaluate_resolves hp hv
  rcases List.mem_cons.mp hp with rfl | hp
  · exact ⟨e, target, e₁, .refl, hresolve, hwidens₂.edits.trans hlast⟩
  · obtain ⟨r, hr⟩ := hterm p hp
    exact ⟨e₁, r, e₂, hadds₁, hr, hlast⟩

end Resolves

namespace Resolvent

variable {r r' : Resolvent σ} {k : Nat}

/-- All scopes are coherent, also the one that is going to be opened, and no goal refers to a literal that is still
to get its identity. -/
structure Coherent (r : Resolvent σ) : Prop where
  env : r.env.Coherent
  reads : ∀ g ∈ r.agenda.toList, ∀ p ∈ g.reads, p.Given r.env.serial
  entry : ∀ arguments, .openScope arguments ∈ r.agenda.toList → r.env.Coheres (arguments.map Prod.snd)

theorem Coherent.goal (h : r.Coherent) (hr : r.Shaped) {g : Goal σ} {rest : Agenda σ} {e : Env}
    (hnext : r.agenda.next? = some (g, rest)) (hstep : (g.step r.env).Runs (.next e)) :
    (⟨e, rest⟩ : Resolvent σ).Coherent := by
  have hlist : r.agenda.toList = g :: rest.toList := Agenda.toList_of_next? hnext
  have hbalanced := hr.balanced
  rw [hlist] at hbalanced
  have hreads := h.reads
  have hentry := h.entry
  rw [hlist] at hreads hentry
  have hopen (arguments) (heq : g = .openScope arguments) : r.env.Coheres (arguments.map Prod.snd) :=
    hentry arguments (heq ▸ List.mem_cons_self)
  obtain ⟨henv, hserial⟩ := h.env.goal hr.sound (hreads g List.mem_cons_self) hopen hstep
  constructor
  · exact henv
  · exact fun g' hg' p hp => (hreads g' (List.mem_cons_of_mem g hg') p hp).mono hserial
  · exact fun arguments hmem => absurd rfl (hbalanced.noEntry _ hmem arguments)

/-- Up to the call everything is coherent, and so is what it passes. -/
theorem Coherent.stopsAt (h : r.Coherent) (hr : r.Shaped) {stopped : Call σ} (hstops : r.StopsAt stopped) :
    stopped.env.Coherent ∧ stopped.env.Coheres stopped.arguments ∧ r.env.serial ≤ stopped.env.serial := by
  obtain ⟨g, hnext, hstep⟩ := hstops
  have hmem : g ∈ r.agenda.toList := Agenda.toList_of_next? hnext ▸ List.mem_cons_self
  obtain ⟨⟨arguments, rfl⟩, -⟩ := Goal.step_call hr.sound.bounded hstep
  have hts : ∀ t ∈ arguments, ∀ p ∈ t.reads, p.Given r.env.serial := fun t ht p hp =>
    h.reads _ hmem p (List.mem_flatMap.mpr ⟨t, ht, hp⟩)
  obtain ⟨⟨slots, e⟩, hpass, hstep⟩ := hstep.of_bind
  cases hstep.of_pure
  have hadds := Env.passAll_adds (Q := fun _ => True) hts (fun _ _ => trivial) hpass
  obtain ⟨hcoherent, -, hserial⟩ := h.env.additions hr.sound (Nat.le_refl _) hadds
  have hgiven := (h.env.slots r.env.scope List.mem_cons_self).given
  exact ⟨hcoherent, (h.env.passAll hr.sound (Nat.le_refl _) (Nat.le_refl _) hgiven hts hpass).1, hserial⟩

theorem Coherent.call (h : r.Coherent) (hr : r.Shaped) {stopped : Call σ} (hstops : r.StopsAt stopped) {c : Clause σ}
    (hc : c.Given) (hresume : (stopped.resume c).Runs r') : r'.Coherent := by
  obtain ⟨henv, harguments, hserial⟩ := h.stopsAt hr hstops
  obtain ⟨hnumbered, body, hbody, hagenda⟩ := resume_runs hresume
  obtain ⟨g, hnext, -⟩ := hstops
  have hlist : r.agenda.toList = g :: stopped.rest.toList := Agenda.toList_of_next? hnext
  have hbalanced := hr.balanced
  rw [hlist] at hbalanced
  have hnew : r.env.serial ≤ r'.env.serial := by
    rw [hnumbered]
    exact Nat.le_succ_of_le hserial
  constructor
  · rw [hnumbered]
    exact henv.nextSerial
  · intro g' hg' p hp
    rw [hagenda] at hg'
    rcases List.mem_cons.mp hg' with rfl | hg'
    · exact absurd hp List.not_mem_nil
    rcases List.mem_append.mp hg' with hg' | hg'
    · rw [hnumbered]
      exact ((hc _ _ hbody g' hg').2 p hp).mono (Nat.le_succ _)
    rcases List.mem_cons.mp hg' with rfl | hg'
    · exact absurd hp List.not_mem_nil
    · exact (h.reads g' (hlist ▸ List.mem_cons_of_mem g hg') p hp).mono hnew
  · intro arguments hmem
    rw [hagenda] at hmem
    rcases List.mem_cons.mp hmem with heq | hmem
    · obtain rfl := Goal.openScope.inj heq
      have hcoheres : r'.env.Coheres stopped.arguments := by
        rw [hnumbered]
        exact harguments.mono (Nat.le_succ _) fun _ _ _ _ => id
      refine hcoheres.of_mem fun slot hslot => ?_
      obtain ⟨a, ha, rfl⟩ := List.mem_map.mp hslot
      exact (List.of_mem_zip ha).2
    rcases List.mem_append.mp hmem with hmem | hmem
    · exact (hc _ _ hbody _ hmem).1.elim
    rcases List.mem_cons.mp hmem with heq | hmem
    · cases heq
    · exact absurd rfl (hbalanced.noEntry _ hmem arguments)

/-- The positions of a query have cells by their actuals, and nothing else is in scope. -/
theorem Coherent.start {actuals : List Actual} (hactuals : ∀ a ∈ actuals, a.id.Given 0) {c : Clause σ} (hc : c.Given)
    (hruns : (ofQuery c actuals).Runs r) : r.Coherent := by
  obtain ⟨e, he, hruns⟩ := hruns.of_bind
  obtain ⟨body, hbody, hruns⟩ := hruns.of_bind
  cases hruns.of_pure
  obtain ⟨slots, s, hseated, hpaired, hlen, rfl⟩ := Env.ofQuery_seats he.of_lift
  have hslots : (⟨c.formals.zip slots, [], ⟨0, 0⟩⟩ : Scope).slots = slots := by
    rw [Scope.slots, Scope.argumentSlots, hseated.map_snd_zip hlen, List.append_nil]
  have hcoherent : Env.Coherent ⟨s, ⟨c.formals.zip slots, [], ⟨0, 0⟩⟩, [], 0⟩ := by
    constructor
    · intro sc hsc
      obtain rfl := List.mem_singleton.mp hsc
      rw [hslots]
      refine ⟨fun a ha b hb hid => congrArg _ ((hpaired a ha b hb).mp hid), fun slot hslot => ?_⟩
      exact hactuals _ (hseated.parameters ▸ List.mem_map_of_mem hslot)
    · intro sc hsc l hl
      obtain rfl := List.mem_singleton.mp hsc
      exact absurd hl List.not_mem_nil
  constructor
  · exact hcoherent.nextSerial
  · intro g hg p hp
    rw [Agenda.toList_ofList] at hg
    exact ((hc _ _ hbody g hg).2 p hp).mono (Nat.le_succ _)
  · intro arguments hmem
    rw [Agenda.toList_ofList] at hmem
    exact (hc _ _ hbody _ hmem).1.elim

theorem Step.resolves (h : r.Step r') (hr : r.Shaped) (hcoherent : r.Coherent) {g : Goal σ} {rest : Agenda σ}
    (hnext : r.agenda.next? = some (g, rest)) {p : Param} (hp : p ∈ g.reads) :
    r.env.ResolvesTo r.env.serial p r'.env ∧ r'.env.depth = r.env.depth := by
  have hmem : g ∈ r.agenda.toList := Agenda.toList_of_next? hnext ▸ List.mem_cons_self
  have hreads := hcoherent.reads g hmem
  cases h with
  | goal hn hstep =>
      cases hnext.symm.trans hn
      cases g with
      | bind q t =>
          refine ⟨Goal.bind_resolves (hreads q List.mem_cons_self) hp hstep, ?_⟩
          exact (Goal.step_next hr.sound.bounded hstep : Env.Inside _ _).depth_eq
      | call name arguments =>
          obtain ⟨_, -, hstep⟩ := hstep.of_bind
          cases hstep.of_pure
      | check f => exact absurd hp List.not_mem_nil
      | action f => exact absurd hp List.not_mem_nil
      | openScope arguments => exact absurd hp List.not_mem_nil
      | closeScope => exact absurd hp List.not_mem_nil
  | @call e e' a rest' g' name slots callee r' hn hstep hauth hmatch hresume =>
      cases hnext.symm.trans hn
      have hdepth : e'.depth = e.depth := (Goal.step_call hr.sound.bounded hstep).2.1.toInside.depth_eq
      obtain ⟨⟨arguments, rfl⟩, -⟩ := Goal.step_call hr.sound.bounded hstep
      obtain ⟨⟨slots', e₁⟩, hpass, hstep⟩ := hstep.of_bind
      cases hstep.of_pure
      obtain ⟨t, ht, hpt⟩ := List.mem_flatMap.mp hp
      have hts : ∀ t ∈ arguments, ∀ q ∈ t.reads, q.Given e.serial := fun t ht q hq =>
        hreads q (List.mem_flatMap.mpr ⟨t, ht, hq⟩)
      obtain ⟨d, res, d', hd, hres, hedits⟩ := Env.passAll_resolves hts ht hpt hpass
      rw [(resume_runs hresume).1]
      exact ⟨⟨d, res, d', hd, hres, hedits.tail (.numbered _)⟩, hdepth⟩

theorem Step.onward (h : r.Step r') (hr : r.Shaped) (hk : k ≤ r.env.depth) (hk' : k ≤ r'.env.depth) :
    r.env.Onward k r'.env := by
  have hb := hr.sound.bounded
  cases h.move hb with
  | edits hedits _ => exact hedits.onward hb hk
  | calls _ hedits _ _ => exact hedits.onward hb hk
  | opens arguments hmem henv _ =>
      rw [henv] at hk' ⊢
      exact .single ⟨.opened arguments (hr.entry_lt hmem), hk'⟩
  | closes hclose _ => exact .single ⟨.closed hclose, hk'⟩

theorem Within.onward (h : Within k r r') (hr : r.Shaped) (hk : k ≤ r.env.depth) :
    r.env.Onward k r'.env ∧ k ≤ r'.env.depth := by
  induction h with
  | refl => exact ⟨.refl, hk⟩
  | tail hpre hstep ih =>
      obtain ⟨honward, hdepth⟩ := ih
      have hshaped := (Within.trail hpre).shaped hr
      exact ⟨honward.trans (hstep.1.onward hshaped hdepth hstep.2), hstep.2⟩

/-- An environment that a branch may have while it solves its next goal, before anything is bound. -/
def Amid (r : Resolvent σ) (e : Env) : Prop := r.env.Additions (Param.Given r.env.serial) (fun _ => True) e

end Resolvent

theorem Source.Reaches.coherent {src : Source σ} (hsrc : src.Given) {actuals : List Actual}
    (hactuals : ∀ a ∈ actuals, a.id.Given 0) {r : Resolvent σ} (h : src.Reaches actuals r) : r.Coherent := by
  induction h with
  | query hc _ hruns => exact .start hactuals (hsrc _ hc) hruns
  | goal hpre hnext hstep ih => exact ih.goal (hpre.shaped hsrc.authored) hnext hstep
  | call hpre hstops hc _ hresume ih => exact ih.call (hpre.shaped hsrc.authored) hstops (hsrc _ hc) hresume

theorem Resolvent.StopsAt.amid {r : Resolvent σ} (hr : r.Shaped) (h : r.Coherent) {stopped : Call σ}
    (hstops : r.StopsAt stopped) : r.Amid stopped.env := by
  obtain ⟨g, hnext, hstep⟩ := hstops
  have hmem : g ∈ r.agenda.toList := Agenda.toList_of_next? hnext ▸ List.mem_cons_self
  obtain ⟨⟨arguments, rfl⟩, -⟩ := Goal.step_call hr.sound.bounded hstep
  obtain ⟨⟨slots, e⟩, hpass, hstep⟩ := hstep.of_bind
  cases hstep.of_pure
  have hreads := h.reads _ hmem
  exact Env.passAll_adds (fun t ht q hq => hreads q (List.mem_flatMap.mpr ⟨t, ht, hq⟩)) (fun _ _ => trivial) hpass

theorem Resolvent.Amid.coherent {r : Resolvent σ} {e : Env} (hamid : r.Amid e) (hr : r.Shaped) (h : r.Coherent) :
    e.Coherent ∧ e.Sound := by
  obtain ⟨hcoherent, hsound, -⟩ := h.env.additions hr.sound (Nat.le_refl _) hamid
  exact ⟨hcoherent, hsound⟩

theorem Resolvent.Amid.inside {r : Resolvent σ} {e : Env} (h : r.Amid e) (hr : r.Shaped) : r.env.Inside e :=
  h.widens.edits.inside hr.sound.bounded

/-- What the next goal reads has been resolved before anything that comes later while its scope is open. -/
theorem Resolvent.Step.resolves_before {r r₁ r₂ : Resolvent σ} (hstep : r.Step r₁) (hr : r.Shaped) (h : r.Coherent)
    {g : Goal σ} {rest : Agenda σ} (hnext : r.agenda.next? = some (g, rest)) {p : Param} (hp : p ∈ g.reads)
    (hwithin : Within r.env.depth r₁ r₂) {e₂ : Env} (hamid₂ : r₂.Amid e₂) :
    ∃ e res e₁, r.Amid e ∧ e.resolve p = .ok (res, e₁) ∧ e₁.Onward e.depth e₂ := by
  obtain ⟨⟨e, res, e₁, hamid, hres, hedits⟩, hdepth⟩ := hstep.resolves hr h hnext hp
  have hinside := Amid.inside hamid hr
  have hresolved := (Env.resolve_widens hres).1.edits.inside (hinside.bounded hr.sound.bounded)
  have hbounded := hresolved.bounded (hinside.bounded hr.sound.bounded)
  have hr₁ := (hstep.shaped hr).1
  obtain ⟨honward, hdepth₂⟩ := hwithin.onward hr₁ (Nat.le_of_eq hdepth.symm)
  refine ⟨e, res, e₁, hamid, hres, ?_⟩
  rw [hinside.depth_eq]
  have hfirst := hedits.onward hbounded (Nat.le_of_eq (hresolved.depth_eq.trans hinside.depth_eq).symm)
  have hlast := hamid₂.widens.edits.onward (hwithin.trail.shaped hr₁).sound.bounded hdepth₂
  exact (hfirst.trans honward).trans hlast

theorem Resolvent.ofQuery_positions {c : Clause σ} {actuals : List Actual} {r : Resolvent σ}
    (h : (ofQuery c actuals).Runs r) : r.env.queryArguments.map Slot.parameter = actuals ∧
      ∀ a ∈ r.env.queryArguments, ∀ b ∈ r.env.queryArguments, a.cell = b.cell ↔ a.parameter.id = b.parameter.id := by
  obtain ⟨e, he, h⟩ := h.of_bind
  obtain ⟨body, -, h⟩ := h.of_bind
  cases h.of_pure
  obtain ⟨slots, s, hseated, hpaired, hlen, rfl⟩ := Env.ofQuery_seats he.of_lift
  have hpositions : (c.formals.zip slots).map Prod.snd = slots := hseated.map_snd_zip hlen
  change ((c.formals.zip slots).map Prod.snd).map Slot.parameter = actuals ∧
    ∀ a ∈ (c.formals.zip slots).map Prod.snd, ∀ b ∈ (c.formals.zip slots).map Prod.snd,
      a.cell = b.cell ↔ a.parameter.id = b.parameter.id
  rw [hpositions]
  exact ⟨hseated.parameters, fun a ha b hb => (hpaired a ha b hb).symm⟩

/-- Wherever a branch of a query stands, in a goal or at a call: slots of one scope that have a parameter in common
denote one variable, and what is local to a scope is not an argument of it. Once a parameter has been resolved,
looking it up or resolving it again gives the same variable without changing anything, at any later time when the
scope is the innermost one. What the branch's goals read they resolve on the way to everything that comes later. And at
the start two positions have one cell exactly if they were given one parameter. -/
theorem Source.one_variable_per_parameter {src : Source σ} (hsrc : src.Given) {actuals : List Actual}
    (hactuals : ∀ a ∈ actuals, a.id.Given 0) {r : Resolvent σ} (hr : src.Reaches actuals r) :
    (∀ e, (r.Amid e ∨ ∃ stopped, r.StopsAt stopped ∧ e = stopped.env) → ∀ sc ∈ e.scopes,
      (∀ a ∈ sc.slots, ∀ b ∈ sc.slots, a.parameter.id = b.parameter.id → e.store.find a.cell = e.store.find b.cell) ∧
        ∀ l ∈ sc.locals, ∀ a ∈ sc.argumentSlots, l.parameter.id ≠ a.parameter.id) ∧
    (∀ e p res e₁, r.Amid e → e.resolve p = .ok (res, e₁) → e₁.lookup p = .ok (some res) ∧
      ∀ e₂, e₁.Onward e.depth e₂ → e₂.depth = e.depth → ∃ res₂, e₂.lookup p = .ok (some res₂) ∧
        e₂.resolve p = .ok (res₂, e₂) ∧ e₂.store.find res₂.slot.cell = e₂.store.find res.slot.cell) ∧
    (∀ g rest p r₁ r₂ e₂, r.agenda.next? = some (g, rest) → p ∈ g.reads → r.Step r₁ →
      Resolvent.Within r.env.depth r₁ r₂ → r₂.Amid e₂ →
        ∃ e res e₁, r.Amid e ∧ e.resolve p = .ok (res, e₁) ∧ e₁.Onward e.depth e₂) ∧
    ∀ c r₀, (Resolvent.ofQuery (σ := σ) c actuals).Runs r₀ →
      r₀.env.queryArguments.map Slot.parameter = actuals ∧
        ∀ a ∈ r₀.env.queryArguments, ∀ b ∈ r₀.env.queryArguments, a.cell = b.cell ↔ a.parameter.id = b.parameter.id := by
  have hshaped := hr.shaped hsrc.authored
  have hcoherent := hr.coherent hsrc hactuals
  refine ⟨?_, ?_, ?_, ?_⟩
  · intro e he sc hsc
    have hamid : r.Amid e := by
      rcases he with he | ⟨stopped, hstops, rfl⟩
      · exact he
      · exact hstops.amid hshaped hcoherent
    obtain ⟨henv, -⟩ := hamid.coherent hshaped hcoherent
    exact ⟨(henv.slots sc hsc).one, henv.apart sc hsc⟩
  · intro e p res e₁ hamid hres
    exact Env.resolve_again (hamid.coherent hshaped hcoherent).2 hres
  · intro g rest p r₁ r₂ e₂ hnext hp hstep hwithin hamid
    exact hstep.resolves_before hshaped hcoherent hnext hp hwithin hamid
  · exact fun c r₀ hruns => Resolvent.ofQuery_positions hruns

def scratch : Actual := .output (.shared 1) none .int none

/-- A clause makes its variable one with the first formal, and passes it twice. -/
def doubling : Clause Unit where
  name := "double"
  formals := [⟨0, "a", .int⟩, ⟨1, "b", .int⟩]
  body := .fixed [.bind (.actual scratch) (.param (.formal ⟨0, "a", .int⟩)),
    .call "same" [.param (.actual scratch), .param (.actual scratch)]]
  name_ne := by decide
  distinct := by decide

def joining : Clause Unit where
  name := "same"
  formals := [⟨2, "x", .int⟩, ⟨3, "y", .int⟩]
  body := .fixed [.bind (.formal ⟨2, "x", .int⟩) (.param (.formal ⟨3, "y", .int⟩))]
  name_ne := by decide
  distinct := by decide

def twice : List Actual := [.output (.shared 0) none .int none, .output (.shared 0) none .int none]

def doubles : Database Unit := ⟨[doubling, joining]⟩

theorem doubles_given : doubles.source.Given := by
  intro c hc
  rcases List.mem_pair.mp (Database.mem_of_offers hc) with rfl | rfl
  · exact Clause.given_of_fixed rfl
      (by simp [Goal.Authored, Goal.reads, Term.reads, Param.Given, ActualId.Given, scratch, Actual.output])
  · exact Clause.given_of_fixed rfl (by simp [Goal.Authored, Goal.reads, Term.reads, Param.Given])

/-- Whether the branch stops at a call that `joining` answers, and comes to its end from there. -/
def endsJoined (r : Resolvent Unit) : Bool :=
  match (ExceptT.run (Resolvent.solve r.env r.agenda) (World.start ())).1.toOption.bind Outcome.stopped? with
  | none => false
  | some call => joining.Matches call.actuals ∧
      ((ExceptT.run ((Pending.call call).solve joining) (World.start ())).1.toOption.bind Outcome.env?).isSome

theorem ends_of_endsJoined {r : Resolvent Unit} (h : endsJoined r = true) :
    ∃ r', r.Trail r' ∧ r'.agenda.toList = [] := by
  unfold endsJoined at h
  split at h
  · cases h
  · next call hcall =>
      obtain ⟨hmatches, hends⟩ := of_decide_eq_true h
      obtain ⟨o₁, hfirst, hstopped⟩ := Option.bind_eq_some_iff.mp hcall
      obtain ⟨e₂, hends⟩ := Option.isSome_iff_exists.mp hends
      obtain ⟨o₂, hsecond, hcomplete⟩ := Option.bind_eq_some_iff.mp hends
      have hfollows := Resolvent.solve_follows (.refl (a := r)) (.of_toOption hfirst)
      obtain ⟨e₁, a₁, g, htrail₁, hnext₁, hstep₁⟩ := hfollows.of_stopped? hstopped
      obtain ⟨r₂, hresume, hsolve⟩ := Engine.Runs.of_bind (.of_toOption hsecond)
      have hjoining : joining.Authored := Clause.authored_of_fixed rfl (by simp [Goal.Authored])
      have hcall : r.Trail r₂ := htrail₁.tail (.call hnext₁ hstep₁ hjoining hmatches hresume)
      obtain ⟨a, hnil, htrail⟩ := (Resolvent.solve_follows hcall hsolve).of_env? hcomplete
      exact ⟨⟨e₂, a⟩, htrail, hnil⟩

/-- The two positions of the query have one cell. The variable is the same when the first goal has resolved it, and
at the end, after the call. -/
theorem doubling_resolves : ∃ (r r' : Resolvent Unit) (e e₁ : Env) (before after : Resolved),
    doubles.source.Reaches twice r ∧ r.Trail r' ∧ r'.agenda.toList = [] ∧
      (∀ a ∈ r.env.queryArguments, ∀ b ∈ r.env.queryArguments, a.cell = b.cell) ∧
      e.resolve (.actual scratch) = .ok (before, e₁) ∧ r'.env.lookup (.actual scratch) = .ok (some after) ∧
        r'.env.store.find after.slot.cell = r'.env.store.find before.slot.cell := by
  have hoffers : doubles.source.Offers doubling :=
    ⟨"double", false, (), _, rfl, by simp [doubles, Database.named, doubling]⟩
  obtain ⟨r, rest, hstart, hnext, hdepth, hjoined⟩ : ∃ r rest, (Resolvent.ofQuery doubling twice).Runs r ∧
      r.agenda.next? = some (.bind (.actual scratch) (.param (.formal ⟨0, "a", .int⟩)), rest) ∧ r.env.depth = 0 ∧
        endsJoined r = true :=
    ⟨⟨_, _⟩, _, ⟨World.start (), _, rfl⟩, rfl, rfl, by decide +kernel⟩
  have hreaches : doubles.source.Reaches twice r := .query hoffers (by decide) hstart
  obtain ⟨⟨e₂, a⟩, htrail, hnil⟩ := ends_of_endsJoined hjoined
  have hactuals : ∀ a ∈ twice, a.id.Given 0 := by simp [twice, Actual.output, ActualId.Given]
  obtain ⟨-, hagain, hway, hquery⟩ := Source.one_variable_per_parameter doubles_given hactuals hreaches
  rcases Relation.ReflTransGen.cases_head htrail with rfl | ⟨r₁, hstep, hafter⟩
  · rw [Agenda.toList_of_next? hnext] at hnil
    cases hnil
  · have hwithin : Resolvent.Within r.env.depth r₁ ⟨e₂, a⟩ := hdepth ▸ Resolvent.Trail.within hafter
    obtain ⟨e, before, e', hamid, hbefore, honward⟩ :=
      hway _ rest (.actual scratch) r₁ ⟨e₂, a⟩ e₂ hnext List.mem_cons_self hstep hwithin .refl
    have hstarts : Resolvent.Starts twice doubling r :=
      ⟨(doubles_given doubling hoffers).authored, by decide, hstart⟩
    have hend : e₂.depth = 0 := (htrail.shaped hstarts.shaped).depth_eq_zero hnil
    have hfirst : e.depth = 0 := (hamid.inside hstarts.shaped).depth_eq.trans hdepth
    obtain ⟨after, hlookup, -, hsame⟩ := (hagain e _ before e' hamid hbefore).2 e₂ honward (hend.trans hfirst.symm)
    obtain ⟨hpositions, hcells⟩ := hquery doubling r hstart
    refine ⟨r, ⟨e₂, a⟩, e, e', before, after, hreaches, htrail, hnil, fun x hx y hy => ?_, hbefore, hlookup, hsame⟩
    have hid : ∀ z ∈ r.env.queryArguments, z.parameter.id = .shared 0 := by
      intro z hz
      have hmem : z.parameter ∈ twice := hpositions ▸ List.mem_map_of_mem hz
      rcases List.mem_pair.mp hmem with heq | heq
      · rw [heq]
        rfl
      · rw [heq]
        rfl
    exact (hcells x hx y hy).mpr ((hid x hx).trans (hid y hy).symm)

end Clausal
