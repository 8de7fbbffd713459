import Clausal.Proofs.Branch
import Clausal.Proofs.GoalSteps
import Clausal.Proofs.Solving

/-! Bodies of plain bindings, in which a parameter is bound to a constant or to another parameter. Each is
an equation between the actuals that the parameters stand for, and a local variable is a variable more.
Main statements: what such a body comes to in any world, and that it completes exactly if all that it
refers to is in scope and its equations are consistent. -/
namespace Clausal

variable {σ : Type}

/-- The goal binds a parameter to a constant or to a parameter. -/
def Goal.Plain : Goal σ → Prop
  | .bind _ (.constant _ _) | .bind _ (.param _) => True
  | .bind _ (.map _ _) | .call _ _ | .check _ | .action _ | .openScope _ | .closeScope => False

namespace Env

def bindPlain (e : Env) : Goal σ → Except Error (Option Env)
  | .bind p (.constant _ v) => do
    let (target, e') ← e.resolve p
    e'.assign target v
  | .bind p (.param q) => do
    let (target, e') ← e.resolve p
    let (source, e'') ← e'.resolve q
    e''.equate target source
  | .bind _ (.map _ _) | .call _ _ | .check _ | .action _ | .openScope _ | .closeScope => return none

def bindAll (e : Env) : List (Goal σ) → Except Error (Option Env)
  | [] => return some e
  | g :: goals => do
    match ← e.bindPlain g with
    | some e' => e'.bindAll goals
    | none => return none

def ended : Option Env → Outcome σ
  | some e => .complete e
  | none => .failed

end Env

theorem Engine.Settles.bind {α β : Type} {x : Engine σ α} {k : α → Engine σ β} {r : Except Error α}
    {f : α → Except Error β} (hx : x.Settles r id) (hk : ∀ a, (k a).Settles (f a) id) :
    (x >>= k).Settles (r >>= f) id := by
  cases r with
  | error err => exact hx.bind_error
  | ok a => exact hx.bind_ok (hk a)

theorem Goal.step_plain {g : Goal σ} (hg : g.Plain) (e : Env) :
    (g.step e).Settles ((e.bindPlain g).map fun r => r.elim .failed .next) id := by
  have hrest (x : Engine σ (Option Env)) (r : Except Error (Option Env)) (hx : x.Settles r id) :
      (x >>= fun r => match r with
        | some e' => pure (.next e')
        | none => Engine.emit .unificationFailed >>= fun _ => pure Step.failed).Settles
          (r.map fun r => r.elim .failed .next) id := by
    have hmap : r.map (fun r => r.elim Step.failed Step.next) = r >>= fun r => pure (r.elim .failed .next) := by
      cases r <;> rfl
    rw [hmap]
    apply hx.bind
    intro r
    cases r with
    | none => exact (Engine.settles_emit _).bind_ok (k := fun _ => pure Step.failed) (Engine.settles_pure _)
    | some e' => exact Engine.settles_pure _
  cases g with
  | bind p t =>
      cases t with
      | constant ty v =>
          apply hrest
          apply (Engine.settles_lift _).bind
          intro target
          exact (Engine.settles_pure _).bind_ok (Engine.settles_lift _)
      | param q =>
          apply hrest
          apply (Engine.settles_lift _).bind
          intro target
          apply (Engine.settles_lift _).bind
          intro source
          exact Engine.settles_lift _
      | map ty s => exact absurd hg id
  | call name arguments => exact absurd hg id
  | check f => exact absurd hg id
  | action f => exact absurd hg id
  | openScope arguments => exact absurd hg id
  | closeScope => exact absurd hg id

theorem Resolvent.solve_plain {a : Agenda σ} (ha : ∀ g ∈ a.toList, g.Plain) (e : Env) :
    (solve e a).Settles ((e.bindAll a.toList).map Env.ended) id := by
  induction hl : a.toList generalizing a e with
  | nil =>
      rw [solve_nil hl]
      exact Engine.settles_pure _
  | cons g goals ih =>
      obtain ⟨rest, hn, hrest⟩ := Agenda.next?_of_cons hl
      have hg : g.Plain := ha g (hl ▸ List.mem_cons_self)
      have hgoals : ∀ g' ∈ rest.toList, g'.Plain := fun g' h => ha g' (hl ▸ List.mem_cons_of_mem g (hrest ▸ h))
      rw [solve_cons hn]
      apply (Engine.settles_emit _).bind_ok (f := id) (g := id)
      have hstep := Goal.step_plain hg e
      rw [Env.bindAll]
      cases hb : e.bindPlain g with
      | error err =>
          rw [hb] at hstep
          exact hstep.bind_error
      | ok r =>
          rw [hb] at hstep
          cases r with
          | none => exact hstep.bind_ok (f := id) (g := id) (Engine.settles_pure _)
          | some e' => exact hstep.bind_ok (f := id) (g := id) (ih hgoals e' hrest)

/-- The variable that a parameter stands for where these formals and actuals are paired. -/
def Param.unknown? (pairs : List (Formal × Actual)) : Param → Option ActualId
  | .formal f => (pairs.find? fun p => p.1.id = f.id).map fun p => p.2.id
  | .actual a => some a.id

/-- The equation that a plain goal stands for, if what it refers to is in scope. -/
def Goal.equation? (pairs : List (Formal × Actual)) : Goal σ → Option (Equation ActualId)
  | .bind p (.constant _ v) => (p.unknown? pairs).map fun x => .value x v
  | .bind p (.param q) => (p.unknown? pairs).bind fun x => (q.unknown? pairs).map fun y => .same x y
  | .bind _ (.map _ _) | .call _ _ | .check _ | .action _ | .openScope _ | .closeScope => none

/-- What the parameter says of its variable is what the system says. -/
def System.Describes (S : System ActualId) (pairs : List (Formal × Actual)) : Param → Prop
  | .formal f => ∀ p ∈ pairs, p.1.id = f.id → f.ty = S.ty p.2.id
  | .actual a => a.ty = S.ty a.id ∧ a.value = S.given a.id

namespace Env

variable {S : System ActualId} {pairs : List (Formal × Actual)} {cell : ActualId → Nat} {e e' : Env}

/-- A slot of the innermost scope stands for the variable. -/
def Covers (e : Env) (x : ActualId) : Prop := ∃ slot ∈ e.scope.slots, slot.parameter.id = x

/-- The store of the environment solves the system, and slots that share a variable share its cell. -/
structure Solves (S : System ActualId) (pairs : List (Formal × Actual)) (cell : ActualId → Nat) (e : Env) : Prop where
  solved : S.Solved e.Covers cell e.store
  cell_eq : ∀ slot ∈ e.scope.slots, slot.cell = cell slot.parameter.id
  pairs_eq : e.scope.arguments.map (fun a => (a.1, a.2.parameter)) = pairs
  alone : e.enclosing = []

theorem Solves.slot_formal (h : e.Solves S pairs cell) (f : Formal) :
    (Param.formal f).unknown? pairs = (e.scope.slot? (.formal f)).map fun slot => slot.parameter.id := by
  simp only [Param.unknown?, Scope.slot?, ← h.pairs_eq, List.find?_map, Option.map_map]
  rfl

theorem Solves.of_slot (h : e.Solves S pairs cell) {p : Param} {x : ActualId} (hx : p.unknown? pairs = some x)
    {slot : Slot} (hslot : e.scope.slot? p = some slot) : slot.parameter.id = x ∧ e.Covers x ∧ slot.cell = cell x := by
  have hmem := Scope.mem_slots_of_slot? hslot
  have hid : slot.parameter.id = x := by
    cases p with
    | formal f =>
        rw [h.slot_formal, hslot] at hx
        exact Option.some.inj hx
    | actual a =>
        have hfound : slot.parameter.id = a.id := by
          have hfind : (e.scope.slots.find? fun slot => slot.parameter.id = a.id) = some slot := hslot
          simpa using List.find?_some hfind
        exact hfound.trans (Option.some.inj hx)
  refine ⟨hid, ⟨slot, hmem, hid⟩, ?_⟩
  rw [h.cell_eq slot hmem, hid]

structure Refers (S : System ActualId) (pairs : List (Formal × Actual)) (cell : ActualId → Nat) (e : Env)
    (x : ActualId) (r : Resolved) : Prop where
  solves : e.Solves S pairs cell
  covers : e.Covers x
  cell_eq : r.slot.cell = cell x
  ty_eq : r.ty = S.ty x

theorem covers_addLocal {a : Actual} {x : ActualId} : (e.addLocal a).2.Covers x ↔ e.Covers x ∨ x = a.id := by
  unfold Covers
  simp only [mem_slots_addLocal, or_and_right, exists_or, exists_eq_left]
  exact or_congr_right eq_comm

theorem Solves.addLocal (h : e.Solves S pairs cell) {a : Actual} (hnone : ¬e.Covers a.id)
    (hty : a.ty = S.ty a.id) (hvalue : a.value = S.given a.id) :
    (e.addLocal a).2.Solves S pairs (fun x => if x = a.id then e.store.cells.size else cell x) := by
  have hne : ∀ x, e.Covers x → x ≠ a.id := by
    intro x hx heq
    exact hnone (heq ▸ hx)
  refine ⟨?_, ?_, h.pairs_eq, h.alone⟩
  · exact h.solved.alloc (fun _ => covers_addLocal) hnone (fun x hx => if_neg (hne x hx)) (if_pos rfl) hty.symm
      hvalue.symm e.depth
  · intro slot hslot
    rcases mem_slots_addLocal.mp hslot with hslot | rfl
    · rw [if_neg (hne _ ⟨slot, hslot, rfl⟩)]
      exact h.cell_eq slot hslot
    · rw [if_pos rfl]

/-- A parameter that stands for a variable is found, or becomes a local. -/
theorem Solves.resolve (h : e.Solves S pairs cell) {p : Param} {x : ActualId} (hx : p.unknown? pairs = some x)
    (hp : S.Describes pairs p) : ∃ r e' cell', e.resolve p = .ok (r, e') ∧ Refers S pairs cell' e' x r ∧
      ∀ y, e.Covers y → e'.Covers y ∧ cell' y = cell y := by
  unfold Env.resolve
  cases hslot : e.scope.slot? p with
  | some slot =>
      obtain ⟨hid, hcovers, hcell⟩ := h.of_slot hx hslot
      refine ⟨⟨slot, p.ty⟩, e, cell, rfl, ⟨h, hcovers, hcell, ?_⟩, fun y hy => ⟨hy, rfl⟩⟩
      cases p with
      | formal f =>
          obtain ⟨pair, hpair, rfl⟩ := Option.map_eq_some_iff.mp hx
          exact hp pair (List.mem_of_find?_eq_some hpair) (by simpa using List.find?_some hpair)
      | actual a =>
          obtain rfl := Option.some.inj hx
          exact hp.1
  | none =>
      cases p with
      | formal f =>
          rw [h.slot_formal, hslot] at hx
          cases hx
      | actual a =>
          obtain rfl := Option.some.inj hx
          have hnone : ¬e.Covers a.id := by
            rintro ⟨slot, hmem, hid⟩
            have hall := List.find?_eq_none.mp hslot slot hmem
            exact hall (by simpa using hid)
          have hlocal := h.addLocal hnone hp.1 hp.2
          refine ⟨_, _, _, rfl, ⟨hlocal, covers_addLocal.mpr (.inr rfl), (if_pos rfl).symm, hp.1⟩, fun y hy => ?_⟩
          exact ⟨covers_addLocal.mpr (.inl hy), if_neg fun heq : y = a.id => hnone (heq ▸ hy)⟩

theorem Solves.resolve_none (h : e.Solves S pairs cell) {p : Param} (hp : p.unknown? pairs = none)
    (r : Resolved × Env) : e.resolve p ≠ .ok r := by
  cases p with
  | formal f =>
      rw [h.slot_formal, Option.map_eq_none_iff] at hp
      intro heq
      unfold Env.resolve at heq
      rw [hp] at heq
      cases heq
  | actual a => cases hp

theorem Solves.resolved (h : e.Solves S pairs cell) {p : Param} (hp : S.Describes pairs p) {target : Resolved}
    (hr : e.resolve p = .ok (target, e')) : ∃ x cell', p.unknown? pairs = some x ∧ Refers S pairs cell' e' x target ∧
      ∀ y, e.Covers y → e'.Covers y ∧ cell' y = cell y := by
  cases hx : p.unknown? pairs with
  | none => exact absurd hr (h.resolve_none hx _)
  | some x =>
      obtain ⟨r, e₁, cell', hres, hrefers, hkeep⟩ := h.resolve hx hp
      rw [hr] at hres
      cases hres
      exact ⟨x, cell', rfl, hrefers, hkeep⟩

theorem Solves.withStore (h : e.Solves S pairs cell) {T : System ActualId} {s : Store}
    (hs : T.Solved e.Covers cell s) : ({ e with store := s } : Env).Solves T pairs cell :=
  ⟨hs, h.cell_eq, h.pairs_eq, h.alone⟩

theorem covers_redirect (e : Env) : e.redirect.Covers = e.Covers := by
  funext x
  unfold Covers
  rw [slots_redirect]
  apply propext
  constructor
  · rintro ⟨_, hmem, hid⟩
    obtain ⟨old, hold, rfl⟩ := List.mem_map.mp hmem
    exact ⟨old, hold, hid⟩
  · rintro ⟨old, hold, hid⟩
    exact ⟨old.move e.store.find, List.mem_map_of_mem hold, hid⟩

theorem Solves.redirect (h : e.Solves S pairs cell) :
    e.redirect.Solves S pairs fun x => e.store.find (cell x) := by
  constructor
  · rw [covers_redirect]
    exact h.solved.alike e.alike_redirect
  · intro slot hslot
    rw [slots_redirect] at hslot
    obtain ⟨old, hold, rfl⟩ := List.mem_map.mp hslot
    exact congrArg e.store.find (h.cell_eq old hold)
  · rw [← h.pairs_eq]
    simp [Env.redirect]
  · exact h.alone

theorem Solves.checkDeclared (h : e.Solves S pairs cell) {r : Resolved} {x : ActualId} (hx : e.Covers x)
    (hcell : e.store.find r.slot.cell = e.store.find (cell x)) (hty : r.ty = S.ty x) :
    e.checkDeclared r = .ok () := by
  unfold Env.checkDeclared
  rw [Store.value_congr hcell]
  cases hv : e.store.value (cell x) with
  | none => rfl
  | some v =>
      have hacc : r.ty.Accepts v.ty := by
        rw [hty]
        exact (h.solved.accepts hx).trans (h.solved.valid.value_fits hv)
      simp only
      rw [if_pos hacc]

namespace Refers

variable {x y : ActualId} {target source : Resolved} {v : Value}

theorem keep (h : Refers S pairs cell e x target) {cell' : ActualId → Nat} (hsolves : e'.Solves S pairs cell')
    (hkeep : ∀ y, e.Covers y → e'.Covers y ∧ cell' y = cell y) : Refers S pairs cell' e' x target where
  solves := hsolves
  covers := (hkeep x h.covers).1
  cell_eq := h.cell_eq.trans (hkeep x h.covers).2.symm
  ty_eq := h.ty_eq

theorem assigned (h : Refers S pairs cell e x target) (hok : e.assign target v = .ok (some e')) :
    e'.Solves (S.extend (.value x v)) pairs cell := by
  obtain ⟨s, hs, rfl, -⟩ := assign_some hok
  rw [h.cell_eq] at hs
  exact h.solves.withStore (h.solves.solved.value h.covers hs)

theorem assigns (h : Refers S pairs cell e x target) (hcons : (S.extend (.value x v)).Consistent x) :
    ∃ e', e.assign target v = .ok (some e') := by
  obtain ⟨s, hs⟩ := h.solves.solved.value_succeeds h.covers hcons
  have hsolves := h.solves.withStore (h.solves.solved.value h.covers hs)
  have hcheck := hsolves.checkDeclared (r := target) h.covers (by rw [h.cell_eq]) h.ty_eq
  refine ⟨{ e with store := s }, ?_⟩
  unfold Env.assign
  rw [h.cell_eq, hs]
  simp only
  rw [hcheck]
  rfl

theorem equated (ht : Refers S pairs cell e x target) (hs : Refers S pairs cell e y source)
    (hok : e.equate target source = .ok (some e')) : ∃ cell', e'.Solves (S.extend (.same x y)) pairs cell' := by
  obtain ⟨s, hu, rfl, -⟩ := equate_some hok
  rw [ht.cell_eq, hs.cell_eq] at hu
  exact ⟨_, (ht.solves.withStore (ht.solves.solved.same ht.covers hs.covers hu)).redirect⟩

theorem equates (ht : Refers S pairs cell e x target) (hs : Refers S pairs cell e y source)
    (hcons : (S.extend (.same x y)).Consistent x) : ∃ e', e.equate target source = .ok (some e') := by
  obtain ⟨s, hu⟩ := ht.solves.solved.same_succeeds ht.covers hs.covers hcons
  have hsolves := (ht.solves.withStore (ht.solves.solved.same ht.covers hs.covers hu)).redirect
  have hcheck : ∀ (r : Resolved) (z : ActualId), Refers S pairs cell e z r →
      ({ e with store := s } : Env).redirect.checkDeclared r = .ok () := by
    intro r z hr
    apply hsolves.checkDeclared (x := z)
    · rw [covers_redirect]
      exact hr.covers
    · rw [hr.cell_eq, Store.Alike.find_eq (alike_redirect _), Store.Alike.find_eq (alike_redirect _), Store.find_find]
    · exact hr.ty_eq
  refine ⟨({ e with store := s } : Env).redirect, ?_⟩
  unfold Env.equate
  rw [ht.cell_eq, hs.cell_eq, hu]
  simp only
  rw [hcheck source y hs, hcheck target x ht]
  rfl

end Refers

/-- A plain goal that succeeds had all it refers to in scope, and its equation is solved. -/
theorem Solves.bound {g : Goal σ} (h : e.Solves S pairs cell) (hg : ∀ p ∈ g.operands, S.Describes pairs p)
    (hok : e.bindPlain g = .ok (some e')) :
    ∃ q cell', g.equation? pairs = some q ∧ e'.Solves (S.extend q) pairs cell' := by
  cases g with
  | bind p t =>
      cases t with
      | constant ty v =>
          obtain ⟨⟨target, e₁⟩, hr, hok⟩ := Except.bind_eq_ok hok
          obtain ⟨x, cell₁, hx, htarget, -⟩ := h.resolved (hg p List.mem_cons_self) hr
          exact ⟨.value x v, cell₁, by rw [Goal.equation?, hx]; rfl, htarget.assigned hok⟩
      | param q =>
          obtain ⟨⟨target, e₁⟩, hr, hok⟩ := Except.bind_eq_ok hok
          obtain ⟨⟨source, e₂⟩, hr', hok⟩ := Except.bind_eq_ok hok
          obtain ⟨x, cell₁, hx, htarget, -⟩ := h.resolved (hg p List.mem_cons_self) hr
          obtain ⟨y, cell₂, hy, hsource, hkeep⟩ :=
            htarget.solves.resolved (hg q (List.mem_cons_of_mem p List.mem_cons_self)) hr'
          obtain ⟨cell', hsolves⟩ := (htarget.keep hsource.solves hkeep).equated hsource hok
          exact ⟨.same x y, cell', by rw [Goal.equation?, hx, hy]; rfl, hsolves⟩
      | map ty s => cases hok
  | call name arguments => cases hok
  | check f => cases hok
  | action f => cases hok
  | openScope arguments => cases hok
  | closeScope => cases hok

/-- It does succeed if its equation is consistent with what is solved already. -/
theorem Solves.binds {g : Goal σ} (h : e.Solves S pairs cell) (hg : ∀ p ∈ g.operands, S.Describes pairs p)
    {q : Equation ActualId} (hq : g.equation? pairs = some q) (hcons : ∀ x, q.Mentions x → (S.extend q).Consistent x) :
    ∃ e', e.bindPlain g = .ok (some e') := by
  cases g with
  | bind p t =>
      cases t with
      | constant ty v =>
          obtain ⟨x, hx, rfl⟩ := Option.map_eq_some_iff.mp hq
          obtain ⟨target, e₁, cell₁, hr, htarget, -⟩ := h.resolve hx (hg p List.mem_cons_self)
          obtain ⟨e', hassign⟩ := htarget.assigns (hcons x rfl)
          refine ⟨e', ?_⟩
          rw [Env.bindPlain, hr]
          exact hassign
      | param q' =>
          obtain ⟨x, hx, hq⟩ := Option.bind_eq_some_iff.mp hq
          obtain ⟨y, hy, rfl⟩ := Option.map_eq_some_iff.mp hq
          obtain ⟨target, e₁, cell₁, hr, htarget, -⟩ := h.resolve hx (hg p List.mem_cons_self)
          obtain ⟨source, e₂, cell₂, hr', hsource, hkeep⟩ :=
            htarget.solves.resolve hy (hg q' (List.mem_cons_of_mem p List.mem_cons_self))
          obtain ⟨e', hequate⟩ := (htarget.keep hsource.solves hkeep).equates hsource (hcons x (.inl rfl))
          refine ⟨e', ?_⟩
          rw [Env.bindPlain, hr]
          change (e₁.resolve q' >>= fun p => p.2.equate target p.1) = _
          rw [hr']
          exact hequate
      | map ty s => cases hq
  | call name arguments => cases hq
  | check f => cases hq
  | action f => cases hq
  | openScope arguments => cases hq
  | closeScope => cases hq

theorem Solves.boundAll {goals : List (Goal σ)} (h : e.Solves S pairs cell)
    (hgoals : ∀ g ∈ goals, ∀ p ∈ g.operands, S.Describes pairs p) (hok : e.bindAll goals = .ok (some e')) :
    (∀ g ∈ goals, (g.equation? pairs).isSome) ∧
      ∃ cell', e'.Solves (S.extendAll (goals.filterMap fun g => g.equation? pairs)) pairs cell' := by
  induction goals generalizing S cell e with
  | nil =>
      cases hok
      refine ⟨fun _ hg => absurd hg List.not_mem_nil, cell, ?_⟩
      rw [List.filterMap_nil, System.extendAll_nil]
      exact h
  | cons g goals ih =>
      obtain ⟨r, hbind, hrest⟩ := Except.bind_eq_ok hok
      cases r with
      | none => cases hrest
      | some e₁ =>
          obtain ⟨q, cell₁, hq, hsolves⟩ := h.bound (hgoals g List.mem_cons_self) hbind
          obtain ⟨hscope, cell', hsolves'⟩ := ih hsolves (fun g' hg' => hgoals g' (List.mem_cons_of_mem g hg')) hrest
          rw [List.filterMap_cons_some hq, System.extendAll_cons]
          refine ⟨fun g' hg' => ?_, cell', hsolves'⟩
          rcases List.mem_cons.mp hg' with rfl | hg'
          · rw [hq]
            rfl
          · exact hscope g' hg'

theorem Solves.bindsAll {goals : List (Goal σ)} (h : e.Solves S pairs cell)
    (hgoals : ∀ g ∈ goals, ∀ p ∈ g.operands, S.Describes pairs p) (hscope : ∀ g ∈ goals, (g.equation? pairs).isSome)
    (hcons : ∀ q ∈ goals.filterMap (fun g => g.equation? pairs), ∀ x, q.Mentions x →
      (S.extendAll (goals.filterMap fun g => g.equation? pairs)).Consistent x) :
    ∃ e', e.bindAll goals = .ok (some e') := by
  induction goals generalizing S cell e with
  | nil => exact ⟨e, rfl⟩
  | cons g goals ih =>
      obtain ⟨q, hq⟩ := Option.isSome_iff_exists.mp (hscope g List.mem_cons_self)
      rw [List.filterMap_cons_some hq, System.extendAll_cons] at hcons
      obtain ⟨e₁, hbind⟩ : ∃ e₁, e.bindPlain g = .ok (some e₁) := by
        apply h.binds (hgoals g List.mem_cons_self) hq
        exact fun x hx => (hcons q List.mem_cons_self x hx).of_extendAll
      obtain ⟨q', cell₁, hq', hsolves⟩ := h.bound (hgoals g List.mem_cons_self) hbind
      rw [hq] at hq'
      cases hq'
      obtain ⟨e', hrest⟩ := ih hsolves (fun g' hg' => hgoals g' (List.mem_cons_of_mem g hg'))
        (fun g' hg' => hscope g' (List.mem_cons_of_mem g hg')) fun r hr => hcons r (List.mem_cons_of_mem q hr)
      refine ⟨e', ?_⟩
      rw [Env.bindAll, hbind]
      exact hrest

/-- A body completes exactly if all that it refers to is in scope and its equations are consistent. -/
theorem Solves.completes_iff {goals : List (Goal σ)} (h : e.Solves S pairs cell)
    (hgoals : ∀ g ∈ goals, ∀ p ∈ g.operands, S.Describes pairs p) :
    (∃ e', e.bindAll goals = .ok (some e')) ↔ (∀ g ∈ goals, (g.equation? pairs).isSome) ∧
      ∀ q ∈ goals.filterMap (fun g => g.equation? pairs), ∀ x, q.Mentions x →
        (S.extendAll (goals.filterMap fun g => g.equation? pairs)).Consistent x := by
  constructor
  · rintro ⟨e', hok⟩
    obtain ⟨hscope, cell', hsolves⟩ := h.boundAll hgoals hok
    refine ⟨hscope, fun q hq x hx => ?_⟩
    exact hsolves.solved.consistent (hsolves.solved.mentioned q (List.mem_append_right _ hq) x hx)
  · rintro ⟨hscope, hcons⟩
    exact h.bindsAll hgoals hscope hcons

/-- Neither where the locals are made nor the order of the goals matters to that. -/
theorem Solves.completes_perm {goals goals' : List (Goal σ)} {cell' : ActualId → Nat} (h : e.Solves S pairs cell)
    (h' : e'.Solves S pairs cell') (hgoals : ∀ g ∈ goals, ∀ p ∈ g.operands, S.Describes pairs p)
    (hperm : goals.Perm goals') :
    (∃ e₁, e.bindAll goals = .ok (some e₁)) ↔ ∃ e₁, e'.bindAll goals' = .ok (some e₁) := by
  have hequations := hperm.filterMap fun g => g.equation? pairs
  have hrearranged := S.rearranged_of_perm hequations
  rw [h.completes_iff hgoals, h'.completes_iff fun g hg => hgoals g (hperm.mem_iff.mpr hg)]
  simp only [hperm.mem_iff, hequations.mem_iff, hrearranged.consistent_iff]

end Env
end Clausal
