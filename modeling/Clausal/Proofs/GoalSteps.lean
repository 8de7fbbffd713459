import Clausal.Resolvent
import Clausal.Proofs.Scopes

/-! What a goal does to the environment, whatever its callbacks answer. Main statements: a goal opens a
scope, closes one, or changes things inside the innermost one; the arguments of a call denote cells;
and a binding that succeeds has checked what it refers to against the declared types. -/
namespace Clausal

variable {σ α β : Type}

namespace Engine

/-- The computation comes to this value in some world. -/
def Runs (x : Engine σ α) (a : α) : Prop := ∃ w w', ExceptT.run x w = (.ok a, w')

theorem Runs.of_pure {a b : α} (h : Runs (pure a : Engine σ α) b) : b = a := by
  obtain ⟨w, w', h⟩ := h
  cases h
  rfl

theorem Runs.of_lift {x : Except Error α} {a : α} (h : Runs (lift x : Engine σ α) a) : x = .ok a := by
  obtain ⟨w, w', h⟩ := h
  rw [run_lift] at h
  cases x with
  | error e => cases h
  | ok b =>
      cases h
      rfl

theorem Runs.of_bind {x : Engine σ α} {k : α → Engine σ β} {b : β} (h : Runs (x >>= k) b) :
    ∃ a, Runs x a ∧ Runs (k a) b := by
  obtain ⟨w, w', h⟩ := h
  rw [run_bind] at h
  generalize hx : ExceptT.run x w = p at h
  obtain ⟨r, w₁⟩ := p
  cases r with
  | error f => cases h
  | ok a => exact ⟨a, ⟨w, w₁, hx⟩, w₁, w', h⟩

theorem Runs.of_toOption {x : Engine σ α} {w : World σ} {a : α} (h : (ExceptT.run x w).1.toOption = some a) :
    Runs x a := by
  generalize hx : ExceptT.run x w = p at h
  obtain ⟨r, w'⟩ := p
  cases r with
  | error f => cases h
  | ok b =>
      cases h
      exact ⟨w, w', hx⟩

theorem Runs.of_perform {act : Effect σ α} {a : α} (h : Runs (perform act) a) :
    ∃ host, (act host).result = .ok a := by
  obtain ⟨w, w', h⟩ := h
  rw [run_perform] at h
  exact ⟨w.host, (Prod.mk.inj h).1⟩

end Engine

theorem Except.bind_eq_ok {ε : Type} {x : Except ε α} {k : α → Except ε β} {b : β} (h : (x >>= k) = .ok b) :
    ∃ a, x = .ok a ∧ k a = .ok b := by
  cases x with
  | error e => cases h
  | ok a => exact ⟨a, rfl, h⟩

theorem Except.bind_eq_error {ε : Type} {x : Except ε α} {k : α → Except ε β} {err : ε}
    (h : (x >>= k) = .error err) : x = .error err ∨ ∃ a, x = .ok a ∧ k a = .error err := by
  cases x with
  | error e =>
      cases h
      exact .inl rfl
  | ok a => exact .inr ⟨a, rfl, h⟩

theorem Scope.mem_slots_of_slot? {sc : Scope} {p : Param} {slot : Slot} (h : sc.slot? p = some slot) :
    slot ∈ sc.slots := by
  cases p with
  | formal f =>
      obtain ⟨a, ha, rfl⟩ := Option.map_eq_some_iff.mp h
      exact List.mem_append_left _ (List.mem_map_of_mem (List.mem_of_find?_eq_some ha))
  | actual a => exact List.mem_of_find?_eq_some h

namespace Env

theorem resolve_ok {e e' : Env} {p : Param} {r : Resolved} (hb : e.Bounded) (h : e.resolve p = .ok (r, e')) :
    e.Quiet e' ∧ r.slot.cell < e'.store.cells.size ∧ r.ty = p.ty ∧
      (∀ slot, e.scope.slot? p = some slot → r.slot = slot) ∧
        ∀ q slot, e.scope.slot? q = some slot → e'.scope.slot? q = some slot := by
  unfold resolve at h
  cases hs : e.scope.slot? p with
  | some slot =>
      rw [hs] at h
      cases h
      exact ⟨.refl e, hb slot (Scope.mem_slots_of_slot? hs), rfl, fun _ h => Option.some.inj h, fun _ _ h => h⟩
  | none =>
      rw [hs] at h
      cases p with
      | formal f => cases h
      | actual a =>
          cases h
          refine ⟨.addLocal e a, ?_, rfl, ?_, ?_⟩
          · change e.store.cells.size < (e.store.allocateFor a e.depth).2.cells.size
            rw [Store.size_allocateFor]
            exact Nat.lt_succ_self _
          · intro slot h
            cases h
          · intro q slot hq
            cases q with
            | formal f => exact hq
            | actual b =>
                change List.find? _ (e.scope.argumentSlots ++ (e.scope.locals ++ [_])) = _
                rw [← List.append_assoc, List.find?_append]
                exact Option.or_eq_some_iff.mpr (.inl hq)

theorem read_ok {e e' : Env} {p : Param} {v : Value} (hb : e.Bounded) (h : e.read p = .ok (v, e')) :
    e.Quiet e' := by
  obtain ⟨⟨r, e₁⟩, hr, h⟩ := Except.bind_eq_ok h
  have hin := (resolve_ok hb hr).1
  simp only at h
  cases hv : e₁.store.value r.slot.cell with
  | none =>
      rw [hv] at h
      cases h
  | some w =>
      rw [hv] at h
      cases h
      exact hin

theorem addLiteral_ok {e e' : Env} {ty : Ty} {v : Value} {slot : Slot}
    (h : e.addLiteral ty v = .ok (slot, e')) : e.Quiet e' ∧ slot.cell < e'.store.cells.size := by
  obtain ⟨a, -, h⟩ := Except.bind_eq_ok h
  cases h
  have hstore : e.nextSerial.2.Quiet { e.nextSerial.2 with store := (e.store.allocateFor a e.depth).2 } :=
    ⟨.of_store (e.store.grows_allocateFor a e.depth) fun h => h.allocateFor a e.depth,
      fun _ hc => Store.value_allocateFor a e.depth hc⟩
  refine ⟨(Quiet.nextSerial e).trans hstore, ?_⟩
  change e.store.cells.size < (e.store.allocateFor a e.depth).2.cells.size
  rw [Store.size_allocateFor]
  exact Nat.lt_succ_self _

/-- The class of a reference holds nothing, or a value of the type it was referred to with. -/
def Fits (e : Env) (r : Resolved) : Prop := ∀ v, e.store.value r.slot.cell = some v → r.ty.Accepts v.ty

theorem checkDeclared_ok {e : Env} {r : Resolved} (h : e.checkDeclared r = .ok ()) : e.Fits r := by
  intro v hv
  unfold checkDeclared at h
  rw [hv] at h
  by_cases hacc : r.ty.Accepts v.ty
  · exact hacc
  · simp only [if_neg hacc] at h
    cases h

/-- An equation that holds has unified the two, redirected the scope, and checked both. -/
theorem equate_some {e e' : Env} {target source : Resolved} (h : e.equate target source = .ok (some e')) :
    ∃ s, e.store.unify target.slot.cell source.slot.cell = (.ok true, s) ∧
      e' = ({ e with store := s } : Env).redirect ∧ e'.Fits target ∧ e'.Fits source := by
  unfold equate at h
  rcases hu : e.store.unify target.slot.cell source.slot.cell with ⟨r, s⟩
  rw [hu] at h
  rcases r with err | b
  · cases h
  cases b with
  | false => cases h
  | true =>
      obtain ⟨_, hsource, h⟩ := Except.bind_eq_ok h
      obtain ⟨_, htarget, h⟩ := Except.bind_eq_ok h
      cases h
      exact ⟨s, rfl, rfl, checkDeclared_ok htarget, checkDeclared_ok hsource⟩

theorem equate_ok {e e' : Env} {target source : Resolved} (ht : target.slot.cell < e.store.cells.size)
    (hs : source.slot.cell < e.store.cells.size) (h : e.equate target source = .ok (some e')) :
    e.Inside e' ∧ e'.Fits target ∧ e'.Fits source := by
  obtain ⟨s, hu, rfl, htarget, hsource⟩ := equate_some h
  have hstore : e.Inside { e with store := s } :=
    .of_store (Store.grows_unify ht hs hu) fun hv => hv.unify ht hs hu
  exact ⟨hstore.trans (.redirect _), htarget, hsource⟩

theorem assign_some {e e' : Env} {target : Resolved} {v : Value} (h : e.assign target v = .ok (some e')) :
    ∃ s, e.store.bindOrCheck target.slot.cell v = (.ok true, s) ∧ e' = { e with store := s } ∧ e'.Fits target := by
  unfold assign at h
  rcases hu : e.store.bindOrCheck target.slot.cell v with ⟨r, s⟩
  rw [hu] at h
  rcases r with err | b
  · cases h
  cases b with
  | false => cases h
  | true =>
      obtain ⟨_, htarget, h⟩ := Except.bind_eq_ok h
      cases h
      exact ⟨s, rfl, rfl, checkDeclared_ok htarget⟩

theorem assign_ok {e e' : Env} {target : Resolved} {v : Value} (h : e.assign target v = .ok (some e')) :
    e.Inside e' ∧ e'.Fits target := by
  obtain ⟨s, hu, rfl, htarget⟩ := assign_some h
  exact ⟨.of_store (Store.grows_bindOrCheck hu) fun hv => hv.bindOrCheck hu, htarget⟩

end Env

theorem Term.evaluate_runs {t : Term σ} {e e' : Env} {v : Value} (hb : e.Bounded)
    (h : (t.evaluate e).Runs (v, e')) : e.Quiet e' := by
  cases t with
  | constant ty w =>
      cases h.of_pure
      exact .refl e
  | param p => exact Env.read_ok hb h.of_lift
  | map ty s =>
      cases s with
      | scope f =>
          obtain ⟨w, -, h⟩ := h.of_bind
          obtain ⟨u, -, h⟩ := h.of_bind
          cases h.of_pure
          exact .refl e
      | source p f =>
          obtain ⟨⟨w, e₁⟩, hread, h⟩ := h.of_bind
          obtain ⟨u, -, h⟩ := h.of_bind
          obtain ⟨u', -, h⟩ := h.of_bind
          cases h.of_pure
          exact Env.read_ok hb hread.of_lift

namespace Env

theorem pass_runs {t : Term σ} {e e' : Env} {slot : Slot} (hb : e.Bounded)
    (h : (e.pass t).Runs (slot, e')) : e.Quiet e' ∧ slot.cell < e'.store.cells.size := by
  have hvalue (h : (t.evaluate e >>= fun p => Engine.lift (p.2.addLiteral t.ty p.1)).Runs (slot, e')) :
      e.Quiet e' ∧ slot.cell < e'.store.cells.size := by
    obtain ⟨⟨v, e₁⟩, hv, h⟩ := h.of_bind
    obtain ⟨hin, hcell⟩ := addLiteral_ok h.of_lift
    exact ⟨(Term.evaluate_runs hb hv).trans hin, hcell⟩
  cases t with
  | param p =>
      obtain ⟨⟨r, e₁⟩, hr, h⟩ := h.of_bind
      cases h.of_pure
      obtain ⟨hin, hcell, -⟩ := resolve_ok hb hr.of_lift
      exact ⟨hin, hcell⟩
  | constant ty v => exact hvalue h
  | map ty s => exact hvalue h

theorem passAll_runs {ts : List (Term σ)} {e e' : Env} {slots : List Slot} (hb : e.Bounded)
    (h : (e.passAll ts).Runs (slots, e')) :
    e.Quiet e' ∧ ∀ slot ∈ slots, slot.cell < e'.store.cells.size := by
  induction ts generalizing e slots with
  | nil =>
      cases h.of_pure
      exact ⟨.refl _, fun _ h => absurd h List.not_mem_nil⟩
  | cons t ts ih =>
      obtain ⟨⟨slot, e₁⟩, hpass, h⟩ := h.of_bind
      obtain ⟨⟨rest, e₂⟩, hrest, h⟩ := h.of_bind
      cases h.of_pure
      obtain ⟨hin, hcell⟩ := pass_runs hb hpass
      obtain ⟨hin', hcells⟩ := ih (hin.bounded hb) hrest
      refine ⟨hin.trans hin', fun s hs => ?_⟩
      rcases List.mem_cons.mp hs with rfl | hs
      · exact Nat.lt_of_lt_of_le hcell hin'.grows.size_le
      · exact hcells s hs

end Env

/-- The parameters that a binding refers to. -/
def Goal.operands : Goal σ → List Param
  | .bind p (.param q) => [p, q]
  | .bind p (.constant _ _) | .bind p (.map _ _) => [p]
  | .call _ _ | .check _ | .action _ | .openScope _ | .closeScope => []

/-- A binding that succeeds leaves what it refers to with nothing, or a value of the declared type. -/
theorem Env.solveBind_runs {e e' : Env} {p : Param} {t : Term σ} (hb : e.Bounded)
    (h : (e.solveBind p t).Runs (some e')) :
    e.Inside e' ∧ ∀ q slot, q ∈ (Goal.bind p t).operands → e.scope.slot? q = some slot → e'.Fits ⟨slot, q.ty⟩ := by
  obtain ⟨⟨target, e₁⟩, hp, h⟩ := h.of_bind
  obtain ⟨hin, hcell, hty, hslot, hlasts⟩ := resolve_ok hb hp.of_lift
  have hresolved {e' : Env} {r : Resolved} {q : Param} {slot : Slot} (hf : e'.Fits r) (hr : r.slot = slot)
      (hrty : r.ty = q.ty) : e'.Fits ⟨slot, q.ty⟩ := by
    subst hr
    rw [← hrty]
    exact hf
  have hvalue (hop : (Goal.bind p t).operands = [p])
      (h : (t.evaluate e₁ >>= fun q => Engine.lift (q.2.assign target q.1)).Runs (some e')) :
      e.Inside e' ∧ ∀ q slot, q ∈ (Goal.bind p t).operands → e.scope.slot? q = some slot →
        e'.Fits ⟨slot, q.ty⟩ := by
    obtain ⟨⟨v, e₂⟩, hv, h⟩ := h.of_bind
    obtain ⟨hin', hfits⟩ := assign_ok h.of_lift
    refine ⟨(hin.trans (Term.evaluate_runs (hin.bounded hb) hv)).toInside.trans hin', fun q slot hq hs => ?_⟩
    rw [hop] at hq
    obtain rfl := List.mem_singleton.mp hq
    exact hresolved hfits (hslot slot hs) hty
  cases t with
  | constant ty v => exact hvalue rfl h
  | map ty s => exact hvalue rfl h
  | param q =>
      obtain ⟨⟨source, e₂⟩, hq, h⟩ := h.of_bind
      obtain ⟨hin₂, hcell₂, hty₂, hslot₂, -⟩ := resolve_ok (hin.bounded hb) hq.of_lift
      obtain ⟨hin', htarget, hsource⟩ :=
        equate_ok (Nat.lt_of_lt_of_le hcell hin₂.grows.size_le) hcell₂ h.of_lift
      refine ⟨(hin.trans hin₂).toInside.trans hin', fun q' slot hq' hs => ?_⟩
      rcases List.mem_cons.mp hq' with rfl | hq'
      · exact hresolved htarget (hslot slot hs) hty
      · obtain rfl := List.mem_singleton.mp hq'
        exact hresolved hsource (hslot₂ slot (hlasts _ slot hs)) hty₂

namespace Goal

/-- How a goal leads on. A binding does what it says, checks and actions leave the environment as it is, and scope
goals open a scope or close one. A call does not lead on. -/
inductive Leads (e : Env) : Goal σ → Env → Prop where
  | bind {p : Param} {t : Term σ} {e' : Env} : (e.solveBind p t).Runs (some e') → Leads e (.bind p t) e'
  | check (f : View → Effect σ Bool) : Leads e (.check f) e
  | action (f : View → Effect σ Unit) : Leads e (.action f) e
  | openScope (arguments : List (Formal × Slot)) : Leads e (.openScope arguments) (e.openScope arguments)
  | closeScope {e' : Env} : e.closeScope = .ok e' → Leads e .closeScope e'

theorem leads {g : Goal σ} {e e' : Env} (h : (g.step e).Runs (.next e')) : Leads e g e' := by
  cases g with
  | bind p t =>
      obtain ⟨r, hr, h⟩ := h.of_bind
      cases r with
      | none =>
          obtain ⟨_, -, h⟩ := h.of_bind
          cases h.of_pure
      | some e₁ =>
          cases h.of_pure
          exact .bind hr
  | call name arguments =>
      obtain ⟨p, -, h⟩ := h.of_bind
      cases h.of_pure
  | check f =>
      obtain ⟨b, -, h⟩ := h.of_bind
      cases b with
      | true =>
          cases h.of_pure
          exact .check f
      | false =>
          obtain ⟨_, -, h⟩ := h.of_bind
          cases h.of_pure
  | action f =>
      obtain ⟨_, -, h⟩ := h.of_bind
      cases h.of_pure
      exact .action f
  | openScope arguments =>
      obtain ⟨e₁, he, h⟩ := h.of_bind
      obtain ⟨_, -, he⟩ := he.of_bind
      cases he.of_pure
      cases h.of_pure
      exact .openScope arguments
  | closeScope =>
      obtain ⟨e₁, he, h⟩ := h.of_bind
      obtain ⟨e₂, hclose, he⟩ := he.of_bind
      obtain ⟨_, -, he⟩ := he.of_bind
      cases he.of_pure
      cases h.of_pure
      exact .closeScope hclose.of_lift

theorem step_next {g : Goal σ} {e e' : Env} (hb : e.Bounded) (h : (g.step e).Runs (.next e')) :
    match g with
    | .openScope arguments => e' = e.openScope arguments
    | .closeScope => e.closeScope = .ok e'
    | .bind _ _ => e.Inside e'
    | _ => e.Quiet e' := by
  cases leads h with
  | bind hsolve => exact (Env.solveBind_runs hb hsolve).1
  | check f => exact .refl e
  | action f => exact .refl e
  | openScope arguments => rfl
  | closeScope hclose => exact hclose

theorem step_call {g : Goal σ} {e e' : Env} {name : String} {slots : List Slot} (hb : e.Bounded)
    (h : (g.step e).Runs (.call name slots e')) :
    (∃ arguments, g = .call name arguments) ∧ e.Quiet e' ∧
      ∀ slot ∈ slots, slot.cell < e'.store.cells.size := by
  cases g with
  | call name' arguments =>
      obtain ⟨p, hp, h⟩ := h.of_bind
      cases h.of_pure
      exact ⟨⟨arguments, rfl⟩, Env.passAll_runs hb hp⟩
  | bind p t =>
      obtain ⟨r, -, h⟩ := h.of_bind
      cases r with
      | some e₁ => cases h.of_pure
      | none =>
          obtain ⟨_, -, h⟩ := h.of_bind
          cases h.of_pure
  | check f =>
      obtain ⟨b, -, h⟩ := h.of_bind
      cases b with
      | true => cases h.of_pure
      | false =>
          obtain ⟨_, -, h⟩ := h.of_bind
          cases h.of_pure
  | action f =>
      obtain ⟨_, -, h⟩ := h.of_bind
      cases h.of_pure
  | openScope arguments =>
      obtain ⟨_, -, h⟩ := h.of_bind
      cases h.of_pure
  | closeScope =>
      obtain ⟨_, -, h⟩ := h.of_bind
      cases h.of_pure

theorem step_vouches {g : Goal σ} {e e' : Env} (hb : e.Bounded) (h : (g.step e).Runs (.next e')) {p : Param}
    {slot : Slot} (hp : p ∈ g.operands) (hs : e.scope.slot? p = some slot) :
    e'.Fits ⟨slot, p.ty⟩ := by
  cases leads h with
  | bind hsolve => exact (Env.solveBind_runs hb hsolve).2 p slot hp hs
  | check f => exact absurd hp List.not_mem_nil
  | action f => exact absurd hp List.not_mem_nil
  | openScope arguments => exact absurd hp List.not_mem_nil
  | closeScope hclose => exact absurd hp List.not_mem_nil

end Goal
end Clausal
