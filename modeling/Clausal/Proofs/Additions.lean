import Clausal.Proofs.GoalSteps
import Mathlib.Logic.Relation

/-! What evaluation adds to an environment. Main statements: to resolve, read, evaluate or pass something makes
parameters local variables that were missing and gives values cells as literals, and does nothing else; and a
binding that leads on has resolved its operands and then unified or bound them. -/
namespace Clausal

variable {σ : Type}

def Term.reads : Term σ → List Param
  | .constant _ _ | .map _ (.scope _) => []
  | .param p | .map _ (.source p _) => [p]

namespace Env

variable {P : Param → Prop} {Q : Ty → Prop} {e e' e'' : Env}

/-- One thing added: a missing parameter of some kind as a local variable, or a value of a type of some kind as a
literal. -/
inductive Addition (P : Param → Prop) (Q : Ty → Prop) : Env → Env → Prop where
  | introduced {e : Env} {a : Actual} :
      P (.actual a) → e.scope.slot? (.actual a) = none → Addition P Q e (e.addLocal a).2
  | passed {e e' : Env} {slot : Slot} {ty : Ty} {v : Value} :
      Q ty → e.addLiteral ty v = .ok (slot, e') → Addition P Q e e'

abbrev Additions (P : Param → Prop) (Q : Ty → Prop) : Env → Env → Prop := Relation.ReflTransGen (Addition P Q)

theorem addLiteral_eq {slot : Slot} {ty : Ty} {v : Value} (h : e.addLiteral ty v = .ok (slot, e')) :
    ∃ a : Actual, a.id = .literal e.serial ∧ a.ty = ty ∧ a.value = some v ∧ slot = ⟨a, e.store.cells.size⟩ ∧
      e' = { e.nextSerial.2 with store := (e.store.allocateFor a e.depth).2 } := by
  obtain ⟨a, ha, h⟩ := Except.bind_eq_ok h
  cases h
  unfold Actual.input? at ha
  split at ha
  · cases ha
    exact ⟨_, rfl, rfl, rfl, rfl, rfl⟩
  · cases ha

theorem slot?_addLocal {a : Actual} (h : e.scope.slot? (.actual a) = none) :
    (e.addLocal a).2.scope.slot? (.actual a) = some ⟨a, e.store.cells.size⟩ := by
  have hnone : (e.scope.argumentSlots ++ e.scope.locals).find? (fun slot => slot.parameter.id = a.id) = none := h
  change (e.scope.argumentSlots ++ (e.scope.locals ++ [_])).find? _ = _
  rw [← List.append_assoc, List.find?_append, hnone]
  simp

theorem resolve_adds {p : Param} {r : Resolved} (hP : P p) (h : e.resolve p = .ok (r, e')) :
    Additions P Q e e' ∧ r.ty = p.ty ∧ e'.scope.slot? p = some r.slot := by
  unfold resolve at h
  cases hs : e.scope.slot? p with
  | some slot =>
      rw [hs] at h
      cases h
      exact ⟨.refl, rfl, hs⟩
  | none =>
      rw [hs] at h
      cases p with
      | formal f => cases h
      | actual a =>
          cases h
          exact ⟨.single (.introduced hP hs), rfl, slot?_addLocal hs⟩

theorem read_adds {p : Param} {v : Value} (hP : P p) (h : e.read p = .ok (v, e')) : Additions P Q e e' := by
  obtain ⟨⟨r, e₁⟩, hr, h⟩ := Except.bind_eq_ok h
  simp only at h
  cases hv : e₁.store.value r.slot.cell with
  | none =>
      rw [hv] at h
      cases h
  | some w =>
      rw [hv] at h
      cases h
      exact (resolve_adds hP hr).1

theorem evaluate_adds {t : Term σ} {v : Value} (hP : ∀ p ∈ t.reads, P p) (h : (t.evaluate e).Runs (v, e')) :
    Additions P Q e e' := by
  cases t with
  | constant ty w =>
      cases h.of_pure
      exact .refl
  | param p => exact read_adds (hP p List.mem_cons_self) h.of_lift
  | map ty s =>
      cases s with
      | scope f =>
          obtain ⟨w, -, h⟩ := h.of_bind
          obtain ⟨u, -, h⟩ := h.of_bind
          cases h.of_pure
          exact .refl
      | source p f =>
          obtain ⟨⟨w, e₁⟩, hread, h⟩ := h.of_bind
          obtain ⟨u, -, h⟩ := h.of_bind
          obtain ⟨u', -, h⟩ := h.of_bind
          cases h.of_pure
          exact read_adds (hP p List.mem_cons_self) hread.of_lift

/-- A parameter is passed as the slot that it stands for, anything else as a literal of the term's type. -/
theorem pass_adds {t : Term σ} {slot : Slot} (hP : ∀ p ∈ t.reads, P p) (hQ : Q t.ty)
    (h : (e.pass t).Runs (slot, e')) : Additions P Q e e' ∧
      ((∃ p, t = .param p ∧ e'.scope.slot? p = some slot) ∨
        ∃ v e₁, (t.evaluate e).Runs (v, e₁) ∧ e₁.addLiteral t.ty v = .ok (slot, e')) := by
  have hvalue (h : (t.evaluate e >>= fun p => Engine.lift (p.2.addLiteral t.ty p.1)).Runs (slot, e')) :
      Additions P Q e e' ∧ ((∃ p, t = .param p ∧ e'.scope.slot? p = some slot) ∨
        ∃ v e₁, (t.evaluate e).Runs (v, e₁) ∧ e₁.addLiteral t.ty v = .ok (slot, e')) := by
    obtain ⟨⟨v, e₁⟩, hv, h⟩ := h.of_bind
    exact ⟨(evaluate_adds hP hv).tail (.passed hQ h.of_lift), .inr ⟨v, e₁, hv, h.of_lift⟩⟩
  cases t with
  | param p =>
      obtain ⟨⟨r, e₁⟩, hr, h⟩ := h.of_bind
      cases h.of_pure
      obtain ⟨hadds, -, hslot⟩ := resolve_adds (hP p List.mem_cons_self) hr.of_lift
      exact ⟨hadds, .inl ⟨p, rfl, hslot⟩⟩
  | constant ty v => exact hvalue h
  | map ty s => exact hvalue h

theorem passAll_adds {ts : List (Term σ)} {slots : List Slot} (hP : ∀ t ∈ ts, ∀ p ∈ t.reads, P p)
    (hQ : ∀ t ∈ ts, Q t.ty) (h : (e.passAll ts).Runs (slots, e')) : Additions P Q e e' := by
  induction ts generalizing e slots with
  | nil =>
      cases h.of_pure
      exact .refl
  | cons t ts ih =>
      obtain ⟨⟨slot, e₁⟩, hpass, h⟩ := h.of_bind
      obtain ⟨⟨rest, e₂⟩, hrest, h⟩ := h.of_bind
      cases h.of_pure
      have hfirst := (pass_adds (hP t List.mem_cons_self) (hQ t List.mem_cons_self) hpass).1
      exact hfirst.trans (ih (fun t' h' => hP t' (List.mem_cons_of_mem t h'))
        (fun t' h' => hQ t' (List.mem_cons_of_mem t h')) hrest)

end Env

namespace Goal

variable {e e' : Env}

/-- A binding that leads on resolves the parameter. Then it resolves another one and unifies the two, or evaluates
another term and gives its value to the parameter. -/
theorem bind_next {p : Param} {t : Term σ} (h : ((Goal.bind p t).step e).Runs (.next e')) :
    ∃ target e₁, e.resolve p = .ok (target, e₁) ∧
      ((∃ q source e₂ s, t = .param q ∧ e₁.resolve q = .ok (source, e₂) ∧
          e₂.store.unify target.slot.cell source.slot.cell = (.ok true, s) ∧
            e' = ({ e₂ with store := s } : Env).redirect) ∨
        ∃ v e₂ s, (∀ q, t ≠ .param q) ∧ (t.evaluate e₁).Runs (v, e₂) ∧
          e₂.store.bindOrCheck target.slot.cell v = (.ok true, s) ∧ e' = { e₂ with store := s }) := by
  cases leads h with
  | bind hsolve =>
  obtain ⟨⟨target, e₁⟩, hp, hr⟩ := hsolve.of_bind
  refine ⟨target, e₁, hp.of_lift, ?_⟩
  have hvalue (hr : (t.evaluate e₁ >>= fun q => Engine.lift (q.2.assign target q.1)).Runs (some e')) :
      ∃ v e₂ s, (t.evaluate e₁).Runs (v, e₂) ∧ e₂.store.bindOrCheck target.slot.cell v = (.ok true, s) ∧
        e' = { e₂ with store := s } := by
    obtain ⟨⟨v, e₂⟩, hv, hr⟩ := hr.of_bind
    obtain ⟨s, hs, heq, -⟩ := Env.assign_some hr.of_lift
    exact ⟨v, e₂, s, hv, hs, heq⟩
  cases t with
  | param q =>
      obtain ⟨⟨source, e₂⟩, hq, hr⟩ := hr.of_bind
      obtain ⟨s, hu, heq, -⟩ := Env.equate_some hr.of_lift
      exact .inl ⟨q, source, e₂, s, rfl, hq.of_lift, hu, heq⟩
  | constant ty w =>
      obtain ⟨v, e₂, s, h⟩ := hvalue hr
      exact .inr ⟨v, e₂, s, (fun _ hq => by cases hq), h⟩
  | map ty f =>
      obtain ⟨v, e₂, s, h⟩ := hvalue hr
      exact .inr ⟨v, e₂, s, (fun _ hq => by cases hq), h⟩

end Goal
end Clausal
