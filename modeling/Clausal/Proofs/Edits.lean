import Clausal.Proofs.Additions
import Clausal.Proofs.Aliases
import Clausal.Proofs.Trail

/-! Edits of the innermost scope. All that a goal does there is to make cells, to bind or unify what slots
of the scope denote, and to redirect these. Main statements: a goal that leads on opens a scope, closes
one, or makes such edits; and it passes on nothing but slots of the scope and new cells. -/
namespace Clausal

variable {σ : Type}

namespace Env

inductive Edit : Env → Env → Prop where
  | numbered (e : Env) : Edit e e.nextSerial.2
  | allocated (e : Env) (a : Actual) : Edit e { e with store := (e.store.allocateFor a e.depth).2 }
  | added (e : Env) (a : Actual) : Edit e (e.addLocal a).2
  | bound {e : Env} {slot : Slot} {v : Value} {s : Store} : slot ∈ e.scope.slots →
      e.store.bindOrCheck slot.cell v = (.ok true, s) → Edit e { e with store := s }
  | unified {e : Env} {target source : Slot} {s : Store} : target ∈ e.scope.slots → source ∈ e.scope.slots →
      e.store.unify target.cell source.cell = (.ok true, s) → Edit e { e with store := s }
  | redirected (e : Env) : Edit e e.redirect

abbrev Edits : Env → Env → Prop := Relation.ReflTransGen Edit

/-- Edits that keep the slots of the scope as they are. -/
structure Widens (e e' : Env) : Prop where
  edits : e.Edits e'
  slots : ∀ slot ∈ e.scope.slots, slot ∈ e'.scope.slots

theorem Widens.refl (e : Env) : e.Widens e := ⟨.refl, fun _ h => h⟩

theorem Widens.trans {e e' e'' : Env} (h : e.Widens e') (h' : e'.Widens e'') : e.Widens e'' :=
  ⟨h.edits.trans h'.edits, fun slot hslot => h'.slots slot (h.slots slot hslot)⟩

theorem Edit.enclosing_eq {e e' : Env} (h : e.Edit e') : e'.enclosing = e.enclosing := by
  cases h <;> rfl

theorem Edit.mark_eq {e e' : Env} (h : e.Edit e') : e'.scope.mark = e.scope.mark := by
  cases h <;> rfl

theorem Edit.inside {e e' : Env} (h : e.Edit e') (hb : e.Bounded) : e.Inside e' := by
  cases h with
  | numbered => exact .nextSerial e
  | allocated a =>
      exact .of_store (e.store.grows_allocateFor a e.depth) fun h => h.allocateFor a e.depth
  | added a => exact .addLocal e a
  | bound hslot hs => exact .of_store (Store.grows_bindOrCheck hs) fun h => h.bindOrCheck hs
  | unified ht hs hu =>
      exact .of_store (Store.grows_unify (hb _ ht) (hb _ hs) hu) fun h => h.unify (hb _ ht) (hb _ hs) hu
  | redirected => exact .redirect e

theorem Edits.inside {e e' : Env} (h : e.Edits e') (hb : e.Bounded) : e.Inside e' := by
  induction h with
  | refl => exact .refl e
  | tail _ hedit ih => exact ih.trans (hedit.inside (ih.bounded hb))

theorem Additions.widens {P : Param → Prop} {Q : Ty → Prop} {e e' : Env} (h : Additions P Q e e') : e.Widens e' := by
  induction h with
  | refl => exact .refl e
  | tail _ hstep ih =>
      refine ih.trans ?_
      cases hstep with
      | @introduced a _ _ =>
          refine ⟨.single (.added _ a), fun slot hslot => ?_⟩
          exact List.mem_append.mpr ((List.mem_append.mp hslot).imp_right (List.mem_append_left _))
      | passed _ hok =>
          obtain ⟨a, -, -, -, -, rfl⟩ := addLiteral_eq hok
          exact ⟨.tail (.single (.numbered _)) (.allocated _ a), fun _ h => h⟩

theorem resolve_widens {e e' : Env} {p : Param} {r : Resolved} (h : e.resolve p = .ok (r, e')) :
    e.Widens e' ∧ r.slot ∈ e'.scope.slots := by
  obtain ⟨hadds, -, hslot⟩ := resolve_adds (P := fun _ => True) (Q := fun _ => True) trivial h
  exact ⟨hadds.widens, Scope.mem_slots_of_slot? hslot⟩

end Env

theorem Term.evaluate_widens {t : Term σ} {e e' : Env} {v : Value} (h : (t.evaluate e).Runs (v, e')) :
    e.Widens e' :=
  (Env.evaluate_adds (P := fun _ => True) (Q := fun _ => True) (fun _ _ => trivial) h).widens

namespace Env

/-- What is passed is a slot of the scope, or has a new cell. -/
def Passes (e e' : Env) (slot : Slot) : Prop := slot ∈ e'.scope.slots ∨ e.store.cells.size ≤ slot.cell

theorem pass_widens {t : Term σ} {e e' : Env} {slot : Slot} (hb : e.Bounded) (h : (e.pass t).Runs (slot, e')) :
    e.Widens e' ∧ Passes e e' slot := by
  obtain ⟨hadds, hslot⟩ := pass_adds (P := fun _ => True) (Q := fun _ => True) (fun _ _ => trivial) trivial h
  refine ⟨hadds.widens, ?_⟩
  rcases hslot with ⟨p, -, hslot⟩ | ⟨v, e₁, hv, hok⟩
  · exact .inl (Scope.mem_slots_of_slot? hslot)
  · obtain ⟨a, -, -, -, rfl, -⟩ := addLiteral_eq hok
    exact .inr ((Term.evaluate_widens hv).edits.inside hb).grows.size_le

theorem passAll_widens {ts : List (Term σ)} {e e' : Env} {slots : List Slot} (hb : e.Bounded)
    (h : (e.passAll ts).Runs (slots, e')) : e.Widens e' ∧ ∀ slot ∈ slots, Passes e e' slot := by
  induction ts generalizing e slots with
  | nil =>
      cases h.of_pure
      exact ⟨.refl _, fun _ h => absurd h List.not_mem_nil⟩
  | cons t ts ih =>
      obtain ⟨⟨slot, e₁⟩, hpass, h⟩ := h.of_bind
      obtain ⟨⟨rest, e₂⟩, hrest, h⟩ := h.of_bind
      cases h.of_pure
      obtain ⟨hwidens, hslot⟩ := pass_widens hb hpass
      have hinside := hwidens.edits.inside hb
      obtain ⟨hwidens', hslots⟩ := ih (hinside.bounded hb) hrest
      refine ⟨hwidens.trans hwidens', fun s hs => ?_⟩
      rcases List.mem_cons.mp hs with rfl | hs
      · exact hslot.imp_left (hwidens'.slots s)
      · exact (hslots s hs).imp_right (Nat.le_trans hinside.grows.size_le)

theorem equate_edits {e e' : Env} {target source : Resolved} (ht : target.slot ∈ e.scope.slots)
    (hs : source.slot ∈ e.scope.slots) (h : e.equate target source = .ok (some e')) : e.Edits e' := by
  obtain ⟨s, hu, rfl, -⟩ := equate_some h
  exact .tail (.single (.unified ht hs hu)) (.redirected _)

theorem assign_edits {e e' : Env} {target : Resolved} {v : Value} (ht : target.slot ∈ e.scope.slots)
    (h : e.assign target v = .ok (some e')) : e.Edits e' := by
  obtain ⟨s, hu, rfl, -⟩ := assign_some h
  exact .single (.bound ht hu)

theorem solveBind_edits {e e' : Env} {p : Param} {t : Term σ} (h : (e.solveBind p t).Runs (some e')) :
    e.Edits e' := by
  obtain ⟨⟨target, e₁⟩, hp, h⟩ := h.of_bind
  obtain ⟨hwidens, htarget⟩ := resolve_widens hp.of_lift
  have hvalue (h : (t.evaluate e₁ >>= fun q => Engine.lift (q.2.assign target q.1)).Runs (some e')) :
      e.Edits e' := by
    obtain ⟨⟨v, e₂⟩, hv, h⟩ := h.of_bind
    have hwidens' := Term.evaluate_widens hv
    exact (hwidens.trans hwidens').edits.trans (assign_edits (hwidens'.slots _ htarget) h.of_lift)
  cases t with
  | constant ty v => exact hvalue h
  | map ty s => exact hvalue h
  | param q =>
      obtain ⟨⟨source, e₂⟩, hq, h⟩ := h.of_bind
      obtain ⟨hwidens', hsource⟩ := resolve_widens hq.of_lift
      exact (hwidens.trans hwidens').edits.trans (equate_edits (hwidens'.slots _ htarget) hsource h.of_lift)

end Env

namespace Goal

/-- A goal of a body that leads on makes edits alone. -/
theorem step_edits {g : Goal σ} {e e' : Env} (h : (g.step e).Runs (.next e')) (hg : g.Authored) : e.Edits e' := by
  cases leads h with
  | bind hsolve => exact Env.solveBind_edits hsolve
  | check f => exact .refl
  | action f => exact .refl
  | openScope arguments => exact absurd hg id
  | closeScope hclose => exact absurd hg id

theorem step_passes {g : Goal σ} {e e' : Env} {name : String} {slots : List Slot} (hb : e.Bounded)
    (h : (g.step e).Runs (.call name slots e')) : e.Edits e' ∧ ∀ slot ∈ slots, Env.Passes e e' slot := by
  obtain ⟨⟨arguments, rfl⟩, -⟩ := step_call hb h
  obtain ⟨p, hp, h⟩ := h.of_bind
  cases h.of_pure
  obtain ⟨hwidens, hslots⟩ := Env.passAll_widens hb hp
  exact ⟨hwidens.edits, hslots⟩

end Goal

namespace Resolvent

/-- What a step of a branch comes to, and which goals it leaves. Only a call adds goals, and the scope that
it is going to open gets what it passes. -/
inductive Move (r r' : Resolvent σ) : Prop where
  | edits : r.env.Edits r'.env → (∀ g ∈ r'.agenda.toList, g ∈ r.agenda.toList) → Move r r'
  | calls (arguments : List (Formal × Slot)) : r.env.Edits r'.env →
      (∀ a ∈ arguments, Env.Passes r.env r'.env a.2) →
        (∀ g ∈ r'.agenda.toList, g = .openScope arguments ∨ g.Authored ∨ g = .closeScope ∨ g ∈ r.agenda.toList) →
          Move r r'
  | opens (arguments : List (Formal × Slot)) : .openScope arguments ∈ r.agenda.toList →
      r'.env = r.env.openScope arguments → (∀ g ∈ r'.agenda.toList, g ∈ r.agenda.toList) → Move r r'
  | closes : r.env.closeScope = .ok r'.env → (∀ g ∈ r'.agenda.toList, g ∈ r.agenda.toList) → Move r r'

theorem Step.move {r r' : Resolvent σ} (h : r.Step r') (hb : r.env.Bounded) : Move r r' := by
  cases h with
  | @goal e e' a rest g hn hstep =>
      have hlist : a.toList = g :: rest.toList := Agenda.toList_of_next? hn
      have hgoals : ∀ g' ∈ rest.toList, g' ∈ a.toList := by
        intro g' hg'
        rw [hlist]
        exact List.mem_cons_of_mem g hg'
      have hnext := Goal.step_next hb hstep
      cases g with
      | openScope arguments => exact .opens arguments (by rw [hlist]; exact List.mem_cons_self) hnext hgoals
      | closeScope => exact .closes hnext hgoals
      | bind p t => exact .edits (Goal.step_edits hstep trivial) hgoals
      | call name arguments => exact .edits (Goal.step_edits hstep trivial) hgoals
      | check f => exact .edits (Goal.step_edits hstep trivial) hgoals
      | action f => exact .edits (Goal.step_edits hstep trivial) hgoals
  | @call e e' a rest g name slots callee r' hn hstep hauth _ hresume =>
      have hlist : a.toList = g :: rest.toList := Agenda.toList_of_next? hn
      obtain ⟨hedits, hslots⟩ := Goal.step_passes hb hstep
      obtain ⟨henv, body, hbody, hagenda⟩ := resume_runs hresume
      refine .calls (callee.formals.zip slots) ?_ ?_ ?_
      · rw [henv]
        exact hedits.tail (.numbered e')
      · intro p hp
        rw [henv]
        exact hslots p.2 (List.of_mem_zip hp).2
      · intro g' hg'
        rw [hagenda] at hg'
        rcases List.mem_cons.mp hg' with rfl | hg'
        · exact .inl rfl
        · rcases List.mem_append.mp hg' with hg' | hg'
          · exact .inr (.inl (hauth _ body hbody g' hg'))
          · rcases List.mem_cons.mp hg' with rfl | hg'
            · exact .inr (.inr (.inl rfl))
            · exact .inr (.inr (.inr (by rw [hlist]; exact List.mem_cons_of_mem g hg')))

/-- Only what closes a scope brings a branch down. -/
theorem Move.closes_of_lt {r r' : Resolvent σ} (h : r.Move r') (hb : r.env.Bounded) (hlt : r'.env.depth < r.env.depth) :
    r.env.closeScope = .ok r'.env := by
  have hsame (hedits : r.env.Edits r'.env) : r'.env.depth = r.env.depth := (hedits.inside hb).depth_eq
  cases h with
  | edits hedits _ => exact absurd (hsame hedits) (Nat.ne_of_lt hlt)
  | calls _ hedits _ _ => exact absurd (hsame hedits) (Nat.ne_of_lt hlt)
  | opens arguments _ heq _ =>
      rw [heq] at hlt
      exact absurd hlt (Nat.not_lt_of_le (Nat.le_succ _))
  | closes hclosed _ => exact hclosed

end Resolvent
end Clausal
