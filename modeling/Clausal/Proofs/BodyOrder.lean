import Clausal.Proofs.Bindings
import Clausal.Proofs.Seating
import Mathlib.Data.List.Forall2

/-! The order of a body. Another order makes other locals first, and so other cells are the oldest of their
classes. Main statement: a body of plain bindings that is called with arguments of the declared types
completes in one order exactly if it does in another, with answers that agree. -/
namespace Clausal

variable {σ : Type}

/-- Identities tell the actuals apart. -/
def Actual.Apart (as : List Actual) : Prop := ∀ a ∈ as, ∀ b ∈ as, a.id = b.id → a = b

def Formal.Apart (fs : List Formal) : Prop := ∀ f ∈ fs, ∀ g ∈ fs, f.id = g.id → f = g

def Goal.actuals (g : Goal σ) : List Actual :=
  g.operands.filterMap fun
    | .actual a => some a
    | .formal _ => none

def Goal.formals (g : Goal σ) : List Formal :=
  g.operands.filterMap fun
    | .formal f => some f
    | .actual _ => none

/-- Entries of one argument that have the same value, or else the same type and aliases. -/
structure Answer.Entry.Agrees (a b : Answer.Entry) : Prop where
  parameter_eq : a.parameter = b.parameter
  value_eq : a.value = b.value
  unbound : a.value = none → a.ty = b.ty ∧ a.aliases = b.aliases

/-- What actuals bring along: types, and the values of inputs. -/
def System.ofActuals (as : List Actual) : System ActualId where
  ty x := ((as.find? fun a => a.id = x).map Actual.ty).getD .any
  given x := (as.find? fun a => a.id = x).bind Actual.value
  equations := []

theorem System.ofActuals_describes {as : List Actual} (h : Actual.Apart as) {a : Actual} (ha : a ∈ as) :
    a.ty = (System.ofActuals as).ty a.id ∧ a.value = (System.ofActuals as).given a.id := by
  have hfind : (as.find? fun b => b.id = a.id) = some a := by
    cases hf : as.find? fun b => b.id = a.id with
    | none => exact absurd (decide_eq_true rfl) (List.find?_eq_none.mp hf a ha)
    | some b =>
        have hid : b.id = a.id := by simpa using List.find?_some hf
        rw [h b (List.mem_of_find?_eq_some hf) a ha hid]
  simp only [ofActuals, hfind]
  exact ⟨rfl, rfl⟩

namespace Env

variable {formals : List Formal} {actuals : List Actual} {slots : List Slot} {s : Store} {e : Env}

def cellOf (slots : List Slot) (x : ActualId) : Nat :=
  ((slots.find? fun slot => slot.parameter.id = x).map Slot.cell).getD 0

theorem Paired.cell_eq (h : Paired slots) {slot : Slot} (hslot : slot ∈ slots) :
    slot.cell = cellOf slots slot.parameter.id := by
  unfold cellOf
  cases hf : slots.find? fun other => other.parameter.id = slot.parameter.id with
  | none => exact absurd (decide_eq_true rfl) (List.find?_eq_none.mp hf slot hslot)
  | some other =>
      have hid : other.parameter.id = slot.parameter.id := by simpa using List.find?_some hf
      exact ((h other (List.mem_of_find?_eq_some hf) slot hslot).mp hid).symm

theorem Seated.solved (hs : Seated actuals slots s) (hpaired : Paired slots) {known : List Actual}
    (hknown : ∀ a ∈ actuals, a ∈ known) (hapart : Actual.Apart known) {dom : ActualId → Prop}
    (hdom : ∀ x, dom x ↔ ∃ slot ∈ slots, slot.parameter.id = x) {cell : ActualId → Nat}
    (hcell : ∀ slot ∈ slots, slot.cell = cell slot.parameter.id) :
    (System.ofActuals known).Solved dom cell s := by
  have hactual : ∀ slot ∈ slots, slot.parameter ∈ known := fun slot hslot =>
    hknown _ (hs.parameters ▸ List.mem_map_of_mem hslot)
  have hbrings : ∀ slot ∈ slots, s.ty slot.cell = (System.ofActuals known).ty slot.parameter.id ∧
      s.value slot.cell = (System.ofActuals known).given slot.parameter.id := by
    intro slot hslot
    obtain ⟨first, hfirst, hid, -, hown, hheld⟩ := hs.shared slot hslot
    obtain ⟨hty, hvalue⟩ := System.ofActuals_describes hapart (hactual first hfirst)
    rw [hs.ty_eq, hs.value_eq, hown, hheld, ← hid]
    exact ⟨hty, hvalue⟩
  apply System.Solved.initial hs.valid rfl
  case hbounded =>
    intro x hx
    obtain ⟨slot, hmem, rfl⟩ := (hdom x).mp hx
    rw [← hcell slot hmem]
    exact hs.bounded slot hmem
  case hapart =>
    intro x y hx hy hxy
    obtain ⟨slot, hmem, rfl⟩ := (hdom x).mp hx
    obtain ⟨other, hmem', rfl⟩ := (hdom y).mp hy
    rw [hs.roots, hs.roots, ← hcell slot hmem, ← hcell other hmem'] at hxy
    exact (hpaired slot hmem other hmem').mpr hxy
  case hty =>
    intro x hx
    obtain ⟨slot, hmem, rfl⟩ := (hdom x).mp hx
    rw [← hcell slot hmem]
    exact (hbrings slot hmem).1
  case hvalue =>
    intro x hx
    obtain ⟨slot, hmem, rfl⟩ := (hdom x).mp hx
    rw [← hcell slot hmem]
    exact (hbrings slot hmem).2

theorem ofQuery_solves (h : ofQuery formals actuals = .ok e) {known : List Actual}
    (hknown : ∀ a ∈ actuals, a ∈ known) (hapart : Actual.Apart known) :
    ∃ cell, e.Solves (System.ofActuals known) (formals.zip actuals) cell := by
  obtain ⟨slots, s, hs, hpaired, hlen, rfl⟩ := ofQuery_seats h
  have hscope : (⟨formals.zip slots, [], ⟨0, 0⟩⟩ : Scope).slots = slots := by
    rw [Scope.slots, Scope.argumentSlots, hs.map_snd_zip hlen, List.append_nil]
  have hcell : ∀ slot ∈ slots, slot.cell = cellOf slots slot.parameter.id := fun _ hslot => hpaired.cell_eq hslot
  refine ⟨cellOf slots, ?_, ?_, ?_, rfl⟩
  · apply hs.solved hpaired hknown hapart _ hcell
    intro x
    unfold Covers
    rw [hscope]
  · rw [hscope]
    exact hcell
  · rw [← hs.parameters, List.zip_map_right]
    rfl

section Entries

variable {S : System ActualId} {cell : ActualId → Nat} (hlen : formals.length = actuals.length)

include hlen in
theorem Solves.parameters_eq (h : e.Solves S (formals.zip actuals) cell) :
    e.scope.argumentSlots.map Slot.parameter = actuals := by
  have hsnd := congrArg (List.map Prod.snd) h.pairs_eq
  rw [List.map_snd_zip (Nat.le_of_eq hlen.symm), List.map_map] at hsnd
  rw [Scope.argumentSlots, List.map_map]
  exact hsnd

include hlen in
theorem Solves.covers (h : e.Solves S (formals.zip actuals) cell) {a : Actual} (ha : a ∈ actuals) :
    e.Covers a.id := by
  rw [← h.parameters_eq hlen] at ha
  obtain ⟨slot, hslot, rfl⟩ := List.mem_map.mp ha
  exact ⟨slot, List.mem_append_left _ hslot, rfl⟩

include hlen in
theorem Solves.entries_eq (h : e.Solves S (formals.zip actuals) cell) :
    (Answer.ofEnv e).entries = actuals.map fun a =>
      { parameter := a
        ty := e.store.ty (cell a.id)
        value := e.store.value (cell a.id)
        aliases := Actual.distinct (actuals.filter fun b =>
          b.id ≠ a.id ∧ e.store.find (cell b.id) = e.store.find (cell a.id)) } := by
  have hslots : e.queryArguments = e.scope.argumentSlots := by
    unfold queryArguments outermost
    rw [h.alone]
    rfl
  have hcell : ∀ slot ∈ e.scope.argumentSlots, slot.cell = cell slot.parameter.id :=
    fun slot hslot => h.cell_eq slot (List.mem_append_left _ hslot)
  unfold Answer.ofEnv
  rw [hslots, ← h.parameters_eq hlen, List.map_map]
  apply List.map_congr_left
  intro slot hslot
  rw [Function.comp_apply, List.filter_map, hcell slot hslot]
  congr 2
  unfold Answer.aliasesOf
  apply congrArg fun others => Actual.distinct (List.map Slot.parameter others)
  apply List.filter_congr
  intro other hother
  rw [Function.comp_apply, hcell other hother, hcell slot hslot]

include hlen in
/-- Environments that solve the same system give answers that agree. -/
theorem Solves.agrees {T : System ActualId} {cell' : ActualId → Nat} {e' : Env}
    (h : e.Solves S (formals.zip actuals) cell) (h' : e'.Solves T (formals.zip actuals) cell')
    (hsame : S.Rearranged T) :
    List.Forall₂ Answer.Entry.Agrees (Answer.ofEnv e).entries (Answer.ofEnv e').entries := by
  rw [h.entries_eq hlen, h'.entries_eq hlen, List.forall₂_map_left_iff, List.forall₂_map_right_iff,
    List.forall₂_same]
  intro a ha
  have hx := h.covers hlen ha
  have hx' := h'.covers hlen ha
  have hvalue : e.store.value (cell a.id) = e'.store.value (cell' a.id) := by
    apply Option.ext
    intro v
    rw [h.solved.value_iff hx, h'.solved.value_iff hx', hsame.tells_iff]
  refine ⟨rfl, hvalue, fun hnone => ?_⟩
  have hnone' : e'.store.value (cell' a.id) = none := hvalue ▸ hnone
  constructor
  · apply (h.solved.meets_of_unbound hx hnone).unique
    exact hsame.meets_iff.mpr (h'.solved.meets_of_unbound hx' hnone')
  · apply congrArg Actual.distinct
    apply List.filter_congr
    intro b hb
    have hclass := h.solved.find_iff hx hnone (h.covers hlen hb)
    have hclass' := h'.solved.find_iff hx' hnone' (h'.covers hlen hb)
    apply decide_eq_decide.mpr
    exact and_congr Iff.rfl (hclass.trans (hsame.linked_iff.trans hclass'.symm))

end Entries
end Env

namespace Resolvent

variable {c c' : Clause σ} {actuals : List Actual} {r r' : Resolvent σ}

theorem ofQuery_starts {goals : List (Goal σ)} (hbody : c.body = .fixed goals)
    (hlen : c.formals.length = actuals.length) (host : σ) :
    ∃ r, (ofQuery c actuals).Runs r ∧ r.agenda.toList = goals := by
  obtain ⟨e, he⟩ : ∃ e, Env.ofQuery c.formals actuals = .ok e := ⟨_, if_pos hlen⟩
  refine ⟨⟨e.nextSerial.2, .ofList goals⟩, ⟨World.start host, World.start host, ?_⟩, Agenda.toList_ofList goals⟩
  unfold ofQuery Clause.instantiate
  rw [he, hbody]
  rfl

/-- What a query starts with solves what its actuals bring along. -/
theorem ofQuery_solves (hr : (ofQuery c actuals).Runs r) {known : List Actual} (hknown : ∀ a ∈ actuals, a ∈ known)
    (hapart : Actual.Apart known) :
    ∃ cell, r.env.Solves (System.ofActuals known) (c.formals.zip actuals) cell := by
  obtain ⟨e, he, hr⟩ := hr.of_bind
  obtain ⟨body, hbody, hr⟩ := hr.of_bind
  cases hr.of_pure
  obtain ⟨cell, h⟩ := Env.ofQuery_solves he.of_lift hknown hapart
  exact ⟨cell, h.solved, h.cell_eq, h.pairs_eq, h.alone⟩

theorem types_of_zip {fs : List Formal} {as : List Actual} (h : fs.map Formal.ty = as.map Actual.ty) :
    ∀ p ∈ fs.zip as, p.1.ty = p.2.ty := by
  induction fs generalizing as with
  | nil => exact fun _ hp => absurd hp List.not_mem_nil
  | cons f fs ih =>
      cases as with
      | nil => cases h
      | cons a as =>
          obtain ⟨hfirst, hrest⟩ := List.cons.inj h
          intro p hp
          rcases List.mem_cons.mp hp with rfl | hp
          · exact hfirst
          · exact ih hrest p hp

theorem describes_operands {goals : List (Goal σ)} {known : List Actual}
    (htypes : c.formals.map Formal.ty = actuals.map Actual.ty) (hknown : ∀ a ∈ actuals, a ∈ known)
    (hapart : Actual.Apart known) (hgoals : ∀ g ∈ goals, ∀ a ∈ g.actuals, a ∈ known)
    (hformals : Formal.Apart (c.formals ++ goals.flatMap Goal.formals)) :
    ∀ g ∈ goals, ∀ p ∈ g.operands, (System.ofActuals known).Describes (c.formals.zip actuals) p := by
  intro g hg p hp
  cases p with
  | actual a =>
      apply System.ofActuals_describes hapart
      exact hgoals g hg a (List.mem_filterMap.mpr ⟨_, hp, rfl⟩)
  | formal f =>
      intro pair hpair hid
      have hfst : pair.1 ∈ c.formals := (List.of_mem_zip hpair).1
      have hf : f ∈ goals.flatMap Goal.formals :=
        List.mem_flatMap.mpr ⟨g, hg, List.mem_filterMap.mpr ⟨_, hp, rfl⟩⟩
      have hsame := hformals _ (List.mem_append_left _ hfst) f (List.mem_append_right _ hf) hid
      rw [← hsame, types_of_zip htypes pair hpair]
      exact (System.ofActuals_describes hapart (hknown _ (List.of_mem_zip hpair).2)).1

/-- A body of plain goals completes in all worlds alike. -/
theorem complete_iff {r : Resolvent σ} (hplain : ∀ g ∈ r.agenda.toList, g.Plain) (w : World σ) (e : Env) :
    (ExceptT.run r.run w).1 = .ok (.complete e) ↔ r.env.bindAll r.agenda.toList = .ok (some e) := by
  have hresult := (solve_plain hplain r.env w).1
  rw [run, hresult]
  cases r.env.bindAll r.agenda.toList with
  | error err => exact ⟨fun h => (nomatch h), fun h => (nomatch h)⟩
  | ok b =>
      cases b with
      | none => exact ⟨fun h => (nomatch h), fun h => (nomatch h)⟩
      | some e' =>
          constructor
          · intro h
            cases h
            rfl
          · intro h
            cases h
            rfl

/-- Take two clauses with the same formals whose bodies hold the same plain bindings in different orders, and
arguments of the declared types, of which some may be the same. In any worlds one branch completes exactly if
the other does. Then all arguments have the same values in both answers, and those without a value have the
same types and aliases. -/
theorem body_order_irrelevant (hsame : c'.formals = c.formals) (hr : (ofQuery c actuals).Runs r)
    (hr' : (ofQuery c' actuals).Runs r') (hperm : r.agenda.toList.Perm r'.agenda.toList)
    (hplain : ∀ g ∈ r.agenda.toList, g.Plain) (htypes : c.formals.map Formal.ty = actuals.map Actual.ty)
    (hformals : Formal.Apart (c.formals ++ r.agenda.toList.flatMap Goal.formals))
    (hactuals : Actual.Apart (actuals ++ r.agenda.toList.flatMap Goal.actuals)) (w w' : World σ) :
    ((∃ e, (ExceptT.run r.run w).1 = .ok (.complete e)) ↔ ∃ e', (ExceptT.run r'.run w').1 = .ok (.complete e')) ∧
      ∀ e e', (ExceptT.run r.run w).1 = .ok (.complete e) → (ExceptT.run r'.run w').1 = .ok (.complete e') →
        (Answer.ofEnv e).entries.map Answer.Entry.parameter = actuals ∧
          List.Forall₂ Answer.Entry.Agrees (Answer.ofEnv e).entries (Answer.ofEnv e').entries := by
  have hknown : ∀ a ∈ actuals, a ∈ actuals ++ r.agenda.toList.flatMap Goal.actuals :=
    fun a ha => List.mem_append_left _ ha
  have hlen : c.formals.length = actuals.length := by
    have hlength := congrArg List.length htypes
    rw [List.length_map, List.length_map] at hlength
    exact hlength
  have hdescribes := describes_operands htypes hknown hactuals
    (fun g (hg : g ∈ r.agenda.toList) a ha => List.mem_append_right _ (List.mem_flatMap.mpr ⟨g, hg, ha⟩)) hformals
  obtain ⟨cell, hsolves⟩ := ofQuery_solves hr hknown hactuals
  obtain ⟨cell', hsolves'⟩ := ofQuery_solves hr' hknown hactuals
  rw [hsame] at hsolves'
  have hplain' : ∀ g ∈ r'.agenda.toList, g.Plain := fun g hg => hplain g (hperm.mem_iff.mpr hg)
  simp only [complete_iff hplain w, complete_iff hplain' w']
  refine ⟨hsolves.completes_perm hsolves' hdescribes hperm, fun e e' he he' => ?_⟩
  obtain ⟨-, cell₁, hsolves₁⟩ := hsolves.boundAll hdescribes he
  obtain ⟨-, cell₂, hsolves₂⟩ := hsolves'.boundAll (fun g hg => hdescribes g (hperm.mem_iff.mpr hg)) he'
  refine ⟨?_, hsolves₁.agrees hlen hsolves₂ (System.rearranged_of_perm _ (hperm.filterMap _))⟩
  rw [hsolves₁.entries_eq hlen, List.map_map]
  exact List.map_id actuals

end Resolvent
/-- A clause that unifies its two formals by way of a local variable. -/
def linking (goals : List (Goal Unit)) : Clause Unit where
  name := "link"
  formals := [⟨0, "x", .any⟩, ⟨1, "y", .any⟩]
  body := .fixed goals
  name_ne := by decide
  distinct := by decide

def byWayOfLocal : List (Goal Unit) :=
  [.bind (.formal ⟨0, "x", .any⟩) (.param (.actual (.output (.shared 2) none .any none))),
    .bind (.actual (.output (.shared 2) none .any none)) (.param (.formal ⟨1, "y", .any⟩))]

def twoOutputs : List Actual := [.output (.shared 0) none .any none, .output (.shared 1) none .any none]

theorem linking_completes_in_either_order :
    ∃ r r' : Resolvent Unit, (Resolvent.ofQuery (linking byWayOfLocal) twoOutputs).Runs r ∧
      (Resolvent.ofQuery (linking byWayOfLocal.reverse) twoOutputs).Runs r' ∧
        (∃ e, (ExceptT.run r.run (World.start ())).1 = .ok (.complete e)) ∧
          ∃ e, (ExceptT.run r'.run (World.start ())).1 = .ok (.complete e) := by
  obtain ⟨r, hr, hgoals, hcompletes⟩ : ∃ r, (Resolvent.ofQuery (linking byWayOfLocal) twoOutputs).Runs r ∧
      r.agenda.toList = byWayOfLocal ∧ (r.env.bindAll r.agenda.toList).toOption.join.isSome :=
    ⟨_, ⟨World.start (), _, rfl⟩, rfl, by decide +kernel⟩
  obtain ⟨r', hr', hgoals'⟩ : ∃ r', (Resolvent.ofQuery (linking byWayOfLocal.reverse) twoOutputs).Runs r' ∧
      r'.agenda.toList = byWayOfLocal.reverse := Resolvent.ofQuery_starts rfl rfl ()
  have hplain : ∀ g ∈ r.agenda.toList, g.Plain := by
    rw [hgoals]
    simp [byWayOfLocal, Goal.Plain]
  have hfirst : ∃ e, (ExceptT.run r.run (World.start ())).1 = .ok (.complete e) := by
    simp only [Resolvent.complete_iff hplain]
    cases hb : r.env.bindAll r.agenda.toList with
    | error err =>
        rw [hb] at hcompletes
        cases hcompletes
    | ok found =>
        rw [hb] at hcompletes
        obtain ⟨e, he⟩ := Option.isSome_iff_exists.mp hcompletes
        exact ⟨e, congrArg Except.ok he⟩
  have hformals : Formal.Apart ((linking byWayOfLocal).formals ++ r.agenda.toList.flatMap Goal.formals) := by
    rw [hgoals]
    unfold Formal.Apart
    decide
  have hactuals : Actual.Apart (twoOutputs ++ r.agenda.toList.flatMap Goal.actuals) := by
    rw [hgoals]
    simp [Actual.Apart, twoOutputs, byWayOfLocal, Goal.actuals, Goal.operands, Actual.output]
  have hperm : r.agenda.toList.Perm r'.agenda.toList := by
    rw [hgoals, hgoals']
    exact byWayOfLocal.reverse_perm.symm
  have hsame : (linking byWayOfLocal.reverse).formals = (linking byWayOfLocal).formals := rfl
  obtain ⟨hboth, -⟩ := Resolvent.body_order_irrelevant hsame hr hr' hperm hplain (by decide) hformals hactuals
    (World.start ()) (World.start ())
  exact ⟨r, r', hr, hr', hfirst, hboth.mp hfirst⟩

end Clausal
