import Clausal.Proofs.Answers
import Clausal.Proofs.Edits
import Clausal.Proofs.History

/-! Redirection. A unification leaves slots behind that denote cells which no longer represent their classes. Those of the
innermost scope are redirected at once, those of an enclosing scope only when all inside it have closed. Main statements:
the order of redirection does not matter and no class is changed by it, and wherever a branch stands, the slots of its
innermost scope and what it passes hold representatives. -/
namespace Clausal

variable {σ : Type}

namespace Store

variable {s t : Store}

/-- What can be read off the cells is the same in both stores. -/
structure ReadsAs (s t : Store) : Prop where
  find : ∀ c, t.find c = s.find c
  value : ∀ c, t.value c = s.value c
  ty : ∀ c, t.ty c = s.ty c
  aliases : ∀ c, t.aliases c = s.aliases c

theorem Alike.readsAs (h : s.Alike t) (hlisted : ∀ c, t.listed c = s.listed c) : s.ReadsAs t where
  find := h.find_eq
  value := h.value_eq
  ty := h.ty_eq
  aliases := fun c => by rw [aliases, aliases, entries_eq, entries_eq, h.find_eq, hlisted]

theorem getElem?_compressAll (s : Store) (slots : List Slot) (i : Nat) :
    (slots.foldl (fun s slot => s.compress slot.cell) s).cells[i]? = s.cells[i]?.map fun cell =>
      if i ∈ slots.map Slot.cell then { cell with parent := s.find i } else cell := by
  induction slots generalizing s with
  | nil => simp
  | cons slot rest ih =>
      rw [List.foldl_cons, ih, (alike_compress s slot.cell).find_eq, compress, getElem?_modify]
      by_cases hi : slot.cell = i
      · subst hi
        cases s.cells[slot.cell]? <;> simp
      · have hne : i ≠ slot.cell := fun h => hi h.symm
        simp [hi, hne]

theorem compressAll_perm (s : Store) {slots slots' : List Slot} (h : slots.Perm slots') :
    slots'.foldl (fun s slot => s.compress slot.cell) s = slots.foldl (fun s slot => s.compress slot.cell) s := by
  have hcells : (slots'.foldl (fun s slot => s.compress slot.cell) s).cells =
      (slots.foldl (fun s slot => s.compress slot.cell) s).cells := by
    apply Array.ext_getElem?
    intro i
    rw [getElem?_compressAll, getElem?_compressAll]
    simp only [(h.map Slot.cell).mem_iff]
  have hlog : (slots'.foldl (fun s slot => s.compress slot.cell) s).narrowings =
      (slots.foldl (fun s slot => s.compress slot.cell) s).narrowings :=
    (alike_compressAll s slots').narrowings_eq.trans (alike_compressAll s slots).narrowings_eq.symm
  generalize slots'.foldl (fun s slot => s.compress slot.cell) s = a at hcells hlog
  generalize slots.foldl (fun s slot => s.compress slot.cell) s = b at hcells hlog
  cases a
  cases b
  cases hcells
  cases hlog
  rfl

theorem readsAs_compressAll (s : Store) (slots : List Slot) :
    s.ReadsAs (slots.foldl (fun s slot => s.compress slot.cell) s) :=
  (alike_compressAll s slots).readsAs (listed_compressAll s slots)

end Store

namespace Env

variable {e e' : Env}

/-- The slot holds the representative of its class. -/
def AtRoot (e : Env) (slot : Slot) : Prop := e.store.find slot.cell = slot.cell

instance (e : Env) (slot : Slot) : Decidable (e.AtRoot slot) :=
  inferInstanceAs (Decidable (_ = _))

/-- The slots of the innermost scope hold representatives. -/
def Direct (e : Env) : Prop := ∀ slot ∈ e.scope.slots, e.AtRoot slot

/-- A slot of an enclosing scope does not hold a representative. -/
def Stale (e : Env) : Prop := ∃ sc ∈ e.enclosing, ∃ slot ∈ sc.slots, ¬e.AtRoot slot

instance (e : Env) : Decidable e.Stale :=
  inferInstanceAs (Decidable (∃ sc ∈ e.enclosing, ∃ slot ∈ sc.slots, ¬e.AtRoot slot))

theorem direct_redirect (e : Env) : e.redirect.Direct := by
  intro slot hslot
  rw [slots_redirect] at hslot
  obtain ⟨old, -, rfl⟩ := List.mem_map.mp hslot
  exact ((alike_redirect e).find_eq _).trans (e.store.find_find old.cell)

theorem direct_ofQuery {formals : List Formal} {actuals : List Actual} (h : ofQuery formals actuals = .ok e) :
    e.Direct := by
  obtain ⟨slots, hseated, -⟩ := ofQuery_ok h
  exact fun slot _ => hseated.roots slot.cell

/-- What is new is its own representative, and no class is touched. -/
theorem Addition.direct {P : Param → Prop} {Q : Ty → Prop} (h : Addition P Q e e') :
    (∀ c, e'.store.find c = e.store.find c) ∧ (e.Direct → e'.Direct) := by
  cases h with
  | @introduced a hP hnone =>
      have hfind (c : Nat) : (e.addLocal a).2.store.find c = e.store.find c := Store.find_allocateFor a e.depth c
      refine ⟨hfind, fun hd slot hslot => (hfind slot.cell).trans ?_⟩
      rcases mem_slots_addLocal.mp hslot with hslot | rfl
      · exact hd slot hslot
      · exact Store.find_of_ge (Nat.le_refl _)
  | passed hQ hok =>
      obtain ⟨a, -, -, -, -, rfl⟩ := addLiteral_eq hok
      have hfind (c : Nat) : (e.store.allocateFor a e.depth).2.find c = e.store.find c :=
        Store.find_allocateFor a e.depth c
      exact ⟨hfind, fun hd slot hslot => (hfind slot.cell).trans (hd slot hslot)⟩

theorem Additions.direct {P : Param → Prop} {Q : Ty → Prop} (h : Additions P Q e e') :
    (∀ c, e'.store.find c = e.store.find c) ∧ (e.Direct → e'.Direct) := by
  induction h with
  | refl => exact ⟨fun _ => rfl, id⟩
  | tail _ hstep ih => exact ⟨fun c => (hstep.direct.1 c).trans (ih.1 c), hstep.direct.2 ∘ ih.2⟩

theorem pass_direct {t : Term σ} {slot : Slot} (hd : e.Direct) (h : (e.pass t).Runs (slot, e')) :
    (∀ c, e'.store.find c = e.store.find c) ∧ e'.Direct ∧ e'.AtRoot slot := by
  obtain ⟨hadds, hslot⟩ := pass_adds (P := fun _ => True) (Q := fun _ => True) (fun _ _ => trivial) trivial h
  obtain ⟨hfind, hdirect⟩ := hadds.direct
  refine ⟨hfind, hdirect hd, ?_⟩
  rcases hslot with ⟨p, -, hslot⟩ | ⟨v, e₁, -, hok⟩
  · exact hdirect hd slot (Scope.mem_slots_of_slot? hslot)
  · obtain ⟨a, -, -, -, rfl, rfl⟩ := addLiteral_eq hok
    exact (Store.find_allocateFor a e₁.depth _).trans (Store.find_of_ge (Nat.le_refl _))

theorem passAll_direct {ts : List (Term σ)} {slots : List Slot} (hd : e.Direct)
    (h : (e.passAll ts).Runs (slots, e')) :
    (∀ c, e'.store.find c = e.store.find c) ∧ e'.Direct ∧ ∀ slot ∈ slots, e'.AtRoot slot := by
  induction ts generalizing e slots with
  | nil =>
      cases h.of_pure
      exact ⟨fun _ => rfl, hd, fun _ h => absurd h List.not_mem_nil⟩
  | cons t ts ih =>
      obtain ⟨⟨slot, e₁⟩, hpass, h⟩ := h.of_bind
      obtain ⟨⟨rest, e₂⟩, hrest, h⟩ := h.of_bind
      cases h.of_pure
      obtain ⟨hfind, hdirect, hslot⟩ := pass_direct hd hpass
      obtain ⟨hfind', hdirect', hslots⟩ := ih hdirect hrest
      refine ⟨fun c => (hfind' c).trans (hfind c), hdirect', fun s hs => ?_⟩
      rcases List.mem_cons.mp hs with rfl | hs
      · exact (hfind' s.cell).trans hslot
      · exact hslots s hs

end Env

namespace Goal

variable {g : Goal σ} {e e' : Env}

/-- A goal that leads on leaves an innermost scope whose slots hold representatives. -/
theorem step_direct (hd : e.Direct) (hentry : ∀ arguments, g = .openScope arguments → ∀ a ∈ arguments, e.AtRoot a.2)
    (h : (g.step e).Runs (.next e')) : e'.Direct := by
  cases leads h with
  | @bind p t _ hsolve =>
      obtain ⟨target, e₁, hp, hcase⟩ := bind_next h
      have hd₁ := (Env.resolve_adds (P := fun _ => True) (Q := fun _ => True) trivial hp).1.direct.2 hd
      rcases hcase with ⟨q, source, e₂, s, -, -, -, rfl⟩ | ⟨v, e₂, s, -, hv, hs, rfl⟩
      · exact Env.direct_redirect _
      · have hd₂ := (Env.evaluate_adds (P := fun _ => True) (Q := fun _ => True) (fun _ _ => trivial) hv).direct.2 hd₁
        have hfind (i : Nat) : s.find i = e₂.store.find i := by
          rw [← Store.find_bindOrCheck e₂.store target.slot.cell v i, hs]
        exact fun slot hslot => (hfind slot.cell).trans (hd₂ slot hslot)
  | check f => exact hd
  | action f => exact hd
  | openScope arguments =>
      intro slot hslot
      obtain ⟨a, ha, rfl⟩ := Env.mem_slots_openScope.mp hslot
      exact hentry arguments rfl a ha
  | closeScope hclose =>
      obtain ⟨outer, rest, -, rfl⟩ := Env.closeScope_eq_ok.mp hclose
      exact Env.direct_redirect _

/-- What a call passes are representatives. -/
theorem call_direct {name : String} {slots : List Slot} (hb : e.Bounded) (hd : e.Direct)
    (h : (g.step e).Runs (.call name slots e')) : e'.Direct ∧ ∀ slot ∈ slots, e'.AtRoot slot := by
  obtain ⟨⟨arguments, rfl⟩, -⟩ := step_call hb h
  obtain ⟨p, hp, h⟩ := h.of_bind
  cases h.of_pure
  exact (Env.passAll_direct hd hp).2

end Goal

namespace Resolvent

/-- The innermost scope is direct, and so will be the one that is about to open. -/
structure Direct (r : Resolvent σ) : Prop where
  env : r.env.Direct
  entry : ∀ arguments, .openScope arguments ∈ r.agenda.toList → ∀ a ∈ arguments, r.env.AtRoot a.2

theorem direct_of_noEntry {e : Env} {a : Agenda σ} (he : e.Direct) (ha : NoEntry a.toList) :
    (⟨e, a⟩ : Resolvent σ).Direct :=
  ⟨he, fun arguments hmem => absurd rfl (ha _ hmem arguments)⟩

theorem Direct.goal {r : Resolvent σ} (hd : r.Direct) (hr : r.Shaped) {g : Goal σ} {rest : Agenda σ} {e : Env}
    (hnext : r.agenda.next? = some (g, rest)) (hstep : (g.step r.env).Runs (.next e)) :
    (⟨e, rest⟩ : Resolvent σ).Direct := by
  have hlist := Agenda.toList_of_next? hnext
  have hbalanced := hr.balanced
  rw [hlist] at hbalanced
  refine direct_of_noEntry (Goal.step_direct hd.env (fun arguments hg => hd.entry arguments ?_) hstep)
    hbalanced.noEntry
  rw [hlist, hg]
  exact List.mem_cons_self

theorem Direct.stops {r : Resolvent σ} (hd : r.Direct) (hr : r.Shaped) {stopped : Call σ} (h : r.StopsAt stopped) :
    stopped.env.Direct ∧ ∀ slot ∈ stopped.arguments, stopped.env.AtRoot slot := by
  obtain ⟨g, -, hstep⟩ := h
  exact Goal.call_direct hr.sound.bounded hd.env hstep

theorem Direct.call {r r' : Resolvent σ} (hd : r.Direct) (hr : r.Shaped) {stopped : Call σ} (h : r.StopsAt stopped)
    {callee : Clause σ} (hauth : callee.Authored) (hresume : (stopped.resume callee).Runs r') : r'.Direct := by
  obtain ⟨hdirect, hslots⟩ := hd.stops hr h
  obtain ⟨g, hnext, -⟩ := h
  have hbalanced := hr.balanced
  rw [Agenda.toList_of_next? hnext] at hbalanced
  obtain ⟨henv, body, hbody, hagenda⟩ := resume_runs hresume
  refine ⟨henv ▸ hdirect, fun arguments hmem a ha => ?_⟩
  rw [henv]
  rw [hagenda] at hmem
  rcases List.mem_cons.mp hmem with heq | hmem
  · cases heq
    exact hslots a.2 (List.of_mem_zip ha).2
  rcases List.mem_append.mp hmem with hmem | hmem
  · exact absurd (hauth _ body hbody _ hmem) id
  rcases List.mem_cons.mp hmem with heq | hmem
  · cases heq
  · exact absurd rfl (hbalanced.noEntry _ hmem arguments)

end Resolvent

/-- By induction on how the branch came about. A call that has passed representatives goes on in a copy of the same
environment, so they still are when its scope opens. -/
theorem Source.Reaches.direct {src : Source σ} (hsrc : src.Authored) {actuals : List Actual} {r : Resolvent σ}
    (h : src.Reaches actuals r) : r.Direct := by
  induction h with
  | query hc hmatch hruns =>
      obtain ⟨e, he, hrest⟩ := hruns.of_bind
      obtain ⟨body, hbody, hrest⟩ := hrest.of_bind
      cases hrest.of_pure
      have hdirect : e.Direct := Env.direct_ofQuery he.of_lift
      apply Resolvent.direct_of_noEntry
      · exact hdirect
      · rw [Agenda.toList_ofList]
        rintro g hg arguments rfl
        exact hsrc.of_offers hc _ body hbody _ hg
  | goal hr hnext hstep ih => exact ih.goal (hr.shaped hsrc) hnext hstep
  | call hr hstops hc hmatch hresume ih => exact ih.call (hr.shaped hsrc) hstops (hsrc.of_offers hc) hresume

end Clausal
