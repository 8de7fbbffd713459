import Clausal.Proofs.Indices
import Clausal.Proofs.Sessions

/-! Frames of a query. From the environment of a query come others, by operations on the store, which may be refused, by
new locals and by scopes that open and close. Main statements: in all of them the query's arguments stand in call order
and arguments of one identity denote one variable; and all that the branches of a query come to is such a frame. -/
namespace Clausal

variable {σ : Type}

namespace Store

variable {s t : Store}

theorem Logged.narrowings_le (h : s.Logged t) : s.narrowings.length ≤ t.narrowings.length := by
  obtain ⟨recent, hlog, -⟩ := h.log
  rw [hlog, List.length_append]
  exact Nat.le_add_left _ _

/-- An operation never takes a class apart. -/
theorem Operation.together (h : Operation s t) {i j : Nat} (hij : s.find i = s.find j) : t.find i = t.find j := by
  cases h with
  | allocated ty => rw [find_allocate, find_allocate, hij]
  | allocatedFor a depth => rw [find_allocateFor, find_allocateFor, hij]
  | @aliased c a depth hc => rw [(alike_addAlias s c a depth).find_eq, (alike_addAlias s c a depth).find_eq, hij]
  | @compressed c hc => rw [(alike_compress s c).find_eq, (alike_compress s c).find_eq, hij]
  | bound v hc => rw [find_bindValue, find_bindValue, hij]
  | checked v hc => rw [find_bindOrCheck, find_bindOrCheck, hij]
  | @unified a b ha hb =>
      rcases unify_cases ha hb with h | ⟨older, younger, ty, value, aliases, hlt, hsize, hro, hry, -, -, h⟩
      · rw [h, hij]
      · rw [h, find_link hlt hsize hro hry, find_link hlt hsize hro hry, hij]

end Store

namespace Env

variable {formals : List Formal} {actuals : List Actual} {e e' : Env}

/-- What may come of a query. -/
inductive Arises (formals : List Formal) (actuals : List Actual) : Env → Prop where
  | query {e : Env} : ofQuery formals actuals = .ok e → Arises formals actuals e
  | stored {e : Env} {t : Store} : Arises formals actuals e → Store.Operation e.store t →
      Arises formals actuals { e with store := t }
  | numbered {e : Env} : Arises formals actuals e → Arises formals actuals e.nextSerial.2
  | added {e : Env} (a : Actual) : Arises formals actuals e → Arises formals actuals (e.addLocal a).2
  | redirected {e : Env} : Arises formals actuals e → Arises formals actuals e.redirect
  | opened {e : Env} {arguments : List (Formal × Slot)} : Arises formals actuals e →
      (∀ a ∈ arguments, a.2.cell < e.store.cells.size) → Arises formals actuals (e.openScope arguments)
  | closed {e e' : Env} : Arises formals actuals e → e.closeScope = .ok e' → Arises formals actuals e'

/-- The query's arguments are the actuals, and those of one identity denote one variable. -/
structure Represents (e : Env) (actuals : List Actual) : Prop where
  regular : e.store.Regular
  held : Held e.store.mark e.scopes
  parameters : e.queryArguments.map Slot.parameter = actuals
  together : ∀ a ∈ e.queryArguments, ∀ b ∈ e.queryArguments, a.parameter.id = b.parameter.id →
    e.store.find a.cell = e.store.find b.cell

theorem outermost_of_enclosing {outer : Scope} {rest : List Scope} (h : e.enclosing = outer :: rest) :
    e.outermost = rest.getLast?.getD outer := by
  rw [outermost, h, List.getLast?_cons]
  rfl

theorem queryArguments_addLocal (e : Env) (a : Actual) : (e.addLocal a).2.queryArguments = e.queryArguments := by
  unfold queryArguments outermost addLocal
  cases e.enclosing.getLast? <;> rfl

theorem queryArguments_openScope (e : Env) (arguments : List (Formal × Slot)) :
    (e.openScope arguments).queryArguments = e.queryArguments :=
  congrArg Scope.argumentSlots (outermost_of_enclosing (e := e.openScope arguments) rfl)

theorem queryArguments_dropScope {outer : Scope} {rest : List Scope} (h : e.enclosing = outer :: rest) :
    (e.dropScope outer rest).queryArguments = e.queryArguments :=
  congrArg Scope.argumentSlots (outermost_of_enclosing h).symm

theorem queryArguments_redirect (e : Env) : ∃ g, e.redirect.queryArguments = e.queryArguments.map (Slot.move g) ∧
    ∀ c, e.store.find (g c) = e.store.find c := by
  cases henc : e.enclosing with
  | nil =>
      refine ⟨e.store.find, ?_, e.store.find_find⟩
      have houter : e.outermost = e.scope := by rw [outermost, henc]; rfl
      have houter' : e.redirect.outermost = e.redirect.scope := by
        rw [outermost, show e.redirect.enclosing = [] from henc]
        rfl
      rw [queryArguments, queryArguments, houter, houter']
      simp [redirect, Scope.argumentSlots, Slot.move]
  | cons outer rest =>
      refine ⟨id, ?_, fun c => rfl⟩
      have houter : e.redirect.outermost = e.outermost :=
        (outermost_of_enclosing (e := e.redirect) henc).trans (outermost_of_enclosing henc).symm
      rw [queryArguments, houter]
      exact (List.map_id' _).symm

theorem ofQuery_regular (h : ofQuery formals actuals = .ok e) : e.store.Regular := by
  unfold ofQuery at h
  split at h
  · cases h
    exact ((seat_history actuals (.refl _)).logged_regular .empty).2
  · cases h

theorem Represents.query (h : ofQuery formals actuals = .ok e) : e.Represents actuals := by
  obtain ⟨slots, s, hseated, hpaired, hlen, rfl⟩ := ofQuery_seats h
  have hslots : (⟨s, ⟨formals.zip slots, [], ⟨0, 0⟩⟩, [], 0⟩ : Env).queryArguments = slots := hseated.map_snd_zip hlen
  refine ⟨ofQuery_regular h, (ofQuery_sound h).held, ?_, fun a ha b hb hid => ?_⟩
  · rw [hslots]
    exact hseated.parameters
  · rw [hslots] at ha hb
    exact congrArg s.find ((hpaired a ha b hb).mp hid)

theorem Represents.redirect (h : e.Represents actuals) : e.redirect.Represents actuals := by
  obtain ⟨g, hslots, hg⟩ := queryArguments_redirect e
  have hhistory := compressAll_history e.store h.held.1
  refine ⟨(hhistory.logged_regular h.regular).2, (Inside.redirect e).held h.held, ?_, ?_⟩
  · rw [hslots, List.map_map]
    exact h.parameters
  · rw [hslots]
    intro a ha b hb hid
    obtain ⟨a', ha', rfl⟩ := List.mem_map.mp ha
    obtain ⟨b', hb', rfl⟩ := List.mem_map.mp hb
    rw [(alike_redirect e).find_eq, (alike_redirect e).find_eq]
    exact (hg _).trans ((h.together a' ha' b' hb' hid).trans (hg _).symm)

theorem Represents.closeScope (h : e.Represents actuals) (hclose : e.closeScope = .ok e') : e'.Represents actuals := by
  obtain ⟨outer, rest, henc, rfl⟩ := closeScope_eq_ok.mp hclose
  have hmarks := h.held
  obtain ⟨-, hcells, -, houter⟩ := hmarks
  have hlt : ∀ slot ∈ e.queryArguments, slot.cell < e.scope.mark.cells := by
    intro slot hslot
    have hmem : e.outermost ∈ e.enclosing := by
      rw [outermost_of_enclosing henc, henc]
      cases hlast : rest.getLast? with
      | none => exact List.mem_cons_self
      | some sc => exact List.mem_cons_of_mem _ (List.mem_of_getLast? hlast)
    exact houter.slots_lt e.outermost hmem slot (List.mem_append_left _ hslot)
  have hdropped : (e.dropScope outer rest).Represents actuals := by
    refine ⟨h.regular.closeScope e.depth hcells, held_dropScope h.held henc, ?_, ?_⟩
    · rw [queryArguments_dropScope henc]
      exact h.parameters
    · rw [queryArguments_dropScope henc]
      intro a ha b hb hid
      have hfind (slot : Slot) (hslot : slot ∈ e.queryArguments) :
          (e.dropScope outer rest).store.find slot.cell = e.store.find slot.cell :=
        Store.find_closeScope h.regular.wide e.depth (hlt slot hslot)
      rw [hfind a ha, hfind b hb]
      exact h.together a ha b hb hid
  exact hdropped.redirect

theorem Arises.represents (h : Arises formals actuals e) : e.Represents actuals := by
  induction h with
  | query hok => exact .query hok
  | @stored e t _ hop ih =>
      have hlogged := hop.logged
      exact ⟨hop.regular ih.regular, Held.grow ih.held hlogged.size_le hlogged.narrowings_le, ih.parameters,
        fun a ha b hb hid => hop.together (ih.together a ha b hb hid)⟩
  | numbered _ ih => exact ⟨ih.regular, ih.held, ih.parameters, ih.together⟩
  | @added e a _ ih =>
      have hop : Store.Operation e.store (e.addLocal a).2.store := .allocatedFor e.store a e.depth
      refine ⟨hop.regular ih.regular, (Inside.addLocal e a).held ih.held, ?_, ?_⟩
      · rw [queryArguments_addLocal]
        exact ih.parameters
      · rw [queryArguments_addLocal]
        exact fun x hx y hy hid => hop.together (ih.together x hx y hy hid)
  | redirected _ ih => exact ih.redirect
  | @opened e arguments _ harguments ih =>
      refine ⟨ih.regular, held_openScope ih.held harguments, ?_, ?_⟩
      · rw [queryArguments_openScope]
        exact ih.parameters
      · rw [queryArguments_openScope]
        exact ih.together
  | closed _ hclose ih => exact ih.closeScope hclose

theorem Edit.arises (h : e.Edit e') (hb : e.Bounded) (he : Arises formals actuals e) : Arises formals actuals e' := by
  cases h with
  | numbered => exact .numbered he
  | allocated a => exact .stored he (.allocatedFor _ a e.depth)
  | added a => exact .added a he
  | @bound slot v s hslot hbind =>
      have hop := Store.Operation.checked v (hb slot hslot)
      rw [hbind] at hop
      exact .stored he hop
  | @unified target source s ht hs hunify =>
      have hop := Store.Operation.unified (hb target ht) (hb source hs)
      rw [hunify] at hop
      exact .stored he hop
  | redirected => exact .redirected he

theorem Edits.arises (h : e.Edits e') (hb : e.Bounded) (he : Arises formals actuals e) : Arises formals actuals e' := by
  induction h with
  | refl => exact he
  | tail hpre hedit ih => exact hedit.arises ((Edits.inside hpre hb).bounded hb) ih

end Env

namespace Resolvent

variable {actuals : List Actual}

theorem Step.arises {r r' : Resolvent σ} (h : r.Step r') (hr : r.Shaped) {formals : List Formal}
    (he : Env.Arises formals actuals r.env) : Env.Arises formals actuals r'.env := by
  have hb := hr.sound.bounded
  cases h.move hb with
  | edits hedits _ => exact hedits.arises hb he
  | calls _ hedits _ _ => exact hedits.arises hb he
  | closes hclose _ => exact .closed he hclose
  | opens arguments hmem henv _ =>
      rw [henv]
      exact .opened he (hr.entry_lt hmem)

theorem Starts.arises {c : Clause σ} {r : Resolvent σ} (h : Starts actuals c r) : Env.Arises c.formals actuals r.env := by
  obtain ⟨e, he, hr⟩ := h.2.2.of_bind
  obtain ⟨body, -, hr⟩ := hr.of_bind
  cases hr.of_pure
  exact .numbered (.query he.of_lift)

theorem Trail.arises {r r' : Resolvent σ} (h : r.Trail r') (hr : r.Shaped) {formals : List Formal}
    (he : Env.Arises formals actuals r.env) : Env.Arises formals actuals r'.env := by
  induction h with
  | refl => exact he
  | tail hpre hstep ih => exact hstep.arises (Trail.shaped hpre hr) ih

end Resolvent

/-- Whatever the branches of a query come to arises from it. -/
theorem Source.Reaches.arises {src : Source σ} (hsrc : src.Authored) {actuals : List Actual} {r : Resolvent σ}
    (h : src.Reaches actuals r) : ∃ formals, Env.Arises formals actuals r.env := by
  obtain ⟨c, r₀, hstart, htrail⟩ := h.trail hsrc
  exact ⟨c.formals, htrail.arises hstart.shaped hstart.arises⟩

end Clausal
