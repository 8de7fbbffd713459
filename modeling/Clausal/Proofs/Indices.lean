import Clausal.Proofs.Answers
import Clausal.Proofs.Edits
import Clausal.Proofs.History

/-! Indices. Cells, marks and slots refer to positions of the store, which grows and is cut back while a
branch runs. Main statement: wherever a branch stands, all positions that it refers to are there, so links
can be followed to their end and no scope leaves a dangling slot behind when it closes. -/
namespace Clausal

variable {σ : Type}

namespace Env

/-- Links lead to older cells or end. From the outside in, marks never fall, and the store has grown past all of
them. The slots of a scope lie below the mark of the next scope inwards, and the arguments of a nested scope
below its own. -/
structure Indexed (e : Env) : Prop where
  links : ∀ c < e.store.cells.size, e.store.parent c ≤ c
  marks : (e.store.cells.size :: e.scopes.map fun sc => sc.mark.cells).Pairwise (· ≥ ·)
  logs : (e.store.narrowings.length :: e.scopes.map fun sc => sc.mark.narrowings).Pairwise (· ≥ ·)
  innermost : ∀ slot ∈ e.scope.slots, slot.cell < e.store.cells.size
  outer : ∀ k sc inner, e.scopes[k]? = some inner → e.scopes[k + 1]? = some sc →
    ∀ slot ∈ sc.slots, slot.cell < inner.mark.cells
  passed : ∀ sc ∈ e.scopes.dropLast, ∀ slot ∈ sc.argumentSlots, slot.cell < sc.mark.cells

/-- From each cell links lead to the representative and no further, and never out of the store. All slots denote
cells. When the innermost scope closes, no cell that is left links to one that is not. -/
structure Navigable (e : Env) : Prop where
  ends : ∀ c < e.store.cells.size, (∃ n ≤ c, e.store.parent^[n] c = e.store.find c) ∧
    e.store.parent (e.store.find c) = e.store.find c ∧ ∀ n, e.store.parent^[n] c < e.store.cells.size
  denotes : ∀ sc ∈ e.scopes, ∀ slot ∈ sc.slots, slot.cell < e.store.cells.size
  closes : e.scope.mark.cells ≤ e.store.cells.size ∧
    ∀ c < e.scope.mark.cells, e.store.parent c < e.scope.mark.cells

end Env

/-- Following links for as many steps as there are older cells comes to the representative. -/
theorem Store.Regular.reaches {s : Store} (h : s.Regular) (c : Nat) :
    (∃ n ≤ c, s.parent^[n] c = s.find c) ∧ s.parent (s.find c) = s.find c := by
  induction c using Nat.strongRecOn with
  | ind c ih =>
      by_cases hlt : s.parent c < c
      · obtain ⟨⟨n, hn, hiter⟩, hend⟩ := ih _ hlt
        rw [find_of_link hlt]
        exact ⟨⟨n + 1, Nat.lt_of_le_of_lt hn hlt, hiter⟩, hend⟩
      · rw [find_of_root hlt]
        exact ⟨⟨0, Nat.zero_le c, rfl⟩, Nat.le_antisymm (h.parent_le c) (Nat.le_of_not_lt hlt)⟩

namespace Env

/-- Links lead to older cells, and the arguments of nested scopes were there when these opened. -/
structure Orderly (e : Env) : Prop where
  regular : e.store.Regular
  passed : ∀ sc ∈ e.scopes.dropLast, ∀ slot ∈ sc.argumentSlots, slot.cell < sc.mark.cells

theorem Orderly.indexed {e : Env} (h : e.Orderly) (hs : e.Sound) : e.Indexed where
  links := fun c _ => h.regular.parent_le c
  marks := hs.held.pairwise And.left
  logs := hs.held.pairwise And.right
  innermost := hs.bounded
  outer := fun _ _ _ hinner hsc => hs.held.next_lt hinner hsc
  passed := h.passed

theorem Orderly.navigable {e : Env} (h : e.Orderly) (hs : e.Sound) : e.Navigable where
  ends := fun c hc => by
    obtain ⟨hreaches, hend⟩ := h.regular.reaches c
    exact ⟨hreaches, hend, fun n => Nat.lt_of_le_of_lt (h.regular.iterate_le n c) hc⟩
  denotes := hs.held.slots_lt
  closes := ⟨hs.held.2.1, fun c hc => Nat.lt_of_le_of_lt (h.regular.parent_le c) hc⟩

theorem compressAll_history (s : Store) {slots : List Slot} (h : ∀ slot ∈ slots, slot.cell < s.cells.size) :
    s.History (slots.foldl (fun s slot => s.compress slot.cell) s) := by
  suffices hall : ∀ t, s.History t → t.cells.size = s.cells.size →
      s.History (slots.foldl (fun s slot => s.compress slot.cell) t) from hall s (.refl s) rfl
  induction slots with
  | nil => exact fun t ht _ => ht
  | cons slot rest ih =>
      intro t ht hsize
      have hcell : slot.cell < t.cells.size := by
        rw [hsize]
        exact h slot List.mem_cons_self
      refine ih (fun slot' h' => h slot' (List.mem_cons_of_mem slot h')) _ (.tail ht (.compressed hcell)) ?_
      rw [(Store.alike_compress t slot.cell).size_eq, hsize]

theorem Edit.history {e e' : Env} (h : e.Edit e') (hb : e.Bounded) : e.store.History e'.store := by
  cases h with
  | numbered => exact .refl e.store
  | allocated a => exact .tail (.refl _) (.allocatedFor _ a e.depth)
  | added a => exact .tail (.refl _) (.allocatedFor _ a e.depth)
  | @bound slot v s hslot hbind =>
      have hop := Store.Operation.checked v (hb slot hslot)
      rw [hbind] at hop
      exact .tail (.refl _) hop
  | @unified target source s ht hs hunify =>
      have hop := Store.Operation.unified (hb target ht) (hb source hs)
      rw [hunify] at hop
      exact .tail (.refl _) hop
  | redirected => exact compressAll_history e.store hb

/-- What an edit makes of an argument denotes the same cell or an older one. -/
theorem Edit.argument_le {e e' : Env} (h : e.Edit e') {slot : Slot} (hslot : slot ∈ e'.scope.argumentSlots) :
    ∃ old ∈ e.scope.argumentSlots, slot.cell ≤ old.cell := by
  cases h with
  | numbered => exact ⟨slot, hslot, Nat.le_refl _⟩
  | allocated a => exact ⟨slot, hslot, Nat.le_refl _⟩
  | added a => exact ⟨slot, hslot, Nat.le_refl _⟩
  | bound _ _ => exact ⟨slot, hslot, Nat.le_refl _⟩
  | unified _ _ _ => exact ⟨slot, hslot, Nat.le_refl _⟩
  | redirected =>
      obtain ⟨a, ha, rfl⟩ := List.mem_map.mp hslot
      obtain ⟨old, hold, rfl⟩ := List.mem_map.mp ha
      exact ⟨old.2, List.mem_map_of_mem hold, e.store.find_le old.2.cell⟩

theorem Edit.orderly {e e' : Env} (h : e.Edit e') (hb : e.Bounded) (ho : e.Orderly) : e'.Orderly where
  regular := ((h.history hb).logged_regular ho.regular).2
  passed := fun sc hsc slot hslot => by
    have hpassed := ho.passed
    rw [scopes] at hsc hpassed
    rw [h.enclosing_eq] at hsc
    cases henc : e.enclosing with
    | nil =>
        rw [henc] at hsc
        exact absurd hsc List.not_mem_nil
    | cons outer rest =>
        rw [henc, List.dropLast_cons_cons] at hsc hpassed
        rcases List.mem_cons.mp hsc with rfl | hsc
        · obtain ⟨old, hold, hle⟩ := h.argument_le hslot
          rw [h.mark_eq]
          exact Nat.lt_of_le_of_lt hle (hpassed _ List.mem_cons_self old hold)
        · exact hpassed sc (List.mem_cons_of_mem _ hsc) slot hslot

theorem Edits.orderly {e e' : Env} (h : e.Edits e') (hb : e.Bounded) (ho : e.Orderly) : e'.Orderly := by
  induction h with
  | refl => exact ho
  | tail hpre hedit ih => exact hedit.orderly ((Edits.inside hpre hb).bounded hb) ih

theorem Orderly.openScope {e : Env} (h : e.Orderly) {arguments : List (Formal × Slot)}
    (ha : ∀ a ∈ arguments, a.2.cell < e.store.cells.size) : (e.openScope arguments).Orderly where
  regular := h.regular
  passed := fun sc hsc slot hslot => by
    change sc ∈ (_ :: e.scope :: e.enclosing).dropLast at hsc
    rw [List.dropLast_cons_cons] at hsc
    rcases List.mem_cons.mp hsc with rfl | hsc
    · obtain ⟨a, hmem, rfl⟩ := List.mem_map.mp hslot
      exact ha a hmem
    · exact h.passed sc hsc slot hslot

theorem Orderly.closeScope {e e' : Env} (h : e.Orderly) (hs : e.Sound) (hclose : e.closeScope = .ok e') :
    e'.Orderly := by
  obtain ⟨outer, rest, henc, rfl⟩ := closeScope_eq_ok.mp hclose
  have hdropped : (e.dropScope outer rest).Orderly := by
    refine ⟨h.regular.closeScope e.depth hs.held.2.1, fun sc hsc => h.passed sc ?_⟩
    rw [scopes, henc, List.dropLast_cons_cons]
    exact List.mem_cons_of_mem _ hsc
  exact Edit.orderly (.redirected _) (hs.dropScope henc).bounded hdropped

theorem seat_history (actuals : List Actual) {placed : List Slot × Store} (h : Store.History .empty placed.2) :
    Store.History .empty (actuals.foldl seat placed).2 := by
  induction actuals generalizing placed with
  | nil => exact h
  | cons a rest ih =>
      apply ih
      unfold seat
      split
      · exact h
      · exact .tail h (.allocatedFor _ a 0)

end Env

namespace Resolvent

theorem Starts.orderly {actuals : List Actual} {c : Clause σ} {r : Resolvent σ} (h : Starts actuals c r) :
    r.env.Orderly := by
  obtain ⟨e, he, hr⟩ := h.2.2.of_bind
  obtain ⟨body, -, hr⟩ := hr.of_bind
  cases hr.of_pure
  have hok : Env.ofQuery c.formals actuals = .ok e := he.of_lift
  unfold Env.ofQuery at hok
  split at hok
  · cases hok
    refine ⟨((Env.seat_history actuals (.refl _)).logged_regular .empty).2, fun sc hsc => ?_⟩
    exact absurd hsc List.not_mem_nil
  · cases hok

theorem Step.orderly {r r' : Resolvent σ} (h : r.Step r') (hr : r.Shaped) (ho : r.env.Orderly) : r'.env.Orderly := by
  have hb := hr.sound.bounded
  cases h.move hb with
  | edits hedits _ => exact hedits.orderly hb ho
  | calls _ hedits _ _ => exact hedits.orderly hb ho
  | closes hclose _ => exact ho.closeScope hr.sound hclose
  | opens arguments hmem henv _ =>
      rw [henv]
      exact ho.openScope (hr.entry_lt hmem)

theorem Trail.orderly {r r' : Resolvent σ} (h : r.Trail r') (hr : r.Shaped) (ho : r.env.Orderly) :
    r'.env.Orderly := by
  induction h with
  | refl => exact ho
  | tail hpre hstep ih => exact hstep.orderly (Trail.shaped hpre hr) ih

/-- Wherever a branch stands, between its goals, inside one, at the start of a callee's clause or at a call, all
positions are valid: links lead to older cells and end at the representative, marks are in order, and slots,
arguments and what a scope is going to be opened with denote cells. -/
theorem positions_valid {actuals : List Actual} {c : Clause σ} {r₀ r : Resolvent σ} (hstart : Starts actuals c r₀)
    (htrail : r₀.Trail r) :
    (∀ e, r.env.Edits e → e.Indexed ∧ e.Navigable) ∧
    (∀ stopped : Call σ, r.StopsAt stopped → stopped.env.Indexed ∧ stopped.env.Navigable ∧
      ∀ slot ∈ stopped.arguments, slot.cell < stopped.env.store.cells.size) ∧
    ∀ arguments, .openScope arguments ∈ r.agenda.toList → ∀ a ∈ arguments, a.2.cell < r.env.store.cells.size := by
  have hr := htrail.shaped hstart.shaped
  have hb := hr.sound.bounded
  have ho := htrail.orderly hstart.shaped hstart.orderly
  have hedited {e : Env} (h : r.env.Edits e) : e.Indexed ∧ e.Navigable := by
    have hsound := (h.inside hb).sound hr.sound
    have horderly := h.orderly hb ho
    exact ⟨horderly.indexed hsound, horderly.navigable hsound⟩
  refine ⟨fun e h => hedited h, fun stopped hstops => ?_, fun arguments hmem => hr.entry_lt hmem⟩
  obtain ⟨g, -, hcall⟩ := hstops
  obtain ⟨-, -, hslots⟩ := Goal.step_call hb hcall
  obtain ⟨hindexed, hnavigable⟩ := hedited (Goal.step_passes hb hcall).1
  exact ⟨hindexed, hnavigable, hslots⟩

/-- A clause that calls itself with its arguments the other way round. -/
def turning : Clause Unit where
  name := "turn"
  formals := [⟨0, "left", .any⟩, ⟨1, "right", .any⟩]
  body := .fixed [.call "turn" [.param (.formal ⟨1, "right", .any⟩), .param (.formal ⟨0, "left", .any⟩)]]
  name_ne := by decide
  distinct := by decide

def turned : List Actual := [.output (.shared 0) none .any none, .literal (.shared 1) (.int 5) none]

/-- The clause calls itself from inside itself, and all positions are valid in the second scope and at the call
made there. -/
theorem turning_positions : ∃ (r₀ r : Resolvent Unit) (stopped : Call Unit), Starts turned turning r₀ ∧
    r₀.Trail r ∧ r.StopsAt stopped ∧ r.env.depth = 1 ∧ r.env.Indexed ∧ stopped.arguments.length = 2 ∧
      ∀ slot ∈ stopped.arguments, slot.cell < stopped.env.store.cells.size := by
  have hauth : turning.Authored := Clause.authored_of_fixed rfl (by simp [Goal.Authored])
  have hentered : ∃ (r₀ r : Resolvent Unit) (stopped : Call Unit), Starts turned turning r₀ ∧ r₀.Trail r ∧
      r.StopsAt stopped ∧ r.env.depth = 1 ∧ stopped.arguments.length = 2 :=
    ⟨_, _, ⟨_, _, _, _⟩, ⟨hauth, by decide, World.start (), _, rfl⟩,
      .tail (.tail .refl (.call rfl ⟨World.start (), _, rfl⟩ hauth (by decide) ⟨World.start (), _, rfl⟩))
        (.goal rfl ⟨World.start (), _, rfl⟩), ⟨_, rfl, World.start (), _, rfl⟩, rfl, rfl⟩
  obtain ⟨r₀, r, stopped, hstart, htrail, hstops, hdepth, hlength⟩ := hentered
  obtain ⟨hedits, hcalls, -⟩ := positions_valid hstart htrail
  obtain ⟨-, -, hslots⟩ := hcalls stopped hstops
  exact ⟨r₀, r, stopped, hstart, htrail, hstops, hdepth, (hedits _ .refl).1, hlength, hslots⟩

end Resolvent
end Clausal
