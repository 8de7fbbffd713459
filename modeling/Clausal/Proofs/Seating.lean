import Clausal.Proofs.Scopes

/-! How a query is seated. Each actual gets a slot, and each identity one cell of its own. Main
statements: the cells hold what the actuals brought along, and the environment of a query is sound. -/
namespace Clausal.Env

variable {actuals : List Actual} {slots : List Slot} {s : Store}

/-- Slots for some actuals. Every cell stands for the first actual of an identity. -/
structure Seated (actuals : List Actual) (slots : List Slot) (s : Store) : Prop where
  parameters : slots.map Slot.parameter = actuals
  bounded : ∀ slot ∈ slots, slot.cell < s.cells.size
  unnarrowed : s.narrowings = []
  roots : ∀ c, s.find c = c
  backed : ∀ c < s.cells.size, ∃ slot ∈ slots, slot.cell = c ∧
    s.own c = slot.parameter.ty ∧ s.held c = slot.parameter.value
  shared : ∀ slot ∈ slots, ∃ first ∈ slots, first.parameter.id = slot.parameter.id ∧
    first.cell = slot.cell ∧ s.own slot.cell = first.parameter.ty ∧ s.held slot.cell = first.parameter.value

theorem seated_nil : Seated [] [] .empty where
  parameters := rfl
  bounded := fun _ h => absurd h List.not_mem_nil
  unnarrowed := rfl
  roots := fun c => Store.find_of_root (Nat.lt_irrefl c)
  backed := fun _ h => absurd h (Nat.not_lt_zero _)
  shared := fun _ h => absurd h List.not_mem_nil

/-- An actual of an identity that is seated already shares its cell. -/
theorem Seated.again (h : Seated actuals slots s) {old : Slot} (hold : old ∈ slots) {a : Actual}
    (hid : old.parameter.id = a.id) : Seated (actuals ++ [a]) (slots ++ [⟨a, old.cell⟩]) s := by
  constructor
  case parameters =>
    rw [List.map_append, h.parameters]
    rfl
  case bounded =>
    intro slot hs
    rcases List.mem_append.mp hs with hs | hs
    · exact h.bounded slot hs
    · obtain rfl := List.mem_singleton.mp hs
      exact h.bounded old hold
  case unnarrowed => exact h.unnarrowed
  case roots => exact h.roots
  case backed =>
    intro c hc
    obtain ⟨slot, hs, hrest⟩ := h.backed c hc
    exact ⟨slot, List.mem_append_left _ hs, hrest⟩
  case shared =>
    intro slot hs
    rcases List.mem_append.mp hs with hs | hs
    · obtain ⟨first, hfirst, hrest⟩ := h.shared slot hs
      exact ⟨first, List.mem_append_left _ hfirst, hrest⟩
    · obtain rfl := List.mem_singleton.mp hs
      obtain ⟨first, hfirst, hfid, hrest⟩ := h.shared old hold
      exact ⟨first, List.mem_append_left _ hfirst, hfid.trans hid, hrest⟩

/-- An actual of a new identity gets a cell of its own. -/
theorem Seated.fresh (h : Seated actuals slots s) (a : Actual) :
    Seated (actuals ++ [a]) (slots ++ [⟨a, s.cells.size⟩]) (s.allocateFor a 0).2 := by
  have hsize : (s.allocateFor a 0).2.cells.size = s.cells.size + 1 := Store.size_allocateFor a 0
  have hold : ∀ {c}, c < s.cells.size → (s.allocateFor a 0).2.own c = s.own c ∧
      (s.allocateFor a 0).2.held c = s.held c := by
    intro c hc
    rw [Store.own_allocateFor, Store.held_allocateFor, if_neg (Nat.ne_of_lt hc), if_neg (Nat.ne_of_lt hc)]
    exact ⟨rfl, rfl⟩
  have hnew : (s.allocateFor a 0).2.own s.cells.size = a.ty ∧
      (s.allocateFor a 0).2.held s.cells.size = a.value := by
    rw [Store.own_allocateFor, Store.held_allocateFor, if_pos rfl, if_pos rfl]
    exact ⟨rfl, rfl⟩
  constructor
  case parameters =>
    rw [List.map_append, h.parameters]
    rfl
  case bounded =>
    intro slot hs
    rw [hsize]
    rcases List.mem_append.mp hs with hs | hs
    · exact Nat.lt_succ_of_lt (h.bounded slot hs)
    · obtain rfl := List.mem_singleton.mp hs
      exact Nat.lt_succ_self _
  case unnarrowed => exact h.unnarrowed
  case roots => exact fun c => (Store.find_allocateFor a 0 c).trans (h.roots c)
  case backed =>
    intro c hc
    rw [hsize] at hc
    rcases Nat.lt_succ_iff_lt_or_eq.mp hc with hc | rfl
    · obtain ⟨slot, hs, hcell, hown, hheld⟩ := h.backed c hc
      refine ⟨slot, List.mem_append_left _ hs, hcell, ?_, ?_⟩
      · rw [(hold hc).1, hown]
      · rw [(hold hc).2, hheld]
    · exact ⟨⟨a, s.cells.size⟩, List.mem_append_right _ (List.mem_singleton_self _), rfl, hnew⟩
  case shared =>
    intro slot hs
    rcases List.mem_append.mp hs with hs | hs
    · obtain ⟨first, hfirst, hid, hcell, hown, hheld⟩ := h.shared slot hs
      refine ⟨first, List.mem_append_left _ hfirst, hid, hcell, ?_, ?_⟩
      · rw [(hold (h.bounded slot hs)).1, hown]
      · rw [(hold (h.bounded slot hs)).2, hheld]
    · obtain rfl := List.mem_singleton.mp hs
      exact ⟨_, List.mem_append_right _ (List.mem_singleton_self _), rfl, rfl, hnew⟩

theorem Seated.seat (h : Seated actuals slots s) (a : Actual) :
    Seated (actuals ++ [a]) (Env.seat (slots, s) a).1 (Env.seat (slots, s) a).2 := by
  unfold Env.seat
  cases hf : slots.find? fun slot => slot.parameter.id = a.id with
  | some old =>
      have hid : old.parameter.id = a.id := by simpa using List.find?_some hf
      exact h.again (List.mem_of_find?_eq_some hf) hid
  | none => exact h.fresh a

theorem seated_foldl (h : Seated actuals slots s) (more : List Actual) :
    Seated (actuals ++ more) (more.foldl Env.seat (slots, s)).1 (more.foldl Env.seat (slots, s)).2 := by
  induction more generalizing actuals slots s with
  | nil =>
      rw [List.append_nil]
      exact h
  | cons a rest ih =>
      rw [List.foldl_cons, List.append_cons]
      exact ih (h.seat a)

/-- Each identity has a cell, and each cell an identity. -/
def Paired (slots : List Slot) : Prop :=
  ∀ x ∈ slots, ∀ y ∈ slots, x.parameter.id = y.parameter.id ↔ x.cell = y.cell

theorem Paired.append (h : Paired slots) {new : Slot}
    (hnew : ∀ x ∈ slots, x.parameter.id = new.parameter.id ↔ x.cell = new.cell) : Paired (slots ++ [new]) := by
  intro x hx y hy
  rcases List.mem_append.mp hx with hx' | hx'
  · rcases List.mem_append.mp hy with hy' | hy'
    · exact h x hx' y hy'
    · rw [List.mem_singleton.mp hy']
      exact hnew x hx'
  · rw [List.mem_singleton.mp hx']
    rcases List.mem_append.mp hy with hy' | hy'
    · rw [eq_comm, hnew y hy']
      exact eq_comm
    · rw [List.mem_singleton.mp hy']
      exact ⟨fun _ => rfl, fun _ => rfl⟩

theorem Seated.paired (hs : Seated actuals slots s) (h : Paired slots) (a : Actual) :
    Paired (Env.seat (slots, s) a).1 := by
  unfold Env.seat
  cases hf : slots.find? fun slot => slot.parameter.id = a.id with
  | some old =>
      have hold := List.mem_of_find?_eq_some hf
      have hid : old.parameter.id = a.id := by simpa using List.find?_some hf
      apply h.append
      intro x hx
      change x.parameter.id = a.id ↔ x.cell = old.cell
      rw [← hid]
      exact h x hx old hold
  | none =>
      apply h.append
      intro x hx
      constructor
      · intro hid
        exact absurd (decide_eq_true hid) (List.find?_eq_none.mp hf x hx)
      · intro hcell
        exact absurd hcell (Nat.ne_of_lt (hs.bounded x hx))

theorem seated_paired (hs : Seated actuals slots s) (h : Paired slots) (more : List Actual) :
    Paired (more.foldl Env.seat (slots, s)).1 := by
  induction more generalizing actuals slots s with
  | nil => exact h
  | cons a rest ih =>
      rw [List.foldl_cons]
      exact ih (hs.seat a) (hs.paired h a)

theorem Seated.value_eq (h : Seated actuals slots s) (c : Nat) : s.value c = s.held c := by
  rw [Store.value_eq, h.roots]

theorem Seated.ty_eq (h : Seated actuals slots s) (c : Nat) : s.ty c = s.own c := by
  rw [Store.ty_eq, h.roots]

theorem Seated.valid (h : Seated actuals slots s) : s.Valid where
  fits := by
    intro c v hv
    by_cases hc : c < s.cells.size
    · obtain ⟨slot, -, -, hown, hheld⟩ := h.backed c hc
      rw [hheld] at hv
      rw [hown]
      exact slot.parameter.fits v hv
    · rw [Store.held, Array.getElem?_eq_none (Nat.le_of_not_lt hc)] at hv
      cases hv
  wide := by
    rw [h.unnarrowed]
    exact fun _ h => absurd h List.not_mem_nil

/-- The environment of a query has its actuals seated, an identity to a cell, and paired with the formals. -/
theorem ofQuery_seats {formals : List Formal} {e : Env} (h : ofQuery formals actuals = .ok e) :
    ∃ slots s, Seated actuals slots s ∧ Paired slots ∧ formals.length = actuals.length ∧
      e = ⟨s, ⟨formals.zip slots, [], ⟨0, 0⟩⟩, [], 0⟩ := by
  unfold ofQuery at h
  by_cases hlen : formals.length = actuals.length
  · rw [if_pos hlen] at h
    cases h
    have hs := seated_foldl seated_nil actuals
    rw [List.nil_append] at hs
    exact ⟨_, _, hs, seated_paired seated_nil (fun _ h => absurd h List.not_mem_nil) actuals, hlen, rfl⟩
  · rw [if_neg hlen] at h
    cases h

theorem ofQuery_ok {formals : List Formal} {e : Env} (h : ofQuery formals actuals = .ok e) :
    ∃ slots, Seated actuals slots e.store ∧ formals.length = actuals.length ∧
      e.scope = ⟨formals.zip slots, [], ⟨0, 0⟩⟩ ∧ e.enclosing = [] := by
  obtain ⟨slots, s, hs, -, hlen, rfl⟩ := ofQuery_seats h
  exact ⟨slots, hs, hlen, rfl, rfl⟩

theorem Seated.map_snd_zip (h : Seated actuals slots s) {formals : List Formal}
    (hlen : formals.length = actuals.length) : (formals.zip slots).map Prod.snd = slots :=
  List.map_snd_zip (Nat.le_of_eq (by rw [hlen, ← h.parameters, List.length_map]))

theorem ofQuery_sound {formals : List Formal} {e : Env} (h : ofQuery formals actuals = .ok e) : e.Sound := by
  obtain ⟨slots, hs, -, hscope, henc⟩ := ofQuery_ok h
  refine ⟨hs.valid, ?_⟩
  rw [hscope, henc]
  refine ⟨fun slot hslot => ?_, Nat.zero_le _, Nat.zero_le _, trivial⟩
  have hmem : slot ∈ (formals.zip slots).map Prod.snd := by
    simpa [Scope.slots, Scope.argumentSlots] using hslot
  obtain ⟨a, ha, rfl⟩ := List.mem_map.mp hmem
  exact hs.bounded a.2 (List.of_mem_zip ha).2

end Clausal.Env
