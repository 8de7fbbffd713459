import Clausal.Proofs.Unification
import Clausal.Proofs.Rollback

/-! Scopes over a store. An environment is sound when its values fit their types and every scope's
slots lie below the mark of the scope inside it. Main statements: what may change while a scope is the
innermost one, what an operation on an environment may change, and that soundness is kept. -/
namespace Clausal

/-- The slot with its cell replaced by one that stands for the same variable. -/
def Slot.move (g : Nat → Nat) (slot : Slot) : Slot := { slot with cell := g slot.cell }

def moveAll (g : Nat → Nat) (arguments : List (Formal × Slot)) : List (Formal × Slot) :=
  arguments.map fun a => (a.1, a.2.move g)

@[simp] theorem moveAll_id (arguments : List (Formal × Slot)) : moveAll id arguments = arguments :=
  List.map_id' arguments

theorem moveAll_moveAll (g g' : Nat → Nat) (arguments : List (Formal × Slot)) :
    moveAll g' (moveAll g arguments) = moveAll (g' ∘ g) arguments := by
  rw [moveAll, moveAll, List.map_map]
  rfl

/-- The slots of scopes, from the inside out, lie below the mark of the next scope inwards, and marks
only fall from there on. -/
def Held : Mark → List Scope → Prop
  | _, [] => True
  | m, sc :: outer =>
    (∀ slot ∈ sc.slots, slot.cell < m.cells) ∧ sc.mark.cells ≤ m.cells ∧
      sc.mark.narrowings ≤ m.narrowings ∧ Held sc.mark outer

section Held

variable {m : Mark} {scopes : List Scope}

theorem Held.mark_le (h : Held m scopes) :
    ∀ sc ∈ scopes, sc.mark.cells ≤ m.cells ∧ sc.mark.narrowings ≤ m.narrowings := by
  induction scopes generalizing m with
  | nil => exact fun _ h => absurd h List.not_mem_nil
  | cons sc outer ih =>
      obtain ⟨-, hcells, hnarrowings, houter⟩ := h
      intro sc' hsc'
      rcases List.mem_cons.mp hsc' with rfl | hsc'
      · exact ⟨hcells, hnarrowings⟩
      · obtain ⟨hcells', hnarrowings'⟩ := ih houter sc' hsc'
        exact ⟨Nat.le_trans hcells' hcells, Nat.le_trans hnarrowings' hnarrowings⟩

/-- A store that has grown holds the same scopes. -/
theorem Held.grow (h : Held m scopes) {m' : Mark} (hcells : m.cells ≤ m'.cells)
    (hnarrowings : m.narrowings ≤ m'.narrowings) : Held m' scopes := by
  cases scopes with
  | nil => trivial
  | cons sc outer =>
      obtain ⟨hslots, hc, hn, houter⟩ := h
      exact ⟨fun slot hslot => Nat.lt_of_lt_of_le (hslots slot hslot) hcells, Nat.le_trans hc hcells,
        Nat.le_trans hn hnarrowings, houter⟩

theorem Held.pairwise (h : Held m scopes) {f : Mark → Nat}
    (hf : ∀ {m m' : Mark}, m.cells ≤ m'.cells ∧ m.narrowings ≤ m'.narrowings → f m ≤ f m') :
    (f m :: scopes.map fun sc => f sc.mark).Pairwise (· ≥ ·) := by
  induction scopes generalizing m with
  | nil => exact List.pairwise_singleton _ _
  | cons sc outer ih =>
      refine .cons ?_ (ih h.2.2.2)
      intro n hn
      obtain ⟨sc', hsc', rfl⟩ := List.mem_map.mp hn
      exact hf (h.mark_le sc' hsc')

theorem Held.slots_lt (h : Held m scopes) : ∀ sc ∈ scopes, ∀ slot ∈ sc.slots, slot.cell < m.cells := by
  induction scopes generalizing m with
  | nil => exact fun _ h => absurd h List.not_mem_nil
  | cons sc outer ih =>
      obtain ⟨hslots, hcells, -, houter⟩ := h
      intro sc' hsc' slot hslot
      rcases List.mem_cons.mp hsc' with rfl | hsc'
      · exact hslots slot hslot
      · exact Nat.lt_of_lt_of_le (ih houter sc' hsc' slot hslot) hcells

theorem Held.next_lt (h : Held m scopes) {k : Nat} {sc inner : Scope} (hinner : scopes[k]? = some inner)
    (hsc : scopes[k + 1]? = some sc) : ∀ slot ∈ sc.slots, slot.cell < inner.mark.cells := by
  induction scopes generalizing m k with
  | nil => cases hinner
  | cons first outer ih =>
      cases k with
      | succ k => exact ih h.2.2.2 hinner hsc
      | zero =>
          cases hinner
          cases outer with
          | nil => cases hsc
          | cons second rest =>
              cases hsc
              exact h.2.2.2.1

end Held

namespace Env

def scopes (e : Env) : List Scope := e.scope :: e.enclosing

def Bounded (e : Env) : Prop := ∀ slot ∈ e.scope.slots, slot.cell < e.store.cells.size

structure Sound (e : Env) : Prop where
  valid : e.store.Valid
  held : Held e.store.mark (e.scope :: e.enclosing)

theorem Sound.bounded {e : Env} (h : e.Sound) : e.Bounded := h.held.1

theorem alike_redirect (e : Env) : e.store.Alike e.redirect.store := Store.alike_compressAll e.store e.scope.slots

@[simp]
theorem slots_redirect (e : Env) : e.redirect.scope.slots = e.scope.slots.map fun slot => slot.move e.store.find := by
  simp [Env.redirect, Scope.slots, Scope.argumentSlots, Slot.move]

@[simp] theorem mem_slots_openScope {e : Env} {arguments : List (Formal × Slot)} {slot : Slot} :
    slot ∈ (e.openScope arguments).scope.slots ↔ ∃ a ∈ arguments, a.2 = slot := by
  simp [openScope, Scope.slots, Scope.argumentSlots]

@[simp] theorem mem_slots_addLocal {e : Env} {a : Actual} {slot : Slot} :
    slot ∈ (e.addLocal a).2.scope.slots ↔ slot ∈ e.scope.slots ∨ slot = ⟨a, e.store.cells.size⟩ := by
  simp [addLocal, Store.allocateFor, Scope.slots, Scope.argumentSlots, or_assoc]

/-- What may change while the scope is the innermost one. The store grows, the arguments go on to
denote the same variables, and nothing outside the scope is touched. -/
structure Inside (e e' : Env) : Prop where
  grows : e.store.Grows e'.store
  valid : e.store.Valid → e'.store.Valid
  enclosing_eq : e'.enclosing = e.enclosing
  mark_eq : e'.scope.mark = e.scope.mark
  moved : ∃ g, e'.scope.arguments = moveAll g e.scope.arguments ∧
    ∀ c < e.store.cells.size, g c ≤ c ∧ e'.store.find (g c) = e'.store.find c
  bounded : e.Bounded → e'.Bounded

namespace Inside

theorem refl (e : Env) : e.Inside e where
  grows := .refl e.store
  valid := id
  enclosing_eq := rfl
  mark_eq := rfl
  moved := ⟨id, (moveAll_id _).symm, fun c _ => ⟨Nat.le_refl c, rfl⟩⟩
  bounded := id

theorem trans {e e' e'' : Env} (h : e.Inside e') (h' : e'.Inside e'') : e.Inside e'' where
  grows := h.grows.trans h'.grows
  valid := h'.valid ∘ h.valid
  enclosing_eq := h'.enclosing_eq.trans h.enclosing_eq
  mark_eq := h'.mark_eq.trans h.mark_eq
  moved := by
    obtain ⟨g, hg, hmove⟩ := h.moved
    obtain ⟨g', hg', hmove'⟩ := h'.moved
    refine ⟨g' ∘ g, by rw [hg', hg, moveAll_moveAll], fun c hc => ?_⟩
    obtain ⟨hle, hfind⟩ := hmove c hc
    have hc' := Nat.lt_of_lt_of_le hc h.grows.size_le
    have hgc := Nat.lt_of_le_of_lt hle hc'
    obtain ⟨hle', hfind'⟩ := hmove' (g c) hgc
    exact ⟨Nat.le_trans hle' hle, hfind'.trans (h'.grows.together _ _ hgc hc' hfind)⟩
  bounded := h'.bounded ∘ h.bounded

theorem depth_eq {e e' : Env} (h : e.Inside e') : e'.depth = e.depth := congrArg List.length h.enclosing_eq

theorem of_store {e : Env} {s : Store} (hg : e.store.Grows s) (hv : e.store.Valid → s.Valid) :
    e.Inside { e with store := s } where
  grows := hg
  valid := hv
  enclosing_eq := rfl
  mark_eq := rfl
  moved := ⟨id, (moveAll_id _).symm, fun c _ => ⟨Nat.le_refl c, rfl⟩⟩
  bounded := fun h slot hs => Nat.lt_of_lt_of_le (h slot hs) hg.size_le

theorem nextSerial (e : Env) : e.Inside e.nextSerial.2 where
  grows := .refl e.store
  valid := id
  enclosing_eq := rfl
  mark_eq := rfl
  moved := ⟨id, (moveAll_id _).symm, fun c _ => ⟨Nat.le_refl c, rfl⟩⟩
  bounded := id

theorem addLocal (e : Env) (a : Actual) : e.Inside (e.addLocal a).2 where
  grows := e.store.grows_allocateFor a e.depth
  valid := fun h => h.allocateFor a e.depth
  enclosing_eq := rfl
  mark_eq := rfl
  moved := ⟨id, (moveAll_id _).symm, fun c _ => ⟨Nat.le_refl c, rfl⟩⟩
  bounded := fun h slot hs => by
    have hsize : (e.addLocal a).2.store.cells.size = e.store.cells.size + 1 := Store.size_allocateFor ..
    rw [hsize]
    rcases mem_slots_addLocal.mp hs with hs | rfl
    · exact Nat.lt_succ_of_lt (h slot hs)
    · exact Nat.lt_succ_self _

theorem redirect (e : Env) : e.Inside e.redirect where
  grows := (Store.alike_compressAll e.store e.scope.slots).grows
  valid := (Store.alike_compressAll e.store e.scope.slots).valid
  enclosing_eq := rfl
  mark_eq := rfl
  moved := by
    refine ⟨e.store.find, rfl, fun c _ => ⟨e.store.find_le c, ?_⟩⟩
    have hfind := (Store.alike_compressAll e.store e.scope.slots).find_eq
    exact (hfind _).trans ((e.store.find_find c).trans (hfind c).symm)
  bounded := fun h slot hs => by
    have hsize : e.redirect.store.cells.size = e.store.cells.size :=
      (Store.alike_compressAll e.store e.scope.slots).size_eq
    have hsplit : ∃ old ∈ e.scope.slots, slot.cell = e.store.find old.cell := by
      rcases List.mem_append.mp hs with hs | hs
      · obtain ⟨a, ha, rfl⟩ := List.mem_map.mp hs
        obtain ⟨b, hb, rfl⟩ := List.mem_map.mp ha
        exact ⟨b.2, List.mem_append_left _ (List.mem_map_of_mem hb), rfl⟩
      · obtain ⟨old, ho, rfl⟩ := List.mem_map.mp hs
        exact ⟨old, List.mem_append_right _ ho, rfl⟩
    obtain ⟨old, ho, hcell⟩ := hsplit
    rw [hsize, hcell]
    exact Store.find_lt (h old ho)

theorem held {e e' : Env} (h : e.Inside e') (hh : Held e.store.mark e.scopes) : Held e'.store.mark e'.scopes := by
  obtain ⟨hslots, hcells, hnarrowings, houter⟩ := hh
  obtain ⟨recent, hlog, -⟩ := h.grows.log
  refine ⟨h.bounded hslots, ?_, ?_, ?_⟩
  · rw [h.mark_eq]
    exact Nat.le_trans hcells h.grows.size_le
  · rw [h.mark_eq]
    apply Nat.le_trans hnarrowings
    change e.store.narrowings.length ≤ e'.store.narrowings.length
    rw [hlog, List.length_append]
    exact Nat.le_add_left _ _
  · rw [h.mark_eq, h.enclosing_eq]
    exact houter

theorem sound {e e' : Env} (h : e.Inside e') (hs : e.Sound) : e'.Sound := ⟨h.valid hs.valid, h.held hs.held⟩

end Inside

/-- A change inside the scope that gives no value to what was there before. -/
structure Quiet (e e' : Env) : Prop extends Inside e e' where
  values : ∀ c < e.store.cells.size, e'.store.value c = e.store.value c

namespace Quiet

theorem refl (e : Env) : e.Quiet e := ⟨.refl e, fun _ _ => rfl⟩

theorem trans {e e' e'' : Env} (h : e.Quiet e') (h' : e'.Quiet e'') : e.Quiet e'' := by
  refine ⟨h.toInside.trans h'.toInside, fun c hc => ?_⟩
  rw [h'.values c (Nat.lt_of_lt_of_le hc h.grows.size_le), h.values c hc]

theorem nextSerial (e : Env) : e.Quiet e.nextSerial.2 := ⟨.nextSerial e, fun _ _ => rfl⟩

theorem addLocal (e : Env) (a : Actual) : e.Quiet (e.addLocal a).2 :=
  ⟨.addLocal e a, fun _ hc => Store.value_allocateFor a e.depth hc⟩

end Quiet

theorem held_openScope {e : Env} (hh : Held e.store.mark e.scopes) {arguments : List (Formal × Slot)}
    (ha : ∀ a ∈ arguments, a.2.cell < e.store.cells.size) :
    Held (e.openScope arguments).store.mark (e.openScope arguments).scopes := by
  refine ⟨fun slot hslot => ?_, Nat.le_refl _, Nat.le_refl _, hh⟩
  obtain ⟨a, ha', rfl⟩ := mem_slots_openScope.mp hslot
  exact ha a ha'

theorem Sound.openScope {e : Env} (hs : e.Sound) {arguments : List (Formal × Slot)}
    (ha : ∀ a ∈ arguments, a.2.cell < e.store.cells.size) : (e.openScope arguments).Sound :=
  ⟨hs.valid, held_openScope hs.held ha⟩

/-- The environment whose innermost scope has been dropped, before its slots are redirected. -/
def dropScope (e : Env) (outer : Scope) (rest : List Scope) : Env :=
  { e with
    store := e.store.closeScope e.depth e.scope.mark
    scope := outer
    enclosing := rest }

theorem closeScope_eq_ok {e e' : Env} : e.closeScope = .ok e' ↔
    ∃ outer rest, e.enclosing = outer :: rest ∧ e' = (e.dropScope outer rest).redirect := by
  unfold Env.closeScope
  split
  · rename_i h
    rw [h]
    constructor
    · intro h
      cases h
    · rintro ⟨outer, rest, h, -⟩
      cases h
  · rename_i outer rest h
    rw [h]
    constructor
    · intro h
      cases h
      exact ⟨outer, rest, rfl, rfl⟩
    · rintro ⟨outer', rest', h, rfl⟩
      cases h
      rfl

theorem held_dropScope {e : Env} (hh : Held e.store.mark e.scopes) {outer : Scope} {rest : List Scope}
    (h : e.enclosing = outer :: rest) : Held (e.dropScope outer rest).store.mark (e.dropScope outer rest).scopes := by
  obtain ⟨-, hcells, hnarrowings, houter⟩ := hh
  rw [h] at houter
  have hmark : (e.dropScope outer rest).store.mark = e.scope.mark := by
    have hsize : (e.dropScope outer rest).store.cells.size = e.scope.mark.cells :=
      Store.size_closeScope e.depth hcells
    have hlog : (e.dropScope outer rest).store.narrowings.length = e.scope.mark.narrowings := by
      change (e.store.narrowings.drop (e.store.narrowings.length - e.scope.mark.narrowings)).length = _
      rw [List.length_drop]
      exact Nat.sub_sub_self hnarrowings
    rw [Store.mark, hsize, hlog]
  rw [hmark]
  exact houter

theorem Sound.dropScope {e : Env} (hs : e.Sound) {outer : Scope} {rest : List Scope}
    (h : e.enclosing = outer :: rest) : (e.dropScope outer rest).Sound :=
  ⟨hs.valid.closeScope e.depth hs.held.2.1, held_dropScope hs.held h⟩

/-- What one goal may do to an environment. -/
inductive Change : Env → Env → Prop where
  | inside {e e' : Env} : e.Inside e' → Change e e'
  | opened {e : Env} {arguments : List (Formal × Slot)} :
      (∀ a ∈ arguments, a.2.cell < e.store.cells.size) → Change e (e.openScope arguments)
  | closed {e e' : Env} : e.closeScope = .ok e' → Change e e'

theorem Change.sound {e e' : Env} (h : Change e e') (hs : e.Sound) : e'.Sound := by
  cases h with
  | inside h => exact h.sound hs
  | opened ha => exact hs.openScope ha
  | closed h =>
      obtain ⟨outer, rest, henc, rfl⟩ := closeScope_eq_ok.mp h
      exact (Inside.redirect _).sound (hs.dropScope henc)

end Env
end Clausal
