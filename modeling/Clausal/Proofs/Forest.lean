import Clausal.Env

/-! The store as a forest. A cell has a parent, a type and a value of its own, and a class has those
of its representative. Main statements: links may be made shorter or joined at the roots, and what
it means that a store grows. -/
namespace Clausal

namespace Store

/-- The parent link of a cell. Outside the store every cell is its own parent. -/
def parent (s : Store) (c : Nat) : Nat := (s.cells[c]?.map Cell.parent).getD c

/-- The type that stands in a cell, whether or not it is a representative. -/
def own (s : Store) (c : Nat) : Ty := (s.cells[c]?.map Cell.ty).getD .any

def held (s : Store) (c : Nat) : Option Value := s.cells[c]?.bind Cell.value

theorem ty_eq (s : Store) (c : Nat) : s.ty c = s.own (s.find c) := rfl

theorem value_eq (s : Store) (c : Nat) : s.value c = s.held (s.find c) := rfl

theorem find_eq (s : Store) (c : Nat) :
    s.find c = if s.parent c < c then s.find (s.parent c) else c := by
  rw [find, parent]
  cases s.cells[c]? with
  | none => simp
  | some cell => rfl

theorem find_of_root {s : Store} {c : Nat} (h : ¬s.parent c < c) : s.find c = c := by
  rw [find_eq, if_neg h]

theorem find_of_link {s : Store} {c : Nat} (h : s.parent c < c) : s.find c = s.find (s.parent c) := by
  rw [find_eq, if_pos h]

theorem find_le (s : Store) (c : Nat) : s.find c ≤ c := by
  induction c using Nat.strongRecOn with
  | ind c ih =>
      by_cases h : s.parent c < c
      · rw [find_of_link h]
        exact Nat.le_trans (ih _ h) (Nat.le_of_lt h)
      · exact Nat.le_of_eq (find_of_root h)

@[simp] theorem find_find (s : Store) (c : Nat) : s.find (s.find c) = s.find c := by
  induction c using Nat.strongRecOn with
  | ind c ih =>
      by_cases h : s.parent c < c
      · rw [find_of_link h]
        exact ih _ h
      · rw [find_of_root h, find_of_root h]

theorem find_lt {s : Store} {c n : Nat} (h : c < n) : s.find c < n := Nat.lt_of_le_of_lt (s.find_le c) h

theorem find_of_ge {s : Store} {c : Nat} (h : s.cells.size ≤ c) : s.find c = c := by
  apply find_of_root
  rw [parent, Array.getElem?_eq_none h]
  exact Nat.lt_irrefl c

/-- Links may be kept or made shorter, and every cell keeps its representative. -/
theorem find_of_parents {s t : Store} {n : Nat}
    (h : ∀ c < n, t.parent c = s.parent c ∨ t.parent c = s.find c) {c : Nat} (hc : c < n) :
    t.find c = s.find c := by
  induction c using Nat.strongRecOn with
  | ind c ih =>
      rcases h c hc with hp | hp
      · by_cases hlt : s.parent c < c
        · rw [find_of_link hlt, find_of_link (hp ▸ hlt), hp]
          exact ih _ hlt (Nat.lt_trans hlt hc)
        · rw [find_of_root hlt, find_of_root (hp ▸ hlt)]
      · by_cases hlt : s.find c < c
        · rw [find_of_link (hp ▸ hlt), hp, ih _ hlt (Nat.lt_trans hlt hc), find_find]
        · rw [find_of_root (hp ▸ hlt)]
          exact Nat.le_antisymm (Nat.le_of_not_lt hlt) (s.find_le c)

/-- A root that is handed over to an older one takes its class along. -/
theorem find_of_link_roots {s t : Store} {older younger : Nat} (hlt : older < younger)
    (ho : s.find older = older) (hy : s.find younger = younger) (hp : t.parent younger = older)
    (hother : ∀ c, c ≠ younger → t.parent c = s.parent c) (c : Nat) :
    t.find c = if s.find c = younger then older else s.find c := by
  induction c using Nat.strongRecOn with
  | ind c ih =>
      by_cases hc : c = younger
      · subst hc
        rw [find_of_link (hp ▸ hlt), hp, ih older hlt, ho, hy, if_pos rfl, if_neg (Nat.ne_of_lt hlt)]
      · have hpc := hother c hc
        by_cases h : s.parent c < c
        · rw [find_of_link h, find_of_link (hpc ▸ h), hpc]
          exact ih _ h
        · rw [find_of_root h, find_of_root (hpc ▸ h), if_neg hc]

/-- All narrowings are from the widest type. -/
def Wide (s : Store) : Prop := ∀ n ∈ s.narrowings, n.ty = .any

/-- Values fit the types that stand beside them, and narrowings are all from the widest type. -/
structure Valid (s : Store) : Prop where
  fits : ∀ c v, s.held c = some v → (s.own c).Accepts v.ty
  wide : ∀ n ∈ s.narrowings, n.ty = .any

theorem Valid.value_fits {s : Store} (h : s.Valid) {c : Nat} {v : Value} (hv : s.value c = some v) :
    (s.ty c).Accepts v.ty := h.fits _ v hv

/-- What becomes of the types in a store while no scope closes. A cell's type changes only from the widest
one, and then the log says so. -/
structure Logged (s t : Store) : Prop where
  size_le : s.cells.size ≤ t.cells.size
  log : ∃ recent, t.narrowings = recent ++ s.narrowings ∧ ∀ c < s.cells.size,
    (c ∈ recent.map Narrowing.cell → s.own c = .any) ∧
      (c ∉ recent.map Narrowing.cell → t.own c = s.own c)

/-- Nothing has been narrowed. -/
theorem Logged.of_own {s t : Store} (hsize : s.cells.size ≤ t.cells.size) (hlog : t.narrowings = s.narrowings)
    (hown : ∀ c < s.cells.size, t.own c = s.own c) : s.Logged t where
  size_le := hsize
  log := ⟨[], hlog, fun c hc => ⟨fun h => absurd h List.not_mem_nil, fun _ => hown c hc⟩⟩

theorem Logged.refl (s : Store) : s.Logged s := .of_own (Nat.le_refl _) rfl fun _ _ => rfl

theorem Logged.trans {s t u : Store} (h : s.Logged t) (h' : t.Logged u) : s.Logged u where
  size_le := Nat.le_trans h.size_le h'.size_le
  log := by
    obtain ⟨recent, hlog, hown⟩ := h.log
    obtain ⟨recent', hlog', hown'⟩ := h'.log
    refine ⟨recent' ++ recent, by rw [hlog', hlog, List.append_assoc], fun c hc => ?_⟩
    obtain ⟨hin, hout⟩ := hown c hc
    obtain ⟨hin', hout'⟩ := hown' c (Nat.lt_of_lt_of_le hc h.size_le)
    rw [List.map_append, List.mem_append]
    constructor
    · intro hmem
      by_cases hc' : c ∈ recent.map Narrowing.cell
      · exact hin hc'
      · rw [← hout hc']
        exact hin' (hmem.resolve_right hc')
    · intro hmem
      rw [not_or] at hmem
      rw [hout' hmem.1, hout hmem.2]

/-- What becomes of a store while no scope closes. Cells stay in one class, and a class keeps its
value. A cell's type changes only from the widest one, and then the log says so. -/
structure Grows (s t : Store) : Prop where
  size_le : s.cells.size ≤ t.cells.size
  log : ∃ recent, t.narrowings = recent ++ s.narrowings ∧ ∀ c < s.cells.size,
    (c ∈ recent.map Narrowing.cell → s.own c = .any) ∧
      (c ∉ recent.map Narrowing.cell → t.own c = s.own c)
  together : ∀ a b, a < s.cells.size → b < s.cells.size → s.find a = s.find b → t.find a = t.find b
  keeps : ∀ c < s.cells.size, ∀ v, s.value c = some v → t.value c = some v

theorem Grows.logged {s t : Store} (h : s.Grows t) : s.Logged t := ⟨h.size_le, h.log⟩

theorem Grows.refl (s : Store) : s.Grows s where
  size_le := Nat.le_refl _
  log := (Logged.refl s).log
  together := fun _ _ _ _ h => h
  keeps := fun _ _ _ h => h

theorem Grows.trans {s t u : Store} (h : s.Grows t) (h' : t.Grows u) : s.Grows u where
  size_le := Nat.le_trans h.size_le h'.size_le
  log := (h.logged.trans h'.logged).log
  together := fun a b ha hb hab =>
    h'.together a b (Nat.lt_of_lt_of_le ha h.size_le) (Nat.lt_of_lt_of_le hb h.size_le) (h.together a b ha hb hab)
  keeps := fun c hc v hv => h'.keeps c (Nat.lt_of_lt_of_le hc h.size_le) v (h.keeps c hc v hv)

section Operations

variable {s : Store}

theorem getElem?_modify (s : Store) (c i : Nat) (f : Cell → Cell) :
    (s.modify c f).cells[i]? = if c = i then s.cells[i]?.map f else s.cells[i]? := by
  rw [modify, Array.getElem?_modify]

@[simp] theorem size_modify (s : Store) (c : Nat) (f : Cell → Cell) :
    (s.modify c f).cells.size = s.cells.size := Array.size_modify

theorem parent_modify {f : Cell → Cell} (hf : ∀ cell, (f cell).parent = cell.parent) (c i : Nat) :
    (s.modify c f).parent i = s.parent i := by
  unfold parent
  rw [getElem?_modify]
  split
  · rw [Option.map_map, show Cell.parent ∘ f = Cell.parent from funext hf]
  · rfl

theorem own_modify {f : Cell → Cell} (hf : ∀ cell, (f cell).ty = cell.ty) (c i : Nat) :
    (s.modify c f).own i = s.own i := by
  unfold own
  rw [getElem?_modify]
  split
  · rw [Option.map_map, show Cell.ty ∘ f = Cell.ty from funext hf]
  · rfl

theorem parent_allocate (ty : Ty) (c : Nat) : (s.allocate ty).2.parent c = s.parent c := by
  unfold parent allocate
  simp only [Array.getElem?_push]
  split
  · rename_i h
    rw [h, Array.getElem?_eq_none (Nat.le_refl _)]
    rfl
  · rfl

theorem own_allocate (ty : Ty) (c : Nat) : (s.allocate ty).2.own c = if c = s.cells.size then ty else s.own c := by
  unfold own allocate
  simp only [Array.getElem?_push]
  split <;> rfl

theorem held_allocate (ty : Ty) (c : Nat) : (s.allocate ty).2.held c = if c = s.cells.size then none else s.held c := by
  unfold held allocate
  simp only [Array.getElem?_push]
  split <;> rfl

theorem parent_allocateFor (a : Actual) (depth c : Nat) : (s.allocateFor a depth).2.parent c = s.parent c := by
  unfold parent allocateFor
  simp only [Array.getElem?_push]
  split
  · rename_i h
    rw [h, Array.getElem?_eq_none (Nat.le_refl _)]
    rfl
  · rfl

@[simp] theorem find_allocateFor (a : Actual) (depth c : Nat) : (s.allocateFor a depth).2.find c = s.find c :=
  find_of_parents (fun c _ => .inl (parent_allocateFor a depth c)) (Nat.lt_succ_self c)

theorem own_allocateFor (a : Actual) (depth c : Nat) :
    (s.allocateFor a depth).2.own c = if c = s.cells.size then a.ty else s.own c := by
  unfold own allocateFor
  simp only [Array.getElem?_push]
  split <;> rfl

theorem own_allocateFor_of_lt (a : Actual) (depth : Nat) {c : Nat} (hc : c < s.cells.size) :
    (s.allocateFor a depth).2.own c = s.own c := (own_allocateFor a depth c).trans (if_neg (Nat.ne_of_lt hc))

theorem held_allocateFor (a : Actual) (depth c : Nat) :
    (s.allocateFor a depth).2.held c = if c = s.cells.size then a.value else s.held c := by
  unfold held allocateFor
  simp only [Array.getElem?_push]
  split <;> rfl

@[simp] theorem size_allocateFor (a : Actual) (depth : Nat) :
    (s.allocateFor a depth).2.cells.size = s.cells.size + 1 := Array.size_push _

theorem value_allocateFor (a : Actual) (depth : Nat) {c : Nat} (hc : c < s.cells.size) :
    (s.allocateFor a depth).2.value c = s.value c := by
  have hne : s.find c ≠ s.cells.size := Nat.ne_of_lt (find_lt hc)
  rw [value_eq, find_allocateFor, held_allocateFor, if_neg hne, value_eq]

theorem ty_allocateFor (a : Actual) (depth : Nat) {c : Nat} (hc : c < s.cells.size) :
    (s.allocateFor a depth).2.ty c = s.ty c := by
  have hne : s.find c ≠ s.cells.size := Nat.ne_of_lt (find_lt hc)
  rw [ty_eq, find_allocateFor, own_allocateFor, if_neg hne, ty_eq]

theorem logged_allocateFor (s : Store) (a : Actual) (depth : Nat) : s.Logged (s.allocateFor a depth).2 := by
  exact .of_own (by rw [size_allocateFor]; exact Nat.le_succ _) rfl fun c hc => own_allocateFor_of_lt a depth hc

theorem grows_allocateFor (s : Store) (a : Actual) (depth : Nat) : s.Grows (s.allocateFor a depth).2 where
  size_le := (logged_allocateFor s a depth).size_le
  log := (logged_allocateFor s a depth).log
  together := fun x y _ _ h => by rw [find_allocateFor, find_allocateFor, h]
  keeps := fun c hc v hv => by
    rw [value_eq, find_allocateFor, held_allocateFor, if_neg (Nat.ne_of_lt (find_lt hc))]
    exact hv

theorem Valid.allocateFor (h : s.Valid) (a : Actual) (depth : Nat) : (s.allocateFor a depth).2.Valid where
  fits := fun c v hv => by
    rw [held_allocateFor] at hv
    rw [own_allocateFor]
    split at hv
    · rename_i hc
      rw [if_pos hc]
      exact a.fits v hv
    · rename_i hc
      rw [if_neg hc]
      exact h.fits c v hv
  wide := h.wide

/-- Stores that differ in the lengths of their links at most. -/
structure Alike (s t : Store) : Prop where
  size_eq : t.cells.size = s.cells.size
  narrowings_eq : t.narrowings = s.narrowings
  find_eq : ∀ c, t.find c = s.find c
  own_eq : ∀ c, t.own c = s.own c
  held_eq : ∀ c, t.held c = s.held c

theorem Alike.trans {t u : Store} (h : s.Alike t) (h' : t.Alike u) : s.Alike u where
  size_eq := h'.size_eq.trans h.size_eq
  narrowings_eq := h'.narrowings_eq.trans h.narrowings_eq
  find_eq := fun c => (h'.find_eq c).trans (h.find_eq c)
  own_eq := fun c => (h'.own_eq c).trans (h.own_eq c)
  held_eq := fun c => (h'.held_eq c).trans (h.held_eq c)

theorem Alike.value_eq {t : Store} (h : s.Alike t) (c : Nat) : t.value c = s.value c := by
  rw [Store.value_eq, Store.value_eq, h.find_eq, h.held_eq]

theorem Alike.ty_eq {t : Store} (h : s.Alike t) (c : Nat) : t.ty c = s.ty c := by
  rw [Store.ty_eq, Store.ty_eq, h.find_eq, h.own_eq]

theorem Alike.logged {t : Store} (h : s.Alike t) : s.Logged t :=
  .of_own (Nat.le_of_eq h.size_eq.symm) h.narrowings_eq fun c _ => h.own_eq c

theorem Alike.grows {t : Store} (h : s.Alike t) : s.Grows t where
  size_le := h.logged.size_le
  log := h.logged.log
  together := fun a b _ _ hab => by rw [h.find_eq, h.find_eq, hab]
  keeps := fun c _ v hv => by rw [h.value_eq, hv]

theorem Alike.valid {t : Store} (h : s.Alike t) (hs : s.Valid) : t.Valid where
  fits := fun c v hv => by
    rw [h.held_eq] at hv
    rw [h.own_eq]
    exact hs.fits c v hv
  wide := h.narrowings_eq ▸ hs.wide

theorem parent_compress (s : Store) (c i : Nat) :
    (s.compress c).parent i = s.parent i ∨ (s.compress c).parent i = s.find i := by
  unfold parent
  rw [compress, getElem?_modify]
  split
  · rename_i hi
    subst hi
    cases s.cells[c]? with
    | none => exact .inl rfl
    | some cell => exact .inr rfl
  · exact .inl rfl

theorem alike_compress (s : Store) (c : Nat) : s.Alike (s.compress c) where
  size_eq := size_modify ..
  narrowings_eq := rfl
  find_eq := fun i => find_of_parents (fun i _ => parent_compress s c i) (Nat.lt_succ_self i)
  own_eq := fun i => by
    unfold own
    rw [compress, getElem?_modify]
    split
    · rw [Option.map_map]
      rfl
    · rfl
  held_eq := fun i => by
    unfold held
    rw [compress, getElem?_modify]
    split
    · rw [Option.bind_map]
      rfl
    · rfl

theorem alike_compressAll (s : Store) (slots : List Slot) :
    s.Alike (slots.foldl (fun s slot => s.compress slot.cell) s) := by
  induction slots generalizing s with
  | nil => exact ⟨rfl, rfl, fun _ => rfl, fun _ => rfl, fun _ => rfl⟩
  | cons slot rest ih => exact (alike_compress s slot.cell).trans (ih _)

end Operations
end Store
end Clausal
