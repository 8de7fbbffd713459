import Clausal.Proofs.Unification
import Clausal.Proofs.Rollback

/-! Alias lists on the forest. Like a value, the aliases of a class stand in its representative. Main
statements: what each operation does to the list in a cell, and which cells a unification links. -/
namespace Clausal

namespace Alias

theorem mem_of_mem_add {aliases : List Alias} {a b : Alias} (h : b ∈ add aliases a) : b ∈ aliases ∨ b = a := by
  unfold add at h
  split at h
  · exact .inl h
  · rcases List.mem_append.mp h with h | h
    · exact .inl h
    · exact .inr (List.mem_singleton.mp h)

theorem mem_of_mem_join {older younger : List Alias} {b : Alias} (h : b ∈ join older younger) :
    b ∈ older ∨ b ∈ younger := by
  induction younger generalizing older with
  | nil => exact .inl h
  | cons a rest ih =>
      rcases ih h with h | h
      · rcases mem_of_mem_add h with h | rfl
        · exact .inl h
        · exact .inr List.mem_cons_self
      · exact .inr (List.mem_cons_of_mem a h)

end Alias

namespace Store

variable {s t : Store}

/-- The aliases that stand in a cell, whether or not it is a representative. -/
def listed (s : Store) (c : Nat) : List Alias := (s.cells[c]?.map Cell.aliases).getD []

theorem entries_eq (s : Store) (c : Nat) : s.entries c = s.listed (s.find c) := rfl

theorem aliases_congr {i j : Nat} (h : s.find i = s.find j) : s.aliases i = s.aliases j := by
  rw [aliases, entries_eq, h, ← entries_eq, ← aliases]

theorem listed_of_ge {c : Nat} (h : s.cells.size ≤ c) : s.listed c = [] := by
  rw [listed, Array.getElem?_eq_none h]
  rfl

theorem listed_allocateFor (a : Actual) (depth c : Nat) :
    (s.allocateFor a depth).2.listed c = if c = s.cells.size then [⟨a, depth⟩] else s.listed c := by
  unfold listed allocateFor
  simp only [Array.getElem?_push]
  split <;> rfl

@[simp] theorem listed_bind (v : Value) (r i : Nat) :
    (s.modify r fun cell => { cell with value := some v }).listed i = s.listed i := by
  unfold listed
  rw [getElem?_modify]
  split
  · rw [Option.map_map]
    rfl
  · rfl

@[simp] theorem listed_compress (s : Store) (c i : Nat) : (s.compress c).listed i = s.listed i := by
  unfold listed
  rw [compress, getElem?_modify]
  split
  · rw [Option.map_map]
    rfl
  · rfl

@[simp] theorem listed_compressAll (s : Store) (slots : List Slot) (i : Nat) :
    (slots.foldl (fun s slot => s.compress slot.cell) s).listed i = s.listed i := by
  induction slots generalizing s with
  | nil => rfl
  | cons slot rest ih => rw [List.foldl_cons, ih, listed_compress]

section Link

variable {older younger : Nat} {ty : Ty} {value : Option Value} {aliases : List Alias}

theorem listed_link (h : older < s.cells.size) (i : Nat) : (s.link older younger ty value aliases).listed i =
    if i = older then aliases else if i = younger then [] else s.listed i := by
  unfold listed
  rw [getElem?_link]
  by_cases hi : i = older
  · rw [hi, Array.getElem?_eq_getElem h]
    simp only [Option.map_some, if_pos]
    rfl
  · rw [if_neg hi]
    cases s.cells[i]? with
    | none => simp
    | some cell =>
        simp only [Option.map_some, if_neg (Ne.symm hi), @eq_comm _ younger i]
        split <;> rfl

theorem cells_link_other {i : Nat} (ho : i ≠ older) (hy : i ≠ younger) :
    (s.link older younger ty value aliases).cells[i]? = s.cells[i]? := by
  rw [getElem?_link]
  cases s.cells[i]? with
  | none => rfl
  | some cell => simp only [Option.map_some, if_neg ho.symm, if_neg hy.symm]

end Link

theorem listed_closeScope (hs : s.Wide) (depth : Nat) {m : Mark} {c : Nat} (hc : c < m.cells) :
    (s.closeScope depth m).listed c = (s.listed c).filter fun a => a.depth < depth := by
  unfold listed
  rw [getElem?_closeScope hs depth hc]
  cases s.cells[c]? <;> rfl

section Merges

variable {a b older younger : Nat} {ty : Ty}

/-- The older representative takes the aliases of both. -/
theorem Merges.listed_eq (h : s.Merges a b older younger ty t) (i : Nat) : t.listed i =
    if i = older then Alias.join (s.listed older) (s.listed younger)
    else if i = younger then [] else s.listed i := by
  rw [h.eq, listed_link h.older_lt, entries_eq, entries_eq, h.older_root, h.younger_root]

theorem Merges.cells_eq (h : s.Merges a b older younger ty t) {i : Nat} (ho : i ≠ older) (hy : i ≠ younger) :
    t.cells[i]? = s.cells[i]? := by
  rw [h.eq, cells_link_other ho hy]

end Merges

end Store
end Clausal
