import Clausal.Proofs.Forest

/-! What a scope leaves behind when it closes. Older cells keep their class and their value, and get
back the types that they had when the scope opened. Main statement: the type that stood in a cell at
some length of the log is not changed by growth, and not by closing a scope opened since. -/
namespace Clausal.Store

variable {s : Store}

theorem getElem?_restoreAll {ns : List Narrowing} (hwide : ∀ n ∈ ns, n.ty = .any) (cells : Array Cell) (i : Nat) :
    (ns.foldl restore cells)[i]? = cells[i]?.map fun cell =>
      if i ∈ ns.map Narrowing.cell then { cell with ty := .any } else cell := by
  induction ns generalizing cells with
  | nil => simp
  | cons n rest ih =>
      rw [List.foldl_cons, ih fun n hn => hwide n (List.mem_cons_of_mem _ hn), restore, Array.getElem?_modify,
        hwide n List.mem_cons_self]
      cases cells[i]? with
      | none => simp
      | some cell =>
          by_cases hi : n.cell = i
          · subst hi
            simp
          · have hne : i ≠ n.cell := fun h => hi h.symm
            simp [hi, hne]

theorem getElem?_take_of_lt {cells : Array Cell} {n i : Nat} (h : i < n) : (cells.take n)[i]? = cells[i]? := by
  rw [Array.take_eq_extract, Array.getElem?_extract, Nat.zero_add]
  by_cases hi : i < cells.size
  · rw [if_pos (by omega)]
  · rw [if_neg (by omega), Array.getElem?_eq_none (Nat.le_of_not_lt hi)]

section CloseScope

variable (hs : s.Wide) (depth : Nat) {m : Mark}

def undone (s : Store) (m : Mark) : List Narrowing := s.narrowings.take (s.narrowings.length - m.narrowings)

section Log

variable {recent old : List Narrowing} (hlog : s.narrowings = recent ++ old) (hm : old.length ≤ m.narrowings)

include hlog hm in
theorem undone_eq : s.undone m = recent.take (recent.length - (m.narrowings - old.length)) := by
  have hcount : s.narrowings.length - m.narrowings = recent.length - (m.narrowings - old.length) := by
    rw [hlog, List.length_append]
    omega
  rw [undone, hcount, hlog, List.take_append_of_le_length (Nat.sub_le ..)]

include hlog hm in
theorem narrowings_closeScope : (s.closeScope depth m).narrowings =
    recent.drop (recent.length - (m.narrowings - old.length)) ++ old := by
  have hcount : s.narrowings.length - m.narrowings = recent.length - (m.narrowings - old.length) := by
    rw [hlog, List.length_append]
    omega
  change s.narrowings.drop (s.narrowings.length - m.narrowings) = _
  rw [hcount, hlog, List.drop_append_of_le_length (Nat.sub_le ..)]

end Log

include hs in
theorem getElem?_closeScope {c : Nat} (hc : c < m.cells) : (s.closeScope depth m).cells[c]? =
    s.cells[c]?.map fun cell =>
      { cell with
        ty := if c ∈ (s.undone m).map Narrowing.cell then .any else cell.ty
        aliases := cell.aliases.filter fun a => a.depth < depth } := by
  have hwide : ∀ n ∈ s.undone m, n.ty = .any := fun n hn => hs n (List.mem_of_mem_take hn)
  unfold closeScope
  simp only
  rw [show s.narrowings.take (s.narrowings.length - m.narrowings) = s.undone m from rfl,
    getElem?_restoreAll hwide, Array.getElem?_map, getElem?_take_of_lt hc, Option.map_map]
  cases s.cells[c]? with
  | none => rfl
  | some cell =>
      simp only [Option.map_some, Function.comp_apply]
      split <;> rfl

theorem size_restoreAll (ns : List Narrowing) (cells : Array Cell) : (ns.foldl restore cells).size = cells.size := by
  induction ns generalizing cells with
  | nil => rfl
  | cons n rest ih => rw [List.foldl_cons, ih, restore, Array.size_modify]

theorem size_closeScope (h : m.cells ≤ s.cells.size) : (s.closeScope depth m).cells.size = m.cells := by
  unfold closeScope
  simp only
  rw [size_restoreAll, Array.size_map, Array.take_eq_extract, Array.size_extract_of_le h, Nat.sub_zero]

include hs in
theorem parent_closeScope {c : Nat} (hc : c < m.cells) : (s.closeScope depth m).parent c = s.parent c := by
  unfold parent
  rw [getElem?_closeScope hs depth hc]
  cases s.cells[c]? <;> rfl

include hs in
theorem find_closeScope {c : Nat} (hc : c < m.cells) : (s.closeScope depth m).find c = s.find c :=
  find_of_parents (fun _ hi => .inl (parent_closeScope hs depth hi)) hc

include hs in
theorem held_closeScope {c : Nat} (hc : c < m.cells) : (s.closeScope depth m).held c = s.held c := by
  unfold held
  rw [getElem?_closeScope hs depth hc]
  cases s.cells[c]? <;> rfl

include hs in
theorem own_closeScope {c : Nat} (hc : c < m.cells) : (s.closeScope depth m).own c =
    if c ∈ (s.undone m).map Narrowing.cell then .any else s.own c := by
  unfold own
  rw [getElem?_closeScope hs depth hc]
  cases s.cells[c]? with
  | none => split <;> rfl
  | some cell => rfl

include hs in
theorem value_closeScope {c : Nat} (hc : c < m.cells) : (s.closeScope depth m).value c = s.value c := by
  rw [value_eq, value_eq, find_closeScope hs depth hc, held_closeScope hs depth (find_lt hc)]

include hs in
theorem Wide.closeScope : (s.closeScope depth m).Wide := fun n hn => hs n (List.mem_of_mem_drop hn)

theorem Valid.closeScope (hs : s.Valid) (h : m.cells ≤ s.cells.size) : (s.closeScope depth m).Valid where
  fits := fun c v hv => by
    by_cases hc : c < m.cells
    · rw [held_closeScope hs.wide depth hc] at hv
      rw [own_closeScope hs.wide depth hc]
      split
      · exact .inl rfl
      · exact hs.fits c v hv
    · rw [held, Array.getElem?_eq_none (by rw [size_closeScope depth h]; exact Nat.le_of_not_lt hc)] at hv
      cases hv
  wide := Wide.closeScope hs.wide depth

end CloseScope

/-- The type that stood in a cell when the log had this length. -/
def ownAt (s : Store) (n c : Nat) : Ty :=
  if c ∈ (s.narrowings.take (s.narrowings.length - n)).map Narrowing.cell then .any else s.own c

theorem ownAt_length (s : Store) (c : Nat) : s.ownAt s.narrowings.length c = s.own c := by
  rw [ownAt, Nat.sub_self]
  exact if_neg List.not_mem_nil

theorem Grows.ownAt_eq {t : Store} (h : s.Grows t) {n c : Nat} (hn : n ≤ s.narrowings.length)
    (hc : c < s.cells.size) : t.ownAt n c = s.ownAt n c := by
  obtain ⟨recent, hlog, hown⟩ := h.log
  obtain ⟨hin, hout⟩ := hown c hc
  have htake : t.narrowings.take (t.narrowings.length - n) =
      recent ++ s.narrowings.take (s.narrowings.length - n) := by
    rw [hlog, List.length_append, Nat.add_sub_assoc hn, List.take_length_add_append]
  unfold ownAt
  simp only [htake, List.map_append, List.mem_append]
  by_cases hc' : c ∈ recent.map Narrowing.cell
  · rw [if_pos (.inl hc'), hin hc']
    split <;> rfl
  · simp only [hc', false_or, hout hc']

theorem ownAt_closeScope (hs : s.Wide) (depth : Nat) {m : Mark} {n c : Nat} (hn : n ≤ m.narrowings)
    (hm : m.narrowings ≤ s.narrowings.length) (hc : c < m.cells) :
    (s.closeScope depth m).ownAt n c = s.ownAt n c := by
  have hlog : (s.closeScope depth m).narrowings = s.narrowings.drop (s.narrowings.length - m.narrowings) := rfl
  have htake : s.narrowings.take (s.narrowings.length - n) = s.undone m ++
      (s.closeScope depth m).narrowings.take ((s.closeScope depth m).narrowings.length - n) := by
    rw [hlog, List.length_drop, undone, ← List.take_add]
    congr 1
    omega
  unfold ownAt
  simp only [htake, List.map_append, List.mem_append, own_closeScope hs depth hc]
  by_cases hc' : c ∈ (s.undone m).map Narrowing.cell
  · simp [hc']
  · simp only [hc', false_or, if_false]

end Clausal.Store
