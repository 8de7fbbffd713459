import Clausal.Proofs.Aliases

/-! Regions of a store. A region holds all cells that are younger than the store, and with a cell its class.
Main statement: when the cells that are bound, unified or redirected lie in a region, then so do all cells
that are written to, and closing a scope leaves the rest as it was. -/
namespace Clausal.Store

variable {old s t : Store} {V : Nat → Prop} {depth : Nat}

/-- No alias in the store stands deeper than this. -/
def Shallow (s : Store) (depth : Nat) : Prop := ∀ c, ∀ a ∈ s.listed c, a.depth ≤ depth

/-- Cells that may be written to: all that are new, and with a cell all its class. -/
structure Region (old : Store) (V : Nat → Prop) : Prop where
  new : ∀ c, old.cells.size ≤ c → V c
  class_mem : ∀ c d, old.find c = old.find d → V c → V d

/-- What has become of a store that was written to in this region alone. Cells of the region stay with each
other, and no alias that is not deeper than this has come up. -/
structure Spares (old : Store) (V : Nat → Prop) (depth : Nat) (s : Store) : Prop where
  size_le : old.cells.size ≤ s.cells.size
  log : ∃ recent, s.narrowings = recent ++ old.narrowings ∧ ∀ n ∈ recent, V n.cell
  untouched : ∀ c, ¬V c → s.cells[c]? = old.cells[c]?
  closed : ∀ c, V c → V (s.find c)
  aliases : ∀ c, ∀ a ∈ s.entries c, a.depth ≤ depth → ∃ d < old.cells.size, s.find d = s.find c ∧ a ∈ old.entries d

theorem Region.spares (hV : old.Region V) (depth : Nat) : old.Spares V depth old where
  size_le := Nat.le_refl _
  log := ⟨[], rfl, fun _ h => absurd h List.not_mem_nil⟩
  untouched := fun _ _ => rfl
  closed := fun c hc => hV.class_mem c _ (old.find_find c).symm hc
  aliases := fun c a ha _ => by
    by_cases hc : c < old.cells.size
    · exact ⟨c, hc, rfl, ha⟩
    · rw [entries_eq, find_of_ge (Nat.le_of_not_lt hc), listed_of_ge (Nat.le_of_not_lt hc)] at ha
      cases ha

/-- Outside the region a cell has the representative that it had, which lies outside as well. -/
theorem Spares.outside (h : old.Spares V depth s) (hV : old.Region V) {c : Nat} (hc : ¬V c) :
    s.find c = old.find c ∧ ¬V (old.find c) := by
  refine ⟨?_, fun hroot => hc (hV.class_mem _ c (old.find_find c) hroot)⟩
  induction c using Nat.strongRecOn with
  | ind c ih =>
      have hparent : s.parent c = old.parent c := by
        rw [parent, parent, h.untouched c hc]
      by_cases hlt : old.parent c < c
      · have hfind := find_of_link hlt
        have hout : ¬V (old.parent c) := fun hin => hc (hV.class_mem _ c hfind.symm hin)
        rw [find_of_link (hparent ▸ hlt), hparent, hfind]
        exact ih _ hlt hout
      · rw [find_of_root hlt, find_of_root (hparent ▸ hlt)]

theorem Spares.class_eq (h : old.Spares V depth s) (hV : old.Region V) {c : Nat} (hc : ¬V c) :
    s.find c = old.find c ∧ s.value c = old.value c ∧ s.ty c = old.ty c ∧ s.entries c = old.entries c := by
  obtain ⟨hfind, hroot⟩ := h.outside hV hc
  have hcell := h.untouched _ hroot
  refine ⟨hfind, ?_, ?_, ?_⟩
  · rw [value_eq, value_eq, hfind, held, held, hcell]
  · rw [ty_eq, ty_eq, hfind, own, own, hcell]
  · rw [entries_eq, entries_eq, hfind, listed, listed, hcell]

/-- Two cells that share a class shared it before, or both lie in the region. -/
theorem Spares.find_eq (h : old.Spares V depth s) (hV : old.Region V) {x y : Nat} (hxy : s.find x = s.find y) :
    old.find x = old.find y ∨ (V x ∧ V y) := by
  by_cases hx : V x
  · by_cases hy : V y
    · exact .inr ⟨hx, hy⟩
    · obtain ⟨hfind, hout⟩ := h.outside hV hy
      exact absurd (hfind ▸ hxy ▸ h.closed x hx) hout
  · obtain ⟨hfind, hout⟩ := h.outside hV hx
    by_cases hy : V y
    · exact absurd (hfind ▸ hxy.symm ▸ h.closed y hy) hout
    · obtain ⟨hfind', -⟩ := h.outside hV hy
      rw [hfind, hfind'] at hxy
      exact .inl hxy

theorem Spares.allocateFor (h : old.Spares V depth s) (hV : old.Region V) (a : Actual) {d : Nat} (hd : depth < d) :
    old.Spares V depth (s.allocateFor a d).2 where
  size_le := by
    rw [size_allocateFor]
    exact Nat.le_succ_of_le h.size_le
  log := h.log
  untouched := fun c hc => by
    have hlt : c < s.cells.size := by
      apply Nat.lt_of_lt_of_le _ h.size_le
      exact Nat.lt_of_not_le fun hge => hc (hV.new c hge)
    rw [← h.untouched c hc]
    unfold Store.allocateFor
    rw [Array.getElem?_push_lt hlt, Array.getElem?_eq_getElem hlt]
  closed := fun c hc => by
    rw [find_allocateFor]
    exact h.closed c hc
  aliases := fun c b hb hle => by
    rw [entries_eq, find_allocateFor, listed_allocateFor] at hb
    simp only [find_allocateFor]
    split at hb
    · obtain rfl := List.mem_singleton.mp hb
      exact absurd hle (Nat.not_le_of_lt hd)
    · exact h.aliases c b hb hle

theorem Spares.bindOrCheck (h : old.Spares V depth s) {c : Nat} (hc : V c) {v : Value}
    (hbind : s.bindOrCheck c v = (.ok true, t)) : old.Spares V depth t := by
  rcases bindOrCheck_ok hbind with rfl | ⟨-, -, rfl⟩
  · exact h
  · constructor
    · rw [size_modify]
      exact h.size_le
    · exact h.log
    · intro i hi
      have hne : s.find c ≠ i := fun heq => hi (heq ▸ h.closed c hc)
      rw [getElem?_modify, if_neg hne]
      exact h.untouched i hi
    · intro i hi
      rw [find_bind]
      exact h.closed i hi
    · intro i a ha hle
      rw [entries_eq, find_bind, listed_bind] at ha
      simp only [find_bind]
      exact h.aliases i a ha hle

theorem Spares.merges (h : old.Spares V depth s) {a b older younger : Nat} {ty : Ty}
    (hm : s.Merges a b older younger ty t) (ho : V older) (hyounger : V younger) : old.Spares V depth t := by
  constructor
  · rw [hm.size_eq]
    exact h.size_le
  · obtain ⟨recent, hlog, hrecent⟩ := h.log
    rw [hm.narrowings_eq, hlog]
    by_cases hsame : s.own older = ty
    · rw [if_pos hsame]
      exact ⟨recent, rfl, hrecent⟩
    · rw [if_neg hsame]
      refine ⟨⟨older, s.own older⟩ :: recent, rfl, fun n hn => ?_⟩
      rcases List.mem_cons.mp hn with rfl | hn
      · exact ho
      · exact hrecent n hn
  · intro i hi
    have hne : i ≠ older ∧ i ≠ younger := ⟨fun heq => hi (heq ▸ ho), fun heq => hi (heq ▸ hyounger)⟩
    rw [hm.cells_eq hne.1 hne.2]
    exact h.untouched i hi
  · intro i hi
    rw [hm.find_eq]
    split
    · exact ho
    · exact h.closed i hi
  · intro i a ha hle
    have hold {root : Nat} (hroot : s.find root = root) (ha : a ∈ s.listed root) (hi : t.find root = t.find i) :
        ∃ d < old.cells.size, t.find d = t.find i ∧ a ∈ old.entries d := by
      obtain ⟨d, hd, hsame, hmem⟩ := h.aliases root a (by rw [entries_eq, hroot]; exact ha) hle
      exact ⟨d, hd, by rw [hm.find_eq, hsame, ← hm.find_eq, hi], hmem⟩
    have holder : t.find older = older := by rw [hm.find_eq, hm.older_root, if_neg (Nat.ne_of_lt hm.lt)]
    have hmerged : t.find younger = older := by rw [hm.find_eq, hm.younger_root, if_pos rfl]
    rw [entries_eq, hm.listed_eq] at ha
    by_cases hi : t.find i = older
    · rw [if_pos hi] at ha
      rcases Alias.mem_of_mem_join ha with ha | ha
      · exact hold hm.older_root ha (holder.trans hi.symm)
      · exact hold hm.younger_root ha (hmerged.trans hi.symm)
    · have hroot : t.find i = s.find i := by
        rw [hm.find_eq] at hi ⊢
        exact if_neg fun hy => hi (if_pos hy)
      rw [if_neg hi, hroot] at ha
      split at ha
      · cases ha
      · exact hold (find_find s i) ha (by rw [hm.find_eq, find_find, ← hm.find_eq])

theorem Spares.unify (h : old.Spares V depth s) {a b : Nat} (ha : V a) (hb : V b) (hla : a < s.cells.size)
    (hlb : b < s.cells.size) (hunify : s.unify a b = (.ok true, t)) : old.Spares V depth t := by
  rcases unify_ok hla hlb hunify with ⟨rfl, -⟩ | ⟨older, younger, ty, hm⟩
  · exact h
  · rcases hm.roots with ⟨rfl, rfl⟩ | ⟨rfl, rfl⟩
    · exact h.merges hm (h.closed a ha) (h.closed b hb)
    · exact h.merges hm (h.closed b hb) (h.closed a ha)

theorem Spares.compress (h : old.Spares V depth s) {c : Nat} (hc : V c) : old.Spares V depth (s.compress c) := by
  have halike := alike_compress s c
  constructor
  · rw [halike.size_eq]
    exact h.size_le
  · exact h.log
  · intro i hi
    have hne : c ≠ i := fun heq => hi (heq ▸ hc)
    rw [Store.compress, getElem?_modify, if_neg hne]
    exact h.untouched i hi
  · intro i hi
    rw [halike.find_eq]
    exact h.closed i hi
  · intro i a ha hle
    rw [entries_eq, halike.find_eq, listed_compress] at ha
    simp only [halike.find_eq]
    exact h.aliases i a ha hle

theorem Spares.compressAll (h : old.Spares V depth s) {slots : List Slot} (hslots : ∀ slot ∈ slots, V slot.cell) :
    old.Spares V depth (slots.foldl (fun s slot => s.compress slot.cell) s) := by
  induction slots generalizing s with
  | nil => exact h
  | cons slot rest ih =>
      exact ih (h.compress (hslots slot List.mem_cons_self)) fun x hx => hslots x (List.mem_cons_of_mem slot hx)

/-- Closing a scope that was opened since takes nothing from the cells outside the region. -/
theorem Spares.closeScope (h : old.Spares V depth s) (hV : old.Region V) (hold : old.Shallow depth) (hs : s.Valid)
    {m : Mark} (hcells : old.cells.size ≤ m.cells) (hsize : m.cells ≤ s.cells.size)
    (hlog : old.narrowings.length ≤ m.narrowings) {d : Nat} (hd : depth < d) :
    old.Spares V depth (s.closeScope d m) := by
  obtain ⟨recent, hrecent, hin⟩ := h.log
  have hundone : ∀ c, ¬V c → c ∉ (s.undone m).map Narrowing.cell := by
    intro c hc hmem
    obtain ⟨n, hn, rfl⟩ := List.mem_map.mp hmem
    rw [undone_eq hrecent hlog] at hn
    exact hc (hin n (List.mem_of_mem_take hn))
  have hgone : ∀ c, m.cells ≤ c → (s.closeScope d m).find c = c ∧ (s.closeScope d m).listed c = [] := by
    intro c hc
    have hge : (s.closeScope d m).cells.size ≤ c := by
      rw [size_closeScope d hsize]
      exact hc
    exact ⟨find_of_ge hge, listed_of_ge hge⟩
  constructor
  · rw [size_closeScope d hsize]
    exact hcells
  · exact ⟨_, narrowings_closeScope d hrecent hlog, fun n hn => hin n (List.mem_of_mem_drop hn)⟩
  · intro c hc
    have hlt : c < old.cells.size := Nat.lt_of_not_le fun hge => hc (hV.new c hge)
    rw [getElem?_closeScope hs.wide d (Nat.lt_of_lt_of_le hlt hcells), h.untouched c hc, Array.getElem?_eq_getElem hlt]
    have hkept : old.cells[c].aliases.filter (fun a => a.depth < d) = old.cells[c].aliases := by
      apply List.filter_eq_self.mpr
      intro a ha
      have hlisted : a ∈ old.listed c := by
        rw [listed, Array.getElem?_eq_getElem hlt]
        exact ha
      exact decide_eq_true (Nat.lt_of_le_of_lt (hold c a hlisted) hd)
    rw [Option.map_some, if_neg (hundone c hc), hkept]
  · intro c hc
    by_cases hlt : c < m.cells
    · rw [find_closeScope hs.wide d hlt]
      exact h.closed c hc
    · rw [(hgone c (Nat.le_of_not_lt hlt)).1]
      exact hc
  · intro c a ha hle
    by_cases hlt : c < m.cells
    · rw [entries_eq, find_closeScope hs.wide d hlt, listed_closeScope hs.wide d (find_lt hlt)] at ha
      obtain ⟨e, he, hsame, hmem⟩ := h.aliases c a (List.mem_filter.mp ha).1 hle
      refine ⟨e, he, ?_, hmem⟩
      rw [find_closeScope hs.wide d hlt, find_closeScope hs.wide d (Nat.lt_of_lt_of_le he hcells), hsame]
    · obtain ⟨hfind, hlisted⟩ := hgone c (Nat.le_of_not_lt hlt)
      rw [entries_eq, hfind, hlisted] at ha
      cases ha

end Clausal.Store
