import Clausal.Proofs.AliasLists
import Clausal.Proofs.Merging

/-! What unification makes of two cells. No alias list of a store ever names a parameter twice, whatever operations
were made and whether or not they were refused. Main statement: a unification that succeeds makes the two cells one
variable, with the parameters, the type and the value of both, unless both are bound already; then it only
compares them. -/
namespace Clausal

namespace Alias

def ids (aliases : List Alias) : List ActualId := aliases.map fun a => a.parameter.id

theorem ids_add (aliases : List Alias) (a : Alias) :
    ids (add aliases a) = if a.parameter.id ∈ ids aliases then ids aliases else ids aliases ++ [a.parameter.id] := by
  have hany : (aliases.any fun b => b.parameter.id = a.parameter.id) = true ↔ a.parameter.id ∈ ids aliases := by
    simp [ids]
  unfold add
  by_cases h : a.parameter.id ∈ ids aliases
  · rw [if_pos (hany.mpr h), if_pos h]
  · rw [if_neg fun h' => h (hany.mp h'), if_neg h, ids, List.map_append]
    rfl

theorem nodup_add {aliases : List Alias} (h : (ids aliases).Nodup) (a : Alias) : (ids (add aliases a)).Nodup := by
  rw [ids_add]
  split
  · exact h
  · rename_i hnot
    refine List.nodup_append.mpr ⟨h, List.pairwise_singleton _ _, fun id hid id' hid' heq => ?_⟩
    rw [heq, List.mem_singleton.mp hid'] at hid
    exact hnot hid

theorem nodup_join {older : List Alias} (h : (ids older).Nodup) (younger : List Alias) :
    (ids (join older younger)).Nodup := by
  induction younger generalizing older with
  | nil => exact h
  | cons a rest ih => exact ih (nodup_add h a)

theorem mem_ids_join (older younger : List Alias) (id : ActualId) :
    id ∈ ids (join older younger) ↔ id ∈ ids older ∨ id ∈ ids younger := by
  constructor
  · intro h
    obtain ⟨a, ha, rfl⟩ := List.mem_map.mp h
    exact (mem_of_mem_join ha).imp List.mem_map_of_mem List.mem_map_of_mem
  · rintro (h | h)
    · obtain ⟨a, ha, rfl⟩ := List.mem_map.mp h
      exact List.mem_map_of_mem (mem_join ha)
    · obtain ⟨a, ha, rfl⟩ := List.mem_map.mp h
      obtain ⟨b, hb, hid⟩ := exists_mem_join older ha
      exact hid ▸ List.mem_map_of_mem hb

end Alias

namespace Store

variable {s t : Store} {a b : Nat}

theorem ids_entries (s : Store) (c : Nat) : Alias.ids (s.entries c) = (s.aliases c).map Actual.id := by
  rw [aliases, List.map_map]
  rfl

/-- No cell lists a parameter twice. -/
def Once (s : Store) : Prop := ∀ c, (Alias.ids (s.listed c)).Nodup

theorem Once.empty : Once .empty := fun c => by
  rw [listed_of_ge (Nat.zero_le c)]
  exact List.nodup_nil

theorem Once.of_listed (h : s.Once) (hlist : ∀ c, t.listed c = s.listed c) : t.Once := fun c => hlist c ▸ h c

theorem Once.aliases (h : s.Once) (c : Nat) : ((s.aliases c).map Actual.id).Nodup := by
  rw [← ids_entries, entries_eq]
  exact h (s.find c)

theorem listed_allocate (ty : Ty) (c : Nat) : (s.allocate ty).2.listed c = s.listed c := by
  unfold listed allocate
  simp only [Array.getElem?_push]
  split
  · rename_i h
    rw [h, Array.getElem?_eq_none (Nat.le_refl _)]
    rfl
  · rfl

theorem listed_addAlias {c : Nat} (hc : c < s.cells.size) (p : Actual) (depth i : Nat) :
    (s.addAlias c p depth).listed i = if i = s.find c then Alias.add (s.listed i) ⟨p, depth⟩ else s.listed i := by
  unfold listed
  rw [addAlias, getElem?_modify]
  by_cases hi : i = s.find c
  · rw [if_pos hi.symm, if_pos hi, hi, Array.getElem?_eq_getElem (find_lt hc)]
    rfl
  · rw [if_neg (Ne.symm hi), if_neg hi]

theorem listed_bindValue (c : Nat) (v : Value) (i : Nat) : (s.bindValue c v).2.listed i = s.listed i := by
  rcases bindValue_cases s c v with h | h
  · rw [h]
  · rw [h, listed_bind]

theorem Once.bindValue (h : s.Once) (c : Nat) (v : Value) : (s.bindValue c v).2.Once :=
  h.of_listed (listed_bindValue c v)

theorem listed_bindOrCheck (c : Nat) (v : Value) (i : Nat) : (s.bindOrCheck c v).2.listed i = s.listed i :=
  of_bindOrCheck (P := fun t => t.listed i = s.listed i) rfl (listed_bindValue c v i)

theorem Once.bindOrCheck (h : s.Once) (c : Nat) (v : Value) : (s.bindOrCheck c v).2.Once :=
  h.of_listed (listed_bindOrCheck c v)

theorem Once.unify (h : s.Once) (ha : a < s.cells.size) (hb : b < s.cells.size) : (s.unify a b).2.Once := by
  rcases unify_cases ha hb with hu | ⟨older, younger, ty, value, aliases, hlt, hsize, -, -, -, hlist, hu⟩
  · rw [hu]
    exact h
  have haliases : (Alias.ids aliases).Nodup := by
    rcases hlist with hlist | hlist
    · rw [hlist]
      exact h _
    · rw [hlist]
      exact Alias.nodup_join (h _) _
  intro i
  rw [hu, listed_link (Nat.lt_trans hlt hsize)]
  split
  · exact haliases
  · split
    · exact List.nodup_nil
    · exact h i

theorem Operation.once (h : Operation s t) (hs : s.Once) : t.Once := by
  cases h with
  | allocated ty => exact hs.of_listed (listed_allocate ty)
  | allocatedFor p depth =>
      intro i
      rw [listed_allocateFor]
      split
      · exact List.pairwise_singleton _ _
      · exact hs i
  | aliased p depth hc =>
      intro i
      rw [listed_addAlias hc]
      split
      · exact Alias.nodup_add (hs i) _
      · exact hs i
  | compressed hc => exact hs.of_listed (listed_compress s _)
  | bound v hc => exact hs.bindValue _ v
  | checked v hc => exact hs.bindOrCheck _ v
  | unified ha hb => exact hs.unify ha hb

theorem Once.closeScope (h : s.Once) (hs : s.Wide) (depth : Nat) {m : Mark} (hm : m.cells ≤ s.cells.size) :
    (s.closeScope depth m).Once := by
  intro c
  by_cases hc : c < m.cells
  · rw [listed_closeScope hs depth hc]
    exact (h c).sublist (List.filter_sublist.map _)
  · have hgone : (s.closeScope depth m).cells.size ≤ c := size_closeScope depth hm ▸ Nat.le_of_not_lt hc
    rw [listed_of_ge hgone]
    exact List.nodup_nil

theorem History.once (h : History s t) (hs : s.Regular) (honce : s.Once) : t.Once := by
  induction h with
  | refl => exact honce
  | tail _ hop ih => exact hop.once (ih hs honce)
  | scope depth hpre hin ih ih' =>
      obtain ⟨-, hregular⟩ := hpre.logged_regular hs
      obtain ⟨hlogged, hregular'⟩ := hin.logged_regular hregular
      exact (ih' hregular (ih hs honce)).closeScope hregular'.wide depth hlogged.size_le

/-- Both cells hold a value, and they are not in one class. -/
def BoundApart (s : Store) (a b : Nat) : Prop :=
  s.find a ≠ s.find b ∧ (∃ v, s.value a = some v) ∧ ∃ w, s.value b = some w

/-- Two cells have become one variable. It is denoted by the parameters of both and by no others, none of them
listed twice, has the type where theirs meet and the value of the one that was bound, and all other classes are
as they were. -/
structure Unified (s t : Store) (a b : Nat) : Prop where
  one : t.find a = t.find b
  once : ((t.aliases a).map Actual.id).Nodup
  listed : ∀ id, id ∈ (t.aliases a).map Actual.id ↔ id ∈ (s.aliases a).map Actual.id ∨ id ∈ (s.aliases b).map Actual.id
  known : ∀ p ∈ t.aliases a, p ∈ s.aliases a ∨ p ∈ s.aliases b
  meet : (s.ty a).meet (s.ty b) = some (t.ty a)
  value : ∀ v, t.value a = some v ↔ s.value a = some v ∨ s.value b = some v
  others : ∀ c, ¬s.Either a b c →
    t.find c = s.find c ∧ t.value c = s.value c ∧ t.ty c = s.ty c ∧ t.aliases c = s.aliases c

theorem Ty.meet_self (ty : Ty) : ty.meet ty = some ty := by
  cases ty <;> rfl

/-- Two cells of one class are one variable as they stand. -/
theorem Unified.of_find (h : s.find a = s.find b) (hs : s.Once) : s.Unified s a b := by
  have hvalue : s.value a = s.value b := value_congr h
  have haliases : s.aliases a = s.aliases b := aliases_congr h
  constructor
  · exact h
  · exact hs.aliases a
  · intro id
    rw [← haliases, or_self]
  · exact fun p hp => .inl hp
  · rw [ty_eq s b, ← h, ← ty_eq]
    exact Ty.meet_self _
  · intro v
    rw [← hvalue, or_self]
  · exact fun c _ => ⟨rfl, rfl, rfl, rfl⟩

/-- The representatives of the two classes are the ones that are merged. -/
theorem Merges.or_comm {older younger : Nat} {ty : Ty} (h : s.Merges a b older younger ty t) {P : Nat → Prop} :
    P older ∨ P younger ↔ P (s.find a) ∨ P (s.find b) := by
  rcases h.roots with ⟨rfl, rfl⟩ | ⟨rfl, rfl⟩
  · exact Iff.rfl
  · exact Or.comm

theorem Merges.entries_eq {older younger : Nat} {ty : Ty} (h : s.Merges a b older younger ty t) :
    t.entries a = Alias.join (s.listed older) (s.listed younger) := by
  have hroot : t.find a = older := by
    rw [h.find_eq]
    rcases h.roots with ⟨rfl, rfl⟩ | ⟨rfl, rfl⟩
    · exact if_neg (Nat.ne_of_lt h.lt)
    · exact if_pos rfl
  rw [Store.entries_eq, hroot, h.listed_eq, if_pos rfl]

/-- A merge makes the two cells one variable. -/
theorem Merges.unified {older younger : Nat} {ty : Ty} (h : s.Merges a b older younger ty t) (hs : s.Once) :
    s.Unified t a b := by
  have hj := h.joined
  constructor
  · exact (hj.find_iff a b).mpr (.inr ⟨.inl rfl, .inr rfl⟩)
  · rw [← ids_entries, h.entries_eq]
    exact Alias.nodup_join (hs _) _
  · intro id
    rw [← ids_entries, h.entries_eq, Alias.mem_ids_join, ← ids_entries, ← ids_entries]
    exact h.or_comm (P := fun c => id ∈ Alias.ids (s.listed c))
  · intro p hp
    rw [aliases, h.entries_eq] at hp
    obtain ⟨x, hx, rfl⟩ := List.mem_map.mp hp
    refine (h.or_comm (P := fun c => x.parameter ∈ (s.listed c).map Alias.parameter)).mp ?_
    exact (Alias.mem_of_mem_join hx).imp List.mem_map_of_mem List.mem_map_of_mem
  · exact hj.meet a (.inl rfl)
  · intro v
    constructor
    · exact hj.of_value (.inl rfl)
    · rintro (hv | hv)
      · exact hj.value_of hv
      · rw [value_congr ((hj.find_iff a b).mpr (.inr ⟨.inl rfl, .inr rfl⟩))]
        exact hj.value_of hv
  · intro c hc
    have hroots : ¬(s.find c = older ∨ s.find c = younger) := fun hor =>
      hc ((h.or_comm (P := fun r => s.find c = r)).mp hor)
    rw [not_or] at hroots
    have hfind : t.find c = s.find c := by rw [h.find_eq, if_neg hroots.2]
    refine ⟨hfind, hj.value_out c hc, hj.ty_out c hc, ?_⟩
    rw [aliases, Store.entries_eq, hfind, h.listed_eq, if_neg hroots.1, if_neg hroots.2]
    rfl

/-- In any store that operations have made, a unification that succeeds makes its two cells one variable, except
that it leaves two bound classes apart and the store as it is, and their values are then equal. -/
theorem unify_makes_one_variable (hs : History .empty s) (ha : a < s.cells.size) (hb : b < s.cells.size)
    (h : s.unify a b = (.ok true, t)) :
    (¬s.BoundApart a b → s.Unified t a b) ∧ (s.BoundApart a b → t = s ∧ s.value a = s.value b) := by
  have honce : s.Once := hs.once .empty .empty
  rcases unify_ok ha hb h with ⟨rfl, hfind | ⟨v, hv, hw⟩⟩ | ⟨older, younger, ty, hm⟩
  · exact ⟨fun _ => .of_find hfind honce, fun hapart => absurd hfind hapart.1⟩
  · refine ⟨fun hnot => ?_, fun _ => ⟨rfl, hv.trans hw.symm⟩⟩
    by_cases hfind : t.find a = t.find b
    · exact .of_find hfind honce
    · exact absurd ⟨hfind, ⟨v, hv⟩, v, hw⟩ hnot
  · refine ⟨fun _ => hm.unified honce, fun ⟨_, ⟨v, hv⟩, w, hw⟩ => ?_⟩
    rcases hm.joined.unbound with hnone | hnone
    · rw [hv] at hnone
      cases hnone
    · rw [hw] at hnone
      cases hnone

def wanted : Actual := .output (.shared 0) (some "x") .any none

def supplied : Actual := .literal (.shared 1) (.int 10) none

/-- Each has a cell, and the output is an alias of the input's cell as well. -/
def lentOut : Store := ((Store.empty.allocateFor wanted 0).2.allocateFor supplied 0).2.addAlias 1 wanted 0

theorem lentOut_history : History .empty lentOut := by
  refine .tail (.tail (.tail (.refl _) (.allocatedFor _ _ _)) (.allocatedFor _ _ _)) (.aliased _ _ ?_)
  decide

/-- The output listed for both cells is listed once for the variable that they become, which has the type and the
value of the input. -/
theorem lentOut_unified : ∃ t, lentOut.unify 0 1 = (.ok true, t) ∧ t.find 0 = t.find 1 ∧
    ((t.aliases 0).map Actual.id).Nodup ∧ (ActualId.shared 0 ∈ (t.aliases 0).map Actual.id) ∧ t.ty 0 = .int ∧
      t.value 0 = some (.int 10) := by
  have hunify : (lentOut.unify 0 1).1 = .ok true := by decide +kernel
  obtain ⟨t, ht⟩ : ∃ t, lentOut.unify 0 1 = (.ok true, t) := ⟨_, Prod.ext hunify rfl⟩
  have hunbound : ¬lentOut.BoundApart 0 1 := by
    rintro ⟨-, ⟨v, hv⟩, -⟩
    rw [show lentOut.value 0 = none by decide +kernel] at hv
    cases hv
  have hunified :=
    (unify_makes_one_variable lentOut_history (by decide +kernel) (by decide +kernel) ht).1 hunbound
  have hty : (Ty.any).meet .int = some (t.ty 0) := by
    rw [← hunified.meet]
    decide +kernel
  refine ⟨t, ht, hunified.one, hunified.once, (hunified.listed _).mpr (.inl ?_), (Option.some.inj hty).symm,
    (hunified.value _).mpr (.inr ?_)⟩
  · decide +kernel
  · decide +kernel

/-- Two cells that have got the same value one after the other. -/
def equalApart : Store :=
  ((((Store.empty.allocate .int).2.allocate .int).2.bindValue 0 (.int 1)).2.bindValue 1 (.int 1)).2

/-- Success alone does not make one variable of two cells. -/
theorem unified_may_stay_apart : ¬∀ (s t : Store) (a b : Nat), History .empty s → a < s.cells.size →
    b < s.cells.size → s.unify a b = (.ok true, t) → t.find a = t.find b := by
  intro hall
  have hhistory : History .empty equalApart := by
    refine .tail (.tail (.tail (.tail (.refl _) (.allocated _ _)) (.allocated _ _)) (.bound _ ?_)) (.bound _ ?_) <;>
      decide +kernel
  have hunify : (equalApart.unify 0 1).1 = .ok true := by decide +kernel
  have hsame := hall equalApart _ 0 1 hhistory (by decide +kernel) (by decide +kernel) (Prod.ext hunify rfl)
  exact absurd hsame (by decide +kernel)

end Store
end Clausal
