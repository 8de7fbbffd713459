import Clausal.Proofs.Unification

/-! Classes that become one. Main statements: what a unification or a binding that succeeds does to
classes, their types and their values, and when it succeeds. -/
namespace Clausal

theorem Ty.meet_comm (s t : Ty) : s.meet t = t.meet s := by
  cases s <;> cases t <;> rfl

namespace Store

variable {s t : Store} {a b : Nat}

/-- The cell belongs to the class of one of the two. -/
def Either (s : Store) (a b i : Nat) : Prop := s.find i = s.find a ∨ s.find i = s.find b

/-- Two classes, of which at most one was bound, have become one. Its type is the meet of theirs. -/
structure Joined (s t : Store) (a b : Nat) : Prop where
  size_eq : t.cells.size = s.cells.size
  find_iff : ∀ i j, t.find i = t.find j ↔ s.find i = s.find j ∨ (s.Either a b i ∧ s.Either a b j)
  unbound : s.value a = none ∨ s.value b = none
  value_in : ∀ i, s.Either a b i → t.value i = (s.value a <|> s.value b)
  value_out : ∀ i, ¬s.Either a b i → t.value i = s.value i
  meet : ∀ i, s.Either a b i → (s.ty a).meet (s.ty b) = some (t.ty i)
  ty_out : ∀ i, ¬s.Either a b i → t.ty i = s.ty i

@[simp] theorem value_find (s : Store) (c : Nat) : s.value (s.find c) = s.value c := by
  rw [value_eq, find_find, ← value_eq]

@[simp] theorem ty_find (s : Store) (c : Nat) : s.ty (s.find c) = s.ty c := by
  rw [ty_eq, find_find, ← ty_eq]

theorem value_congr {i j : Nat} (h : s.find i = s.find j) : s.value i = s.value j := by
  rw [value_eq, h, ← value_eq]

theorem Either.symm {i : Nat} (h : s.Either a b i) : s.Either b a i := Or.symm h

theorem orElse_comm_of_none {v w : Option Value} (h : v = none ∨ w = none) : (v <|> w) = (w <|> v) := by
  cases v with
  | none => cases w <;> rfl
  | some v =>
      cases w with
      | none => rfl
      | some w => rcases h with h | h <;> cases h

theorem Joined.symm (h : s.Joined t a b) : s.Joined t b a where
  size_eq := h.size_eq
  find_iff := fun i j => by
    rw [h.find_iff]
    exact or_congr_right (and_congr Or.comm Or.comm)
  unbound := h.unbound.symm
  value_in := fun i hi => by rw [h.value_in i hi.symm, orElse_comm_of_none h.unbound]
  value_out := fun i hi => h.value_out i fun hi' => hi hi'.symm
  meet := fun i hi => by rw [Ty.meet_comm, h.meet i hi.symm]
  ty_out := fun i hi => h.ty_out i fun hi' => hi hi'.symm

/-- Only the classes count, not the cells that stand for them. -/
theorem Joined.of_find (h : s.Joined t (s.find a) (s.find b)) : s.Joined t a b := by
  have heither : ∀ i, s.Either (s.find a) (s.find b) i ↔ s.Either a b i := by
    simp [Either]
  constructor
  · exact h.size_eq
  · intro i j
    rw [h.find_iff, heither, heither]
  · simpa using h.unbound
  · intro i hi
    simpa using h.value_in i ((heither i).mpr hi)
  · exact fun i hi => h.value_out i fun hi' => hi ((heither i).mp hi')
  · intro i hi
    simpa using h.meet i ((heither i).mpr hi)
  · exact fun i hi => h.ty_out i fun hi' => hi ((heither i).mp hi')

theorem Either.congr {i j : Nat} (h : s.find i = s.find j) : s.Either a b i ↔ s.Either a b j := by
  rw [Either, Either, h]

theorem Joined.find_in (h : s.Joined t a b) {i j : Nat} (hj : s.Either a b j) :
    t.find i = t.find j ↔ s.Either a b i := by
  rw [h.find_iff]
  constructor
  · rintro (hij | ⟨hi, -⟩)
    · exact (Either.congr hij).mpr hj
    · exact hi
  · intro hi
    exact .inr ⟨hi, hj⟩

theorem Joined.find_out (h : s.Joined t a b) {i j : Nat} (hj : ¬s.Either a b j) :
    t.find i = t.find j ↔ s.find i = s.find j := by
  rw [h.find_iff]
  exact or_iff_left fun hij => hj hij.2

theorem Joined.value_of (h : s.Joined t a b) {i : Nat} {v : Value} (hv : s.value i = some v) : t.value i = some v := by
  by_cases hi : s.Either a b i
  · rw [h.value_in i hi]
    rcases hi with hi | hi
    · rw [← value_congr hi, hv]
      rfl
    · rw [value_congr hi] at hv
      rw [h.unbound.resolve_right (by rw [hv]; exact Option.some_ne_none v), hv]
      rfl
  · rw [h.value_out i hi, hv]

theorem Joined.of_value (h : s.Joined t a b) {i : Nat} (hi : s.Either a b i) {v : Value} (hv : t.value i = some v) :
    s.value a = some v ∨ s.value b = some v := by
  rw [h.value_in i hi] at hv
  cases ha : s.value a with
  | none =>
      rw [ha] at hv
      exact .inr hv
  | some w =>
      rw [ha] at hv
      exact .inl hv

/-- A merge joins the classes of the two representatives. -/
theorem Merges.joins {older younger : Nat} {ty : Ty} (h : s.Merges a b older younger ty t) :
    s.Joined t older younger := by
  have heither : ∀ i, s.Either older younger i ↔ s.find i = older ∨ s.find i = younger := by
    intro i
    unfold Either
    rw [h.older_root, h.younger_root]
  have hroot : ∀ i, s.Either older younger i → t.find i = older := by
    intro i hi
    rw [h.find_eq]
    rcases (heither i).mp hi with hi | hi
    · rw [hi, if_neg (Nat.ne_of_lt h.lt)]
    · rw [if_pos hi]
  have hout : ∀ i, ¬s.Either older younger i → t.find i = s.find i ∧ s.find i ≠ older ∧ s.find i ≠ younger := by
    intro i hi
    rw [heither, not_or] at hi
    exact ⟨by rw [h.find_eq, if_neg hi.2], hi⟩
  constructor
  · exact h.size_eq
  · intro i j
    have hlt := h.lt
    rw [heither, heither, h.find_eq, h.find_eq]
    split <;> split <;> omega
  · rw [value_eq, value_eq, h.older_root, h.younger_root]
    exact h.unbound
  · intro i hi
    rw [value_eq, hroot i hi, h.held_eq, if_pos rfl, value_eq, value_eq, h.older_root, h.younger_root]
  · intro i hi
    obtain ⟨hfind, ho, hy⟩ := hout i hi
    rw [value_eq, hfind, h.held_eq, if_neg ho, if_neg hy, ← value_eq]
  · intro i hi
    rw [ty_eq, ty_eq, h.older_root, h.younger_root, h.meet, ty_eq, hroot i hi, h.own_eq, if_pos rfl]
  · intro i hi
    obtain ⟨hfind, ho, -⟩ := hout i hi
    rw [ty_eq, hfind, h.own_eq, if_neg ho, ← ty_eq]

theorem Merges.joined {older younger : Nat} {ty : Ty} (h : s.Merges a b older younger ty t) : s.Joined t a b := by
  have hjoins := h.joins
  rcases h.roots with ⟨rfl, rfl⟩ | ⟨rfl, rfl⟩
  · exact hjoins.of_find
  · exact hjoins.of_find.symm

theorem merge_succeeds {older younger : Nat} {ty : Ty} (hmeet : (s.ty older).meet (s.ty younger) = some ty)
    (hfits : ∀ v, s.value older = some v ∨ s.value younger = some v → ty.Accepts v.ty) :
    ∃ t, s.merge older younger = (.ok true, t) := by
  unfold merge
  rw [hmeet]
  simp only
  cases hv : (s.value older <|> s.value younger) with
  | none => exact ⟨_, rfl⟩
  | some v =>
      have hor : s.value older = some v ∨ s.value younger = some v := by
        cases ho : s.value older with
        | none =>
            rw [ho] at hv
            exact .inr hv
        | some w =>
            rw [ho] at hv
            exact .inl hv
      simp only
      rw [if_pos (hfits v hor)]
      exact ⟨_, rfl⟩

/-- Classes with at most one value unify if their types meet where it fits. -/
theorem unify_succeeds (hvalues : ∀ v w, s.value a = some v → s.value b = some w → v = w) {ty : Ty}
    (hmeet : (s.ty a).meet (s.ty b) = some ty)
    (hfits : ∀ v, s.value a = some v ∨ s.value b = some v → ty.Accepts v.ty) :
    ∃ t, s.unify a b = (.ok true, t) := by
  unfold unify
  by_cases hab : s.find a = s.find b
  · rw [if_pos hab]
    exact ⟨s, rfl⟩
  rw [if_neg hab]
  have hmerge : ∃ t, s.merge (min (s.find a) (s.find b)) (max (s.find a) (s.find b)) = (.ok true, t) := by
    rcases Nat.lt_or_gt_of_ne hab with hlt | hlt
    · rw [Nat.min_eq_left (Nat.le_of_lt hlt), Nat.max_eq_right (Nat.le_of_lt hlt)]
      apply merge_succeeds
      · simpa using hmeet
      · simpa using hfits
    · rw [Nat.min_eq_right (Nat.le_of_lt hlt), Nat.max_eq_left (Nat.le_of_lt hlt)]
      apply merge_succeeds
      · rw [ty_find, ty_find, Ty.meet_comm]
        exact hmeet
      · intro v hv
        rw [value_find, value_find] at hv
        exact hfits v hv.symm
  cases hv : s.value a with
  | none => exact hmerge
  | some v =>
      cases hw : s.value b with
      | none => exact hmerge
      | some w =>
          simp only [hvalues v w hv hw]
          exact ⟨s, by simp⟩

theorem bindOrCheck_succeeds {v : Value} (hvalues : ∀ w, s.value a = some w → w = v)
    (hfits : s.value a = none → (s.ty a).Accepts v.ty) : ∃ t, s.bindOrCheck a v = (.ok true, t) := by
  unfold bindOrCheck bindValue
  cases hw : s.value a with
  | some w =>
      simp only [hvalues w hw]
      exact ⟨s, by simp⟩
  | none =>
      simp only
      rw [if_pos (hfits hw)]
      exact ⟨_, rfl⟩

/-- An unbound class has got a value. -/
structure Given (s t : Store) (a : Nat) (v : Value) : Prop where
  size_eq : t.cells.size = s.cells.size
  find_eq : ∀ i, t.find i = s.find i
  unbound : s.value a = none
  value_in : ∀ i, s.find i = s.find a → t.value i = some v
  value_out : ∀ i, s.find i ≠ s.find a → t.value i = s.value i
  ty_eq : ∀ i, t.ty i = s.ty i

theorem given_bind (ha : a < s.cells.size) (hnone : s.value a = none) (v : Value) :
    s.Given (s.modify (s.find a) fun cell => { cell with value := some v }) a v where
  size_eq := size_modify ..
  find_eq := find_bind v _
  unbound := hnone
  value_in := fun i hi => by
    rw [value_eq, find_bind, hi, held, getElem?_modify, if_pos rfl, Array.getElem?_eq_getElem (find_lt ha)]
    rfl
  value_out := fun i hi => by rw [value_eq, find_bind, held_bind v hi, ← value_eq]
  ty_eq := fun i => by rw [Store.ty_eq, Store.ty_eq, find_bind, own_bind]

/-- A binding that succeeds finds the value there, or gives it to an unbound class. -/
theorem bindOrCheck_cases {v : Value} (ha : a < s.cells.size) (h : s.bindOrCheck a v = (.ok true, t)) :
    (t = s ∧ s.value a = some v) ∨ s.Given t a v := by
  unfold bindOrCheck bindValue at h
  cases hw : s.value a with
  | some w =>
      simp only [hw, Prod.mk.injEq, Except.ok.injEq, decide_eq_true_eq] at h
      exact .inl ⟨h.2.symm, congrArg some h.1⟩
  | none =>
      simp only [hw] at h
      by_cases hacc : (s.ty a).Accepts v.ty
      · rw [if_pos hacc] at h
        obtain rfl := (Prod.mk.inj h).2
        exact .inr (given_bind ha hw v)
      · rw [if_neg hacc] at h
        cases h

end Store
end Clausal
