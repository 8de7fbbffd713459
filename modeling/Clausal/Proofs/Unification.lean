import Clausal.Proofs.Forest

/-! Binding and unification on the forest. Main statement: when they succeed, they make the store
grow, and values still fit their types. -/
namespace Clausal

/-- Two types that meet are one type, or the narrower one where the other is the widest. -/
theorem Ty.meet_eq_some {s t u : Ty} (h : s.meet t = some u) : (s = u ∨ s = .any) ∧ (t = u ∨ t = .any) := by
  revert h
  cases s <;> cases t <;> cases u <;> decide

theorem Ty.Accepts.trans {s t u : Ty} (h : s.Accepts t) (h' : t.Accepts u) : s.Accepts u := by
  rcases h with rfl | rfl
  · exact .inl rfl
  · exact h'

namespace Store

variable {s : Store}

/-- A binding that succeeds finds the value there, or gives it to an unbound class that admits it. -/
theorem bindOrCheck_ok {c : Nat} {v : Value} {t : Store} (h : s.bindOrCheck c v = (.ok true, t)) :
    t = s ∨ (s.value c = none ∧ (s.ty c).Accepts v.ty ∧
      t = s.modify (s.find c) fun cell => { cell with value := some v }) := by
  unfold bindOrCheck bindValue at h
  cases hv : s.value c with
  | some w =>
      simp only [hv, Prod.mk.injEq] at h
      exact .inl h.2.symm
  | none =>
      simp only [hv] at h
      by_cases hacc : (s.ty c).Accepts v.ty
      · rw [if_pos hacc] at h
        exact .inr ⟨rfl, hacc, (Prod.mk.inj h).2.symm⟩
      · rw [if_neg hacc] at h
        cases h

section Bind

variable (v : Value)

theorem parent_bind (r i : Nat) :
    (s.modify r fun cell => { cell with value := some v }).parent i = s.parent i :=
  parent_modify (by intro cell; rfl) r i

@[simp] theorem find_bind (r i : Nat) : (s.modify r fun cell => { cell with value := some v }).find i = s.find i :=
  find_of_parents (fun i _ => .inl (parent_bind v r i)) (Nat.lt_succ_self i)

@[simp] theorem own_bind (r i : Nat) : (s.modify r fun cell => { cell with value := some v }).own i = s.own i :=
  own_modify (by intro cell; rfl) r i

theorem logged_bind (r : Nat) : s.Logged (s.modify r fun cell => { cell with value := some v }) :=
  .of_own (Nat.le_of_eq (size_modify ..).symm) rfl fun i _ => own_bind v r i

theorem held_bind {r i : Nat} (h : i ≠ r) :
    (s.modify r fun cell => { cell with value := some v }).held i = s.held i := by
  unfold held
  rw [getElem?_modify, if_neg h.symm]

theorem held_bind_self {r : Nat} {w : Value}
    (h : (s.modify r fun cell => { cell with value := some v }).held r = some w) : w = v := by
  unfold held at h
  rw [getElem?_modify, if_pos rfl] at h
  cases hr : s.cells[r]? with
  | none =>
      rw [hr] at h
      cases h
  | some cell =>
      rw [hr] at h
      exact (Option.some.inj h).symm

end Bind

theorem grows_bindOrCheck {c : Nat} {v : Value} {t : Store} (h : s.bindOrCheck c v = (.ok true, t)) :
    s.Grows t := by
  rcases bindOrCheck_ok h with rfl | ⟨hnone, -, rfl⟩
  · exact Grows.refl t
  · constructor
    · exact (logged_bind v _).size_le
    · exact (logged_bind v _).log
    · intro a b _ _ hab
      rw [find_bind, find_bind, hab]
    · intro i _ w hw
      have hne : s.find i ≠ s.find c := by
        intro heq
        rw [value_eq, heq, ← value_eq, hnone] at hw
        cases hw
      rw [value_eq, find_bind, held_bind v hne]
      exact hw

theorem Valid.bindOrCheck {c : Nat} {v : Value} {t : Store} (hs : s.Valid)
    (h : s.bindOrCheck c v = (.ok true, t)) : t.Valid := by
  rcases bindOrCheck_ok h with rfl | ⟨-, hacc, rfl⟩
  · exact hs
  · refine ⟨fun i w hw => ?_, hs.wide⟩
    rw [own_bind]
    by_cases hi : i = s.find c
    · subst hi
      obtain rfl := held_bind_self v hw
      exact hacc
    · rw [held_bind v hi] at hw
      exact hs.fits i w hw

section Link

variable {older younger : Nat} {ty : Ty} {value : Option Value} {aliases : List Alias}

theorem getElem?_link (i : Nat) : (s.link older younger ty value aliases).cells[i]? =
    (s.cells[i]?.map fun cell =>
      if younger = i then { cell with parent := older, value := none, aliases := [] } else cell).map fun cell =>
        if older = i then { cell with ty := ty, value := value, aliases := aliases } else cell := by
  unfold link
  simp only [Array.getElem?_modify]
  cases s.cells[i]? with
  | none => split <;> split <;> rfl
  | some cell => split <;> split <;> rfl

@[simp] theorem size_link : (s.link older younger ty value aliases).cells.size = s.cells.size := by
  unfold link
  rw [Array.size_modify, Array.size_modify]

theorem parent_link_younger (h : younger < s.cells.size) :
    (s.link older younger ty value aliases).parent younger = older := by
  unfold parent
  rw [getElem?_link, Array.getElem?_eq_getElem h]
  simp only [Option.map_some, if_pos]
  split <;> rfl

theorem parent_link_other {i : Nat} (h : i ≠ younger) :
    (s.link older younger ty value aliases).parent i = s.parent i := by
  unfold parent
  rw [getElem?_link]
  cases s.cells[i]? with
  | none => rfl
  | some cell =>
      simp only [Option.map_some, if_neg h.symm]
      split <;> rfl

theorem find_link (hlt : older < younger) (hy : younger < s.cells.size) (hro : s.find older = older)
    (hry : s.find younger = younger) (i : Nat) :
    (s.link older younger ty value aliases).find i = if s.find i = younger then older else s.find i :=
  find_of_link_roots hlt hro hry (parent_link_younger hy) (fun _ h => parent_link_other h) i

theorem own_link (h : older < s.cells.size) (i : Nat) :
    (s.link older younger ty value aliases).own i = if i = older then ty else s.own i := by
  unfold own
  rw [getElem?_link]
  by_cases hi : i = older
  · rw [hi, Array.getElem?_eq_getElem h]
    simp only [Option.map_some, if_pos]
    rfl
  · rw [if_neg hi]
    cases s.cells[i]? with
    | none => rfl
    | some cell =>
        simp only [Option.map_some, if_neg (Ne.symm hi)]
        split <;> rfl

theorem held_link (h : older < s.cells.size) (i : Nat) : (s.link older younger ty value aliases).held i =
    if i = older then value else if i = younger then none else s.held i := by
  unfold held
  rw [getElem?_link]
  by_cases hi : i = older
  · rw [hi, Array.getElem?_eq_getElem h]
    simp only [Option.map_some, if_pos]
    rfl
  · rw [if_neg hi]
    cases s.cells[i]? with
    | none => simp
    | some cell =>
        simp only [Option.map_some, if_neg (Ne.symm hi), @eq_comm _ younger i]
        split <;> rfl

theorem narrowings_link (h : s.find older = older) : (s.link older younger ty value aliases).narrowings =
    if s.own older = ty then s.narrowings else ⟨older, s.own older⟩ :: s.narrowings := by
  unfold link
  rw [ty_eq, h]

/-- A representative takes another type only if it had the widest one, and that is logged. -/
theorem logged_link (h : older < s.cells.size) (hro : s.find older = older)
    (hty : s.own older ≠ ty → s.own older = .any) : s.Logged (s.link older younger ty value aliases) := by
  have hsize : s.cells.size ≤ (s.link older younger ty value aliases).cells.size := Nat.le_of_eq size_link.symm
  by_cases hsame : s.own older = ty
  · refine .of_own hsize (by rw [narrowings_link hro, if_pos hsame]) fun i _ => ?_
    rw [own_link h]
    by_cases hi : i = older
    · rw [if_pos hi, hi, hsame]
    · rw [if_neg hi]
  · refine ⟨hsize, [⟨older, s.own older⟩], by rw [narrowings_link hro, if_neg hsame]; rfl, fun i _ => ?_⟩
    rw [own_link h]
    refine ⟨fun hi => ?_, fun hi => if_neg fun heq => hi (List.mem_singleton.mpr heq)⟩
    rw [List.mem_singleton.mp hi]
    exact hty hsame

end Link

/-- A merge that succeeds links the representatives under the type where theirs meet, which the value of
either of them fits. -/
theorem merge_ok {older younger : Nat} (hro : s.find older = older) (hry : s.find younger = younger) {t : Store}
    (h : s.merge older younger = (.ok true, t)) :
    ∃ ty, (s.own older).meet (s.own younger) = some ty ∧
      (∀ v, (s.held older <|> s.held younger) = some v → ty.Accepts v.ty) ∧
      t = s.link older younger ty (s.held older <|> s.held younger)
        (Alias.join (s.entries older) (s.entries younger)) := by
  unfold merge at h
  rw [ty_eq, ty_eq, value_eq, value_eq, hro, hry] at h
  cases hmeet : (s.own older).meet (s.own younger) with
  | none =>
      rw [hmeet] at h
      cases h
  | some ty =>
      rw [hmeet] at h
      simp only at h
      refine ⟨ty, rfl, ?_⟩
      cases hv : (s.held older <|> s.held younger) with
      | none =>
          rw [hv] at h
          exact ⟨fun v h => absurd h (Option.some_ne_none v).symm, (Prod.mk.inj h).2.symm⟩
      | some v =>
          rw [hv] at h
          simp only at h
          by_cases hacc : ty.Accepts v.ty
          · rw [if_pos hacc] at h
            exact ⟨fun w h => Option.some.inj h ▸ hacc, (Prod.mk.inj h).2.symm⟩
          · rw [if_neg hacc] at h
            cases h

/-- Two classes become one: of their representatives, the older one takes over the younger. At most one of them is
bound, and its value fits the type of both. -/
structure Merges (s : Store) (a b older younger : Nat) (ty : Ty) (t : Store) : Prop where
  lt : older < younger
  younger_lt : younger < s.cells.size
  roots : (older = s.find a ∧ younger = s.find b) ∨ (older = s.find b ∧ younger = s.find a)
  unbound : s.held older = none ∨ s.held younger = none
  meet : (s.own older).meet (s.own younger) = some ty
  fits : ∀ v, (s.held older <|> s.held younger) = some v → ty.Accepts v.ty
  eq : t = s.link older younger ty (s.held older <|> s.held younger) (Alias.join (s.entries older) (s.entries younger))

namespace Merges

variable {a b older younger : Nat} {ty : Ty} {t : Store}

theorem older_lt (h : s.Merges a b older younger ty t) : older < s.cells.size := Nat.lt_trans h.lt h.younger_lt

theorem older_root (h : s.Merges a b older younger ty t) : s.find older = older := by
  rcases h.roots with ⟨rfl, -⟩ | ⟨rfl, -⟩
  · exact find_find s a
  · exact find_find s b

theorem younger_root (h : s.Merges a b older younger ty t) : s.find younger = younger := by
  rcases h.roots with ⟨-, rfl⟩ | ⟨-, rfl⟩
  · exact find_find s b
  · exact find_find s a

theorem size_eq (h : s.Merges a b older younger ty t) : t.cells.size = s.cells.size := by rw [h.eq, size_link]

theorem find_eq (h : s.Merges a b older younger ty t) (i : Nat) :
    t.find i = if s.find i = younger then older else s.find i := by
  rw [h.eq]
  exact find_link h.lt h.younger_lt h.older_root h.younger_root i

theorem own_eq (h : s.Merges a b older younger ty t) (i : Nat) : t.own i = if i = older then ty else s.own i := by
  rw [h.eq, own_link h.older_lt]

theorem held_eq (h : s.Merges a b older younger ty t) (i : Nat) : t.held i =
    if i = older then (s.held older <|> s.held younger) else if i = younger then none else s.held i := by
  rw [h.eq, held_link h.older_lt]

theorem narrowings_eq (h : s.Merges a b older younger ty t) : t.narrowings =
    if s.own older = ty then s.narrowings else ⟨older, s.own older⟩ :: s.narrowings := by
  rw [h.eq, narrowings_link h.older_root]

/-- What is narrowed had the widest type. -/
theorem own_older (h : s.Merges a b older younger ty t) (hne : s.own older ≠ ty) : s.own older = .any :=
  (Ty.meet_eq_some h.meet).1.resolve_left hne

theorem logged (h : s.Merges a b older younger ty t) : s.Logged t := by
  rw [h.eq]
  exact logged_link h.older_lt h.older_root h.own_older

theorem grows (h : s.Merges a b older younger ty t) : s.Grows t := by
  constructor
  · exact h.logged.size_le
  · exact h.logged.log
  · intro i j _ _ hij
    rw [h.find_eq, h.find_eq, hij]
  · intro i _ v hv
    rw [value_eq] at hv ⊢
    rw [h.find_eq]
    by_cases hi : s.find i = younger
    · rw [hi] at hv
      rw [if_pos hi, h.held_eq, if_pos rfl, h.unbound.resolve_right (by rw [hv]; exact Option.some_ne_none v), hv]
      rfl
    · rw [if_neg hi, h.held_eq, if_neg hi]
      by_cases hi' : s.find i = older
      · rw [hi'] at hv
        rw [if_pos hi', hv]
        rfl
      · rw [if_neg hi', hv]

theorem valid (h : s.Merges a b older younger ty t) (hs : s.Valid) : t.Valid := by
  constructor
  · intro i v hv
    rw [h.held_eq] at hv
    rw [h.own_eq]
    by_cases hi : i = older
    · rw [if_pos hi] at hv ⊢
      exact h.fits v hv
    · rw [if_neg hi] at hv ⊢
      by_cases hi' : i = younger
      · rw [if_pos hi'] at hv
        cases hv
      · rw [if_neg hi'] at hv
        exact hs.fits i v hv
  · intro n hn
    rw [h.narrowings_eq] at hn
    by_cases hsame : s.own older = ty
    · rw [if_pos hsame] at hn
      exact hs.wide n hn
    · rw [if_neg hsame] at hn
      rcases List.mem_cons.mp hn with rfl | hn
      · exact h.own_older hsame
      · exact hs.wide n hn

end Merges

section Unify

variable {a b : Nat} {t : Store}

/-- A unification that succeeds finds one class, or two that hold one value, or merges the two. -/
theorem unify_ok (ha : a < s.cells.size) (hb : b < s.cells.size) (h : s.unify a b = (.ok true, t)) :
    (t = s ∧ (s.find a = s.find b ∨ ∃ v, s.value a = some v ∧ s.value b = some v)) ∨
      ∃ older younger ty, s.Merges a b older younger ty t := by
  unfold unify at h
  by_cases hab : s.find a = s.find b
  · rw [if_pos hab] at h
    exact .inl ⟨(Prod.mk.inj h).2.symm, .inl hab⟩
  rw [if_neg hab] at h
  have hmerged (hnone : s.value a = none ∨ s.value b = none)
      (hmerge : s.merge (min (s.find a) (s.find b)) (max (s.find a) (s.find b)) = (.ok true, t)) :
      ∃ older younger ty, s.Merges a b older younger ty t := by
    rcases Nat.lt_or_gt_of_ne hab with hlt | hlt
    · rw [Nat.min_eq_left (Nat.le_of_lt hlt), Nat.max_eq_right (Nat.le_of_lt hlt)] at hmerge
      obtain ⟨ty, hmeet, hfits, heq⟩ := merge_ok (find_find s a) (find_find s b) hmerge
      exact ⟨_, _, ty, hlt, find_lt hb, .inl ⟨rfl, rfl⟩, hnone, hmeet, hfits, heq⟩
    · rw [Nat.min_eq_right (Nat.le_of_lt hlt), Nat.max_eq_left (Nat.le_of_lt hlt)] at hmerge
      obtain ⟨ty, hmeet, hfits, heq⟩ := merge_ok (find_find s b) (find_find s a) hmerge
      exact ⟨_, _, ty, hlt, find_lt ha, .inr ⟨rfl, rfl⟩, hnone.symm, hmeet, hfits, heq⟩
  cases hv : s.value a with
  | none =>
      rw [hv] at h
      exact .inr (hmerged (.inl hv) h)
  | some v =>
      cases hw : s.value b with
      | none =>
          rw [hv, hw] at h
          exact .inr (hmerged (.inr hw) h)
      | some w =>
          simp only [hv, hw, Prod.mk.injEq, Except.ok.injEq, decide_eq_true_eq] at h
          obtain ⟨rfl, rfl⟩ := h
          exact .inl ⟨rfl, .inr ⟨v, rfl, rfl⟩⟩

theorem grows_unify (ha : a < s.cells.size) (hb : b < s.cells.size) (h : s.unify a b = (.ok true, t)) :
    s.Grows t := by
  rcases unify_ok ha hb h with ⟨rfl, -⟩ | ⟨older, younger, ty, hm⟩
  · exact Grows.refl t
  · exact hm.grows

theorem Valid.unify (hs : s.Valid) (ha : a < s.cells.size) (hb : b < s.cells.size) (h : s.unify a b = (.ok true, t)) :
    t.Valid := by
  rcases unify_ok ha hb h with ⟨rfl, -⟩ | ⟨older, younger, ty, hm⟩
  · exact hs
  · exact hm.valid hs

end Unify

end Store
end Clausal
