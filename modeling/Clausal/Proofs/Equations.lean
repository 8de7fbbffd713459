import Clausal.Proofs.Unification
import Mathlib.Logic.Relation

/-! Systems of equations between typed variables and values. Bindings and unifications are such
equations, and a store is what solves them. Here a system is given its meaning without a store: what it
links, what values it tells, and when it is consistent. Main statements: a lower bound of some types
makes them meet, and the meaning of a system does not depend on the order of its equations. -/
namespace Clausal

namespace Ty

/-- The widest type that all of these types accept. -/
def IsMeet (types : Ty → Prop) (t : Ty) : Prop :=
  (∀ s, types s → s.Accepts t) ∧ ∀ u, (∀ s, types s → s.Accepts u) → t.Accepts u

theorem accepts_refl (t : Ty) : t.Accepts t := .inr rfl

theorem Accepts.antisymm {s t : Ty} (h : s.Accepts t) (h' : t.Accepts s) : s = t := by
  rcases h with rfl | h
  · rcases h' with rfl | h'
    · rfl
    · exact h'.symm
  · exact h

theorem IsMeet.unique {types : Ty → Prop} {s t : Ty} (hs : IsMeet types s) (ht : IsMeet types t) : s = t :=
  (hs.2 t ht.1).antisymm (ht.2 s hs.1)

/-- Types that some type fits together have a meet. -/
theorem exists_isMeet {types : Ty → Prop} {u : Ty} (hu : ∀ s, types s → s.Accepts u) : ∃ t, IsMeet types t := by
  by_cases hwide : ∀ s, types s → s = .any
  · refine ⟨.any, fun s hs => .inl (hwide s hs), fun _ _ => .inl rfl⟩
  · rw [Classical.not_forall] at hwide
    obtain ⟨s, hs⟩ := hwide
    rw [Classical.not_imp] at hs
    have hsu : s = u := (hu s hs.1).resolve_left hs.2
    exact ⟨u, hu, fun v hv => hsu ▸ hv s hs.1⟩

/-- The meet of two types is the widest type that both accept. -/
theorem accepts_of_meet {s t u : Ty} (h : s.meet t = some u) : s.Accepts u ∧ t.Accepts u := by
  obtain ⟨hs, ht⟩ := meet_eq_some h
  exact ⟨hs.symm, ht.symm⟩

theorem meet_of_accepts {s t v : Ty} (hs : s.Accepts v) (ht : t.Accepts v) :
    ∃ u, s.meet t = some u ∧ u.Accepts v := by
  revert hs ht
  cases s <;> cases t <;> cases v <;> decide

/-- Where the meets of two collections of types meet, there all of them meet. -/
theorem IsMeet.union {p q : Ty → Prop} {s t u : Ty} (hs : IsMeet p s) (ht : IsMeet q t) (h : s.meet t = some u) :
    IsMeet (fun r => p r ∨ q r) u := by
  obtain ⟨hsu, htu⟩ := accepts_of_meet h
  constructor
  · intro r hr
    rcases hr with hr | hr
    · exact (hs.1 r hr).trans hsu
    · exact (ht.1 r hr).trans htu
  · intro v hv
    obtain ⟨u', hmeet, hacc⟩ := meet_of_accepts (hs.2 v fun r hr => hv r (.inl hr)) (ht.2 v fun r hr => hv r (.inr hr))
    rw [h] at hmeet
    exact Option.some.inj hmeet ▸ hacc

end Ty

inductive Equation (ι : Type) where
  | value (x : ι) (v : Value)
  | same (x y : ι)
deriving DecidableEq

/-- Variables have types of their own, and some have a value from the start. -/
structure System (ι : Type) where
  ty : ι → Ty
  given : ι → Option Value
  equations : List (Equation ι)

namespace System

variable {ι : Type} {S : System ι} {x y : ι}

/-- A chain of equations leads from one variable to the other. -/
def Linked (S : System ι) : ι → ι → Prop := Relation.EqvGen fun x y => .same x y ∈ S.equations

/-- A variable linked to this one has the value, from the start or by an equation. -/
def Tells (S : System ι) (x : ι) (v : Value) : Prop :=
  ∃ y, S.Linked x y ∧ (S.given y = some v ∨ .value y v ∈ S.equations)

/-- The type is the meet of the types of all variables linked to this one. -/
def Meets (S : System ι) (x : ι) (t : Ty) : Prop := Ty.IsMeet (fun s => ∃ y, S.Linked x y ∧ S.ty y = s) t

/-- What is linked to the variable has no two values, and types that meet where the value fits. -/
def Consistent (S : System ι) (x : ι) : Prop :=
  (∀ v w, S.Tells x v → S.Tells x w → v = w) ∧ ∃ t, S.Meets x t ∧ ∀ v, S.Tells x v → t.Accepts v.ty

def extend (S : System ι) (q : Equation ι) : System ι := { S with equations := S.equations ++ [q] }

def extendAll (S : System ι) (qs : List (Equation ι)) : System ι := { S with equations := S.equations ++ qs }

@[simp] theorem extendAll_nil (S : System ι) : S.extendAll [] = S := by
  unfold extendAll
  rw [List.append_nil]

theorem extendAll_cons (S : System ι) (q : Equation ι) (qs : List (Equation ι)) :
    S.extendAll (q :: qs) = (S.extend q).extendAll qs := by
  unfold extendAll extend
  rw [List.append_assoc, List.singleton_append]

theorem Linked.symm (h : S.Linked x y) : S.Linked y x := Relation.EqvGen.symm _ _ h

theorem Linked.trans {z : ι} (h : S.Linked x y) (h' : S.Linked y z) : S.Linked x z := Relation.EqvGen.trans _ _ _ h h'

theorem Tells.of_linked {v : Value} (h : S.Linked x y) (ht : S.Tells y v) : S.Tells x v := by
  obtain ⟨z, hz, hv⟩ := ht
  exact ⟨z, h.trans hz, hv⟩

theorem Linked.mono {T : System ι} (hsub : ∀ q ∈ S.equations, q ∈ T.equations) (h : S.Linked x y) : T.Linked x y :=
  Relation.EqvGen.mono (fun _ _ hq => hsub _ hq) _ _ h

theorem Tells.mono {T : System ι} (hgiven : T.given = S.given) (hsub : ∀ q ∈ S.equations, q ∈ T.equations) {v : Value}
    (h : S.Tells x v) : T.Tells x v := by
  obtain ⟨y, hy, hv⟩ := h
  refine ⟨y, hy.mono hsub, ?_⟩
  rcases hv with hv | hv
  · exact .inl (hgiven ▸ hv)
  · exact .inr (hsub _ hv)

/-- Fewer equations are consistent if more are. -/
theorem Consistent.anti {T : System ι} (hty : T.ty = S.ty) (hgiven : T.given = S.given)
    (hsub : ∀ q ∈ S.equations, q ∈ T.equations) (h : T.Consistent x) : S.Consistent x := by
  obtain ⟨hvalues, t, hmeet, hfits⟩ := h
  refine ⟨fun v w hv hw => hvalues v w (hv.mono hgiven hsub) (hw.mono hgiven hsub), ?_⟩
  have hbound : ∀ s, (∃ y, S.Linked x y ∧ S.ty y = s) → s.Accepts t := by
    rintro s ⟨y, hy, rfl⟩
    exact hmeet.1 _ ⟨y, hy.mono hsub, by rw [hty]⟩
  obtain ⟨u, hu⟩ := Ty.exists_isMeet hbound
  exact ⟨u, hu, fun v hv => (hu.2 t hbound).trans (hfits v (hv.mono hgiven hsub))⟩

theorem Consistent.of_extendAll {qs : List (Equation ι)} (h : (S.extendAll qs).Consistent x) : S.Consistent x :=
  .anti (T := S.extendAll qs) rfl rfl (fun _ hq => List.mem_append_left qs hq) h

/-- The same equations in another order, or repeated. -/
structure Rearranged (S T : System ι) : Prop where
  ty_eq : T.ty = S.ty
  given_eq : T.given = S.given
  mem_iff : ∀ q, q ∈ S.equations ↔ q ∈ T.equations

theorem rearranged_of_perm (S : System ι) {qs qs' : List (Equation ι)} (h : qs.Perm qs') :
    (S.extendAll qs).Rearranged (S.extendAll qs') :=
  ⟨rfl, rfl, fun _ => (h.append_left S.equations).mem_iff⟩

theorem Rearranged.linked_iff {T : System ι} (h : S.Rearranged T) : S.Linked x y ↔ T.Linked x y :=
  ⟨.mono fun q => (h.mem_iff q).mp, .mono fun q => (h.mem_iff q).mpr⟩

theorem Rearranged.tells_iff {T : System ι} (h : S.Rearranged T) {v : Value} : S.Tells x v ↔ T.Tells x v :=
  ⟨.mono h.given_eq fun q => (h.mem_iff q).mp, .mono h.given_eq.symm fun q => (h.mem_iff q).mpr⟩

theorem Rearranged.consistent_iff {T : System ι} (h : S.Rearranged T) : S.Consistent x ↔ T.Consistent x :=
  ⟨.anti h.ty_eq.symm h.given_eq.symm fun q => (h.mem_iff q).mpr, .anti h.ty_eq h.given_eq fun q => (h.mem_iff q).mp⟩

theorem Rearranged.meets_iff {T : System ι} (h : S.Rearranged T) {t : Ty} : S.Meets x t ↔ T.Meets x t := by
  unfold Meets
  simp only [h.linked_iff, h.ty_eq]

end System
end Clausal
