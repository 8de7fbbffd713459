import Clausal.Proofs.Solving

/-! Bindings and unifications in a store of new cells. They are equations between the cells, and the store
solves them. Main statement: all operations succeed exactly if the system is consistent, and then every
cell has the value that the system tells of it, whatever the order of the operations. -/
namespace Clausal

namespace Store

variable {s t : Store}

/-- Stores in which cells have only been made, each with or without a value. -/
inductive Fresh : Store → Prop where
  | empty : Fresh .empty
  | unbound {s : Store} (ty : Ty) : Fresh s → Fresh (s.allocate ty).2
  | bound {s t : Store} {ty : Ty} {v : Value} :
      Fresh s → (s.allocate ty).2.bindValue (s.allocate ty).1 v = (.ok (), t) → Fresh t
  | passed {s : Store} (a : Actual) (depth : Nat) : Fresh s → Fresh (s.allocateFor a depth).2

/-- One operation: an equation between cells is a binding or a unification. -/
def perform (s : Store) : Equation Nat → Except Error Bool × Store
  | .value c v => s.bindOrCheck c v
  | .same a b => s.unify a b

/-- Performs operations one after the other, and collects what they come to. -/
def performAll (s : Store) : List (Equation Nat) → List (Except Error Bool) × Store
  | [] => ([], s)
  | q :: qs => ((s.perform q).1 :: ((s.perform q).2.performAll qs).1, ((s.perform q).2.performAll qs).2)

def Succeeds (s : Store) (qs : List (Equation Nat)) : Prop := ∀ r ∈ (s.performAll qs).1, r = .ok true

instance (r : Except Error Bool) : Decidable (r = .ok true) :=
  match r with
  | .ok true => .isTrue rfl
  | .ok false => .isFalse nofun
  | .error _ => .isFalse nofun

instance (s : Store) (qs : List (Equation Nat)) : Decidable (s.Succeeds qs) :=
  inferInstanceAs (Decidable (∀ r ∈ (s.performAll qs).1, r = .ok true))

/-- The equations between the cells of a store, with what the cells hold already. -/
def system (s : Store) (qs : List (Equation Nat)) : System Nat := ⟨s.ty, s.value, qs⟩

theorem succeeds_cons {q : Equation Nat} {qs : List (Equation Nat)} :
    s.Succeeds (q :: qs) ↔ (s.perform q).1 = .ok true ∧ (s.perform q).2.Succeeds qs := by
  unfold Succeeds
  rw [performAll, List.forall_mem_cons]

section Fresh

theorem Valid.allocate (h : s.Valid) (ty : Ty) : (s.allocate ty).2.Valid where
  fits := fun c v hv => by
    rw [held_allocate] at hv
    rw [own_allocate]
    split at hv
    · cases hv
    · rename_i hc
      rw [if_neg hc]
      exact h.fits c v hv
  wide := h.wide

theorem bindOrCheck_of_bindValue {c : Nat} {v : Value} (h : s.bindValue c v = (.ok (), t)) :
    s.bindOrCheck c v = (.ok true, t) := by
  unfold bindOrCheck
  rw [h]
  unfold bindValue at h
  cases hv : s.value c with
  | none => rfl
  | some w =>
      rw [hv] at h
      cases h

theorem Fresh.roots (h : s.Fresh) : s.Valid ∧ ∀ c, s.find c = c := by
  induction h with
  | empty => exact ⟨⟨fun _ _ h => (nomatch h), fun _ h => (nomatch h)⟩, fun c => find_of_root (Nat.lt_irrefl c)⟩
  | unbound ty _ ih =>
      refine ⟨ih.1.allocate ty, fun c => ?_⟩
      rw [find_of_parents (fun i _ => .inl (parent_allocate ty i)) (Nat.lt_succ_self c), ih.2]
  | @bound s t ty v _ hbind ih =>
      have hcheck := bindOrCheck_of_bindValue hbind
      refine ⟨(ih.1.allocate ty).bindOrCheck hcheck, fun c => ?_⟩
      have hroots : ∀ i, (s.allocate ty).2.find i = i := by
        intro i
        rw [find_of_parents (fun i _ => .inl (parent_allocate ty i)) (Nat.lt_succ_self i), ih.2]
      rcases bindOrCheck_ok hcheck with rfl | ⟨-, -, rfl⟩
      · exact hroots c
      · rw [find_bind, hroots]
  | passed a depth _ ih =>
      refine ⟨ih.1.allocateFor a depth, fun c => ?_⟩
      rw [find_allocateFor, ih.2]

/-- New cells solve the system without equations. -/
theorem Fresh.solved (h : s.Fresh) : (s.system []).Solved (· < s.cells.size) id s := by
  obtain ⟨hvalid, hroots⟩ := h.roots
  apply System.Solved.initial hvalid rfl
  case hbounded => exact fun _ hc => hc
  case hapart =>
    intro a b _ _ hab
    rw [id, id, hroots, hroots] at hab
    exact hab
  case hty => exact fun _ _ => rfl
  case hvalue => exact fun _ _ => rfl

end Fresh
end Store

namespace System

variable {S : System Nat} {dom : Nat → Prop} {s t : Store}

theorem Solved.perform (h : S.Solved dom id s) {q : Equation Nat} (hq : ∀ c, q.Mentions c → dom c)
    (hok : (s.perform q).1 = .ok true) : (S.extend q).Solved dom id (s.perform q).2 := by
  cases q with
  | value c v => exact h.value (hq c rfl) (Prod.ext hok rfl)
  | same a b => exact h.same (hq a (.inl rfl)) (hq b (.inr rfl)) (Prod.ext hok rfl)

theorem Solved.perform_ok (h : S.Solved dom id s) {q : Equation Nat} (hq : ∀ c, q.Mentions c → dom c)
    (hcons : ∀ c, dom c → (S.extend q).Consistent c) : (s.perform q).1 = .ok true := by
  cases q with
  | value c v =>
      obtain ⟨t, ht⟩ := h.value_succeeds (hq c rfl) (hcons c (hq c rfl))
      exact congrArg Prod.fst ht
  | same a b =>
      obtain ⟨t, ht⟩ := h.same_succeeds (hq a (.inl rfl)) (hq b (.inr rfl)) (hcons a (hq a (.inl rfl)))
      exact congrArg Prod.fst ht

/-- Operations that succeed solve their equations one after the other. -/
theorem Solved.performAll (h : S.Solved dom id s) {qs : List (Equation Nat)}
    (hqs : ∀ q ∈ qs, ∀ c, q.Mentions c → dom c) (hok : s.Succeeds qs) :
    (S.extendAll qs).Solved dom id (s.performAll qs).2 := by
  induction qs generalizing S s with
  | nil =>
      rw [extendAll_nil]
      exact h
  | cons q qs ih =>
      obtain ⟨hfirst, hrest⟩ := Store.succeeds_cons.mp hok
      rw [extendAll_cons]
      exact ih (h.perform (hqs q List.mem_cons_self) hfirst) (fun r hr => hqs r (List.mem_cons_of_mem q hr)) hrest

/-- They succeed if the system that they end with is consistent, for then it was so all along. -/
theorem Solved.performAll_ok (h : S.Solved dom id s) {qs : List (Equation Nat)}
    (hqs : ∀ q ∈ qs, ∀ c, q.Mentions c → dom c) (hcons : ∀ c, dom c → (S.extendAll qs).Consistent c) :
    s.Succeeds qs := by
  induction qs generalizing S s with
  | nil => exact fun _ hr => absurd hr List.not_mem_nil
  | cons q qs ih =>
      rw [extendAll_cons] at hcons
      have hfirst : (s.perform q).1 = .ok true := by
        apply h.perform_ok (hqs q List.mem_cons_self)
        exact fun c hc => (hcons c hc).of_extendAll
      apply Store.succeeds_cons.mpr
      refine ⟨hfirst, ih (h.perform (hqs q List.mem_cons_self) hfirst) (fun r hr => ?_) hcons⟩
      exact hqs r (List.mem_cons_of_mem q hr)

end System

namespace Store

variable {s : Store} {qs qs' : List (Equation Nat)}

theorem Fresh.performed (h : s.Fresh) (hqs : ∀ q ∈ qs, ∀ c, q.Mentions c → c < s.cells.size) (hok : s.Succeeds qs) :
    (s.system qs).Solved (· < s.cells.size) id (s.performAll qs).2 := h.solved.performAll hqs hok

theorem Fresh.succeeds_iff (h : s.Fresh) (hqs : ∀ q ∈ qs, ∀ c, q.Mentions c → c < s.cells.size) :
    s.Succeeds qs ↔ ∀ c < s.cells.size, (s.system qs).Consistent c := by
  constructor
  · intro hok c hc
    exact (h.performed hqs hok).consistent hc
  · exact fun hcons => h.solved.performAll_ok hqs hcons

/-- In a store of new cells, operations all succeed exactly if the system of their equations is consistent.
Then a cell has the value that the system tells of it. Where it tells none, what is linked is one class, and
has the meet of all types in it. So neither success nor the values depend on the order. -/
theorem operations_solve (hs : s.Fresh) (hqs : ∀ q ∈ qs, ∀ c, q.Mentions c → c < s.cells.size) :
    (s.Succeeds qs ↔ ∀ c < s.cells.size, (s.system qs).Consistent c) ∧
      (s.Succeeds qs → ∀ c < s.cells.size,
        (∀ v, (s.performAll qs).2.value c = some v ↔ (s.system qs).Tells c v) ∧
          ((∀ v, ¬(s.system qs).Tells c v) →
            (s.performAll qs).2.value c = none ∧ (s.system qs).Meets c ((s.performAll qs).2.ty c) ∧
              ∀ d < s.cells.size, (s.performAll qs).2.find d = (s.performAll qs).2.find c ↔ (s.system qs).Linked c d)) ∧
      ∀ qs', qs.Perm qs' → (s.Succeeds qs' ↔ s.Succeeds qs) ∧
        (s.Succeeds qs → ∀ c < s.cells.size, (s.performAll qs').2.value c = (s.performAll qs).2.value c) := by
  refine ⟨hs.succeeds_iff hqs, fun hok c hc => ?_, fun qs' hperm => ?_⟩
  · have hsolved := hs.performed hqs hok
    refine ⟨fun v => hsolved.value_iff hc, fun hnone => ?_⟩
    have hunbound : (s.performAll qs).2.value c = none := by
      apply Option.eq_none_iff_forall_ne_some.mpr
      intro v hv
      exact hnone v ((hsolved.value_iff hc).mp hv)
    exact ⟨hunbound, hsolved.meets_of_unbound hc hunbound, fun d hd => hsolved.find_iff hc hunbound hd⟩
  · have hqs' : ∀ q ∈ qs', ∀ c, q.Mentions c → c < s.cells.size := fun q hq => hqs q (hperm.mem_iff.mpr hq)
    have hsame : (s.system qs).Rearranged (s.system qs') := (s.system []).rearranged_of_perm hperm
    have hiff : s.Succeeds qs' ↔ s.Succeeds qs := by
      rw [hs.succeeds_iff hqs', hs.succeeds_iff hqs]
      simp only [hsame.consistent_iff]
    refine ⟨hiff, fun hok c hc => ?_⟩
    apply Option.ext
    intro v
    have hleft := (hs.performed hqs' (hiff.mpr hok)).value_iff (v := v) hc
    have hright := (hs.performed hqs hok).value_iff (v := v) hc
    exact hleft.trans (hsame.tells_iff.symm.trans hright.symm)

end Store

def threeCells : Store :=
  (((Store.empty.allocate .any).2.allocate .int).2.allocateFor
    ⟨.shared 0, none, .any, some (.int 5), none, by decide⟩ 0).2

/-- The value of the third cell reaches the first one through the second. -/
theorem threeCells_solved :
    threeCells.Succeeds [.same 0 1, .same 1 2] ∧
      (threeCells.performAll [.same 0 1, .same 1 2]).2.value 0 = some (.int 5) := by
  have hfresh : threeCells.Fresh := .passed _ 0 (.unbound .int (.unbound .any .empty))
  have hqs : ∀ q ∈ [Equation.same 0 1, .same 1 2], ∀ c, q.Mentions c → c < threeCells.cells.size := by
    simp [Equation.Mentions, threeCells, Store.allocate, Store.allocateFor, Store.empty]
  obtain ⟨-, hvalues, -⟩ := Store.operations_solve hfresh hqs
  have hok : threeCells.Succeeds [.same 0 1, .same 1 2] := by decide +kernel
  refine ⟨hok, ?_⟩
  rw [(hvalues hok 0 (by decide)).1]
  have hlinked : (threeCells.system [.same 0 1, .same 1 2]).Linked 0 2 :=
    Relation.EqvGen.trans _ _ _ (.rel 0 1 (by decide)) (.rel 1 2 (by decide))
  exact ⟨2, hlinked, .inl (by decide +kernel)⟩

end Clausal
