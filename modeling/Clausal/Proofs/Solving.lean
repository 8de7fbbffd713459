import Clausal.Proofs.Equations
import Clausal.Proofs.Merging

/-! Solving equations in a store. Two bound classes are compared and stay apart, so a class may be less
than what is linked; a value then takes the place of the link. Main statements: an operation that
succeeds solves one equation more, and it succeeds if the system with that equation is consistent. -/
namespace Clausal

def Equation.Mentions {ι : Type} : Equation ι → ι → Prop
  | .value x _, z => z = x
  | .same x y, z => z = x ∨ z = y

namespace System

variable {ι : Type} {S : System ι} {dom : ι → Prop} {cell : ι → Nat} {s t : Store} {x y : ι} {v : Value}

/-- The store solves the system, whose variables so far have these cells. Two linked variables share a
class, or else both have the value that their classes hold. -/
structure Solved (S : System ι) (dom : ι → Prop) (cell : ι → Nat) (s : Store) : Prop where
  valid : s.Valid
  bounded : ∀ x, dom x → cell x < s.cells.size
  mentioned : ∀ q ∈ S.equations, ∀ x, q.Mentions x → dom x
  linked : ∀ x y, dom x → dom y → s.find (cell x) = s.find (cell y) → S.Linked x y
  joined : ∀ x y, .same x y ∈ S.equations → s.find (cell x) = s.find (cell y) ∨
    ∃ v, s.value (cell x) = some v ∧ s.value (cell y) = some v
  told : ∀ x v, dom x → s.value (cell x) = some v → S.Tells x v
  kept : ∀ x v, dom x → S.given x = some v ∨ .value x v ∈ S.equations → s.value (cell x) = some v
  meets : ∀ x, dom x → Ty.IsMeet (fun ty => ∃ y, dom y ∧ s.find (cell y) = s.find (cell x) ∧ S.ty y = ty)
    (s.ty (cell x))

theorem Linked.dom_iff (hm : ∀ q ∈ S.equations, ∀ x, q.Mentions x → dom x) (h : S.Linked x y) : dom x ↔ dom y := by
  induction h with
  | rel x y hq => exact ⟨fun _ => hm _ hq y (.inr rfl), fun _ => hm _ hq x (.inl rfl)⟩
  | refl x => exact Iff.rfl
  | symm x y _ ih => exact ih.symm
  | trans x y z _ _ ih ih' => exact ih.trans ih'

namespace Solved

theorem of_linked (h : S.Solved dom cell s) (hxy : S.Linked x y) : s.find (cell x) = s.find (cell y) ∨
    ∃ v, s.value (cell x) = some v ∧ s.value (cell y) = some v := by
  induction hxy with
  | rel x y hq => exact h.joined x y hq
  | refl x => exact .inl rfl
  | symm x y _ ih =>
      rcases ih with ih | ⟨v, hx, hy⟩
      · exact .inl ih.symm
      · exact .inr ⟨v, hy, hx⟩
  | trans x y z _ _ ih ih' =>
      rcases ih with ih | ⟨v, hx, hy⟩
      · rcases ih' with ih' | ⟨w, hy, hz⟩
        · exact .inl (ih.trans ih')
        · exact .inr ⟨w, by rw [Store.value_congr ih, hy], hz⟩
      · rcases ih' with ih' | ⟨w, hy', hz⟩
        · exact .inr ⟨v, hx, by rw [← Store.value_congr ih', hy]⟩
        · rw [hy] at hy'
          cases hy'
          exact .inr ⟨v, hx, hz⟩

theorem value_congr (h : S.Solved dom cell s) (hxy : S.Linked x y) : s.value (cell x) = s.value (cell y) := by
  rcases h.of_linked hxy with hfind | ⟨v, hx, hy⟩
  · exact Store.value_congr hfind
  · rw [hx, hy]

/-- A class holds what the system tells of its variables. -/
theorem value_iff (h : S.Solved dom cell s) (hx : dom x) : s.value (cell x) = some v ↔ S.Tells x v := by
  constructor
  · exact h.told x v hx
  · rintro ⟨y, hxy, hv⟩
    rw [h.value_congr hxy]
    exact h.kept y v ((hxy.dom_iff h.mentioned).mp hx) hv

/-- The class of an unbound variable is all that is linked to it. -/
theorem find_iff (h : S.Solved dom cell s) (hx : dom x) (hnone : s.value (cell x) = none) (hy : dom y) :
    s.find (cell y) = s.find (cell x) ↔ S.Linked x y := by
  constructor
  · intro hfind
    exact h.linked x y hx hy hfind.symm
  · intro hxy
    rcases h.of_linked hxy with hfind | ⟨v, hv, -⟩
    · exact hfind.symm
    · rw [hnone] at hv
      cases hv

theorem meets_of_unbound (h : S.Solved dom cell s) (hx : dom x) (hnone : s.value (cell x) = none) :
    S.Meets x (s.ty (cell x)) := by
  have hclass : (fun ty => ∃ y, S.Linked x y ∧ S.ty y = ty) =
      fun ty => ∃ y, dom y ∧ s.find (cell y) = s.find (cell x) ∧ S.ty y = ty := by
    funext ty
    apply propext
    constructor
    · rintro ⟨y, hxy, hty⟩
      have hy := (hxy.dom_iff h.mentioned).mp hx
      exact ⟨y, hy, (h.find_iff hx hnone hy).mpr hxy, hty⟩
    · rintro ⟨y, hy, hfind, hty⟩
      exact ⟨y, (h.find_iff hx hnone hy).mp hfind, hty⟩
  unfold Meets
  rw [hclass]
  exact h.meets x hx

theorem accepts (h : S.Solved dom cell s) (hx : dom x) : (S.ty x).Accepts (s.ty (cell x)) :=
  (h.meets x hx).1 _ ⟨x, hx, rfl, rfl⟩

/-- A system that a store solves is consistent. -/
theorem consistent (h : S.Solved dom cell s) (hx : dom x) : S.Consistent x := by
  constructor
  · intro v w hv hw
    rw [← h.value_iff hx] at hv hw
    rw [hv] at hw
    exact Option.some.inj hw
  · cases hvalue : s.value (cell x) with
    | none =>
        refine ⟨_, h.meets_of_unbound hx hvalue, fun v hv => ?_⟩
        rw [← h.value_iff hx, hvalue] at hv
        cases hv
    | some w =>
        have hbound : ∀ ty, (∃ y, S.Linked x y ∧ S.ty y = ty) → ty.Accepts w.ty := by
          rintro ty ⟨y, hxy, rfl⟩
          have hy := (hxy.dom_iff h.mentioned).mp hx
          have hw : s.value (cell y) = some w := by rw [← h.value_congr hxy, hvalue]
          exact (h.accepts hy).trans (h.valid.value_fits hw)
        obtain ⟨ty, hty⟩ := Ty.exists_isMeet hbound
        refine ⟨ty, hty, fun v hv => ?_⟩
        rw [← h.value_iff hx, hvalue] at hv
        cases hv
        exact hty.2 w.ty hbound

theorem linked_extend (h : S.Linked x y) (q : Equation ι) : (S.extend q).Linked x y :=
  h.mono fun _ hq => List.mem_append_left _ hq

theorem tells_extend (h : S.Tells x v) (q : Equation ι) : (S.extend q).Tells x v :=
  Tells.mono (S := S) (T := S.extend q) rfl (fun _ hq => List.mem_append_left _ hq) h

/-- Classes and values last, so that what remains to be shown of a store that solves one equation more is
this equation, and that nothing but the equations has changed it. -/
theorem extend (h : S.Solved dom cell s) {q : Equation ι} (hvalid : t.Valid) (hsize : t.cells.size = s.cells.size)
    (hclass : ∀ i j, s.find i = s.find j → t.find i = t.find j)
    (hkeep : ∀ i v, s.value i = some v → t.value i = some v) (hm : ∀ x, q.Mentions x → dom x)
    (hsame : ∀ x y, q = .same x y → t.find (cell x) = t.find (cell y) ∨
      ∃ v, t.value (cell x) = some v ∧ t.value (cell y) = some v)
    (hvalue : ∀ x v, q = .value x v → t.value (cell x) = some v)
    (hlinked : ∀ x y, dom x → dom y → t.find (cell x) = t.find (cell y) → (S.extend q).Linked x y)
    (htold : ∀ x v, dom x → t.value (cell x) = some v → (S.extend q).Tells x v)
    (hmeets : ∀ x, dom x → Ty.IsMeet (fun ty => ∃ y, dom y ∧ t.find (cell y) = t.find (cell x) ∧ S.ty y = ty)
      (t.ty (cell x))) : (S.extend q).Solved dom cell t := by
  have hsplit : ∀ {r}, r ∈ (S.extend q).equations → r ∈ S.equations ∨ r = q := by
    intro r hr
    rcases List.mem_append.mp hr with hr | hr
    · exact .inl hr
    · exact .inr (List.mem_singleton.mp hr)
  refine ⟨hvalid, fun x hx => hsize ▸ h.bounded x hx, fun r hr => ?_, hlinked, fun x y hr => ?_, htold,
    fun x v hx hr => ?_, hmeets⟩
  · rcases hsplit hr with hr | rfl
    · exact h.mentioned r hr
    · exact hm
  · rcases hsplit hr with hr | hr
    · rcases h.joined x y hr with hfind | ⟨v, hx, hy⟩
      · exact .inl (hclass _ _ hfind)
      · exact .inr ⟨v, hkeep _ v hx, hkeep _ v hy⟩
    · exact hsame x y hr.symm
  · rcases hr with hr | hr
    · exact hkeep _ v (h.kept x v hx (.inl hr))
    · rcases hsplit hr with hr | hr
      · exact hkeep _ v (h.kept x v hx (.inr hr))
      · exact hvalue x v hr.symm

theorem extend_held (h : S.Solved dom cell s) {q : Equation ι} (hm : ∀ x, q.Mentions x → dom x)
    (hsame : ∀ x y, q = .same x y → s.find (cell x) = s.find (cell y) ∨
      ∃ v, s.value (cell x) = some v ∧ s.value (cell y) = some v)
    (hvalue : ∀ x v, q = .value x v → s.value (cell x) = some v) : (S.extend q).Solved dom cell s :=
  h.extend h.valid rfl (fun _ _ => id) (fun _ _ => id) hm hsame hvalue
    (fun x y hx hy hxy => linked_extend (h.linked x y hx hy hxy) q) (fun x v hx hv => tells_extend (h.told x v hx hv) q)
    h.meets

theorem value (h : S.Solved dom cell s) (hx : dom x) (hbind : s.bindOrCheck (cell x) v = (.ok true, t)) :
    (S.extend (.value x v)).Solved dom cell t := by
  have hm : ∀ z, (Equation.value x v).Mentions z → dom z := by
    rintro z rfl
    exact hx
  have hnot : ∀ y z, Equation.value x v ≠ .same y z := by
    intro y z heq
    cases heq
  have htells : (S.extend (.value x v)).Tells x v :=
    ⟨x, .refl x, .inr (List.mem_append_right _ (List.mem_singleton_self _))⟩
  rcases Store.bindOrCheck_cases (h.bounded x hx) hbind with ⟨rfl, hv⟩ | hgiven
  · refine h.extend_held hm (fun y z heq => absurd heq (hnot y z)) fun y w heq => ?_
    cases heq
    exact hv
  · apply h.extend (h.valid.bindOrCheck hbind) hgiven.size_eq
    case hclass =>
      intro i j hij
      rw [hgiven.find_eq, hgiven.find_eq, hij]
    case hkeep =>
      intro i w hw
      rw [hgiven.value_out i fun hi => ?_, hw]
      rw [Store.value_congr hi, hgiven.unbound] at hw
      cases hw
    case hm => exact hm
    case hsame => exact fun y z heq => absurd heq (hnot y z)
    case hvalue =>
      intro y w heq
      cases heq
      exact hgiven.value_in _ rfl
    case hlinked =>
      intro y z hy hz hyz
      rw [hgiven.find_eq, hgiven.find_eq] at hyz
      exact linked_extend (h.linked y z hy hz hyz) _
    case htold =>
      intro y w hy hw
      by_cases hfind : s.find (cell y) = s.find (cell x)
      · rw [hgiven.value_in _ hfind] at hw
        cases hw
        exact .of_linked (linked_extend (h.linked y x hy hx hfind) _) htells
      · rw [hgiven.value_out _ hfind] at hw
        exact tells_extend (h.told y w hy hw) _
    case hmeets =>
      intro y hy
      simp only [hgiven.find_eq, hgiven.ty_eq]
      exact h.meets y hy

theorem meets_joined (h : S.Solved dom cell s) (hx : dom x) (hy : dom y) (hj : s.Joined t (cell x) (cell y)) {z : ι}
    (hz : dom z) : Ty.IsMeet (fun ty => ∃ w, dom w ∧ t.find (cell w) = t.find (cell z) ∧ S.ty w = ty)
      (t.ty (cell z)) := by
  by_cases hin : s.Either (cell x) (cell y) (cell z)
  · have hunion := (h.meets x hx).union (h.meets y hy) (hj.meet _ hin)
    have hclass : (fun ty => ∃ w, dom w ∧ t.find (cell w) = t.find (cell z) ∧ S.ty w = ty) =
        fun ty => (∃ w, dom w ∧ s.find (cell w) = s.find (cell x) ∧ S.ty w = ty) ∨
          ∃ w, dom w ∧ s.find (cell w) = s.find (cell y) ∧ S.ty w = ty := by
      funext ty
      simp only [hj.find_in hin, Store.Either, or_and_right, and_or_left, exists_or]
    rw [hclass]
    exact hunion
  · simp only [hj.find_out hin, hj.ty_out _ hin]
    exact h.meets z hz

theorem same (h : S.Solved dom cell s) (hx : dom x) (hy : dom y)
    (hunify : s.unify (cell x) (cell y) = (.ok true, t)) : (S.extend (.same x y)).Solved dom cell t := by
  have hm : ∀ z, (Equation.same x y).Mentions z → dom z := by
    rintro z (rfl | rfl)
    · exact hx
    · exact hy
  have hnot : ∀ z w, Equation.same x y ≠ .value z w := by
    intro z w heq
    cases heq
  rcases Store.unify_ok (h.bounded x hx) (h.bounded y hy) hunify with ⟨rfl, hheld⟩ | ⟨older, younger, ty, hmerges⟩
  · refine h.extend_held hm (fun z w heq => ?_) fun z w heq => absurd heq (hnot z w)
    cases heq
    exact hheld
  · have hj := hmerges.joined
    have hxy : (S.extend (.same x y)).Linked x y :=
      .rel _ _ (List.mem_append_right _ (List.mem_singleton_self _))
    have hlinked : ∀ z, dom z → s.Either (cell x) (cell y) (cell z) → (S.extend (.same x y)).Linked z x := by
      rintro z hz (hfind | hfind)
      · exact linked_extend (h.linked z x hz hx hfind) _
      · exact (linked_extend (h.linked z y hz hy hfind) _).trans hxy.symm
    apply h.extend (h.valid.unify (h.bounded x hx) (h.bounded y hy) hunify) hj.size_eq
    case hclass => exact fun i j hij => (hj.find_iff i j).mpr (.inl hij)
    case hkeep => exact fun i v hv => hj.value_of hv
    case hm => exact hm
    case hsame =>
      intro z w heq
      cases heq
      exact .inl ((hj.find_iff _ _).mpr (.inr ⟨.inl rfl, .inr rfl⟩))
    case hvalue => exact fun z w heq => absurd heq (hnot z w)
    case hlinked =>
      intro z w hz hw hzw
      rcases (hj.find_iff _ _).mp hzw with hfind | ⟨hzin, hwin⟩
      · exact linked_extend (h.linked z w hz hw hfind) _
      · exact (hlinked z hz hzin).trans (hlinked w hw hwin).symm
    case htold =>
      intro z v hz hv
      by_cases hin : s.Either (cell x) (cell y) (cell z)
      · rcases hj.of_value hin hv with hv | hv
        · exact .of_linked (hlinked z hz hin) (tells_extend (h.told x v hx hv) _)
        · exact .of_linked ((hlinked z hz hin).trans hxy) (tells_extend (h.told y v hy hv) _)
      · rw [hj.value_out _ hin] at hv
        exact tells_extend (h.told z v hz hv) _
    case hmeets => exact fun z hz => h.meets_joined hx hy hj hz

/-- A system without equations is solved where each variable has a class of its own, with its type and its value. -/
theorem initial (hvalid : s.Valid) (hnone : S.equations = []) (hbounded : ∀ x, dom x → cell x < s.cells.size)
    (hapart : ∀ x y, dom x → dom y → s.find (cell x) = s.find (cell y) → x = y)
    (hty : ∀ x, dom x → s.ty (cell x) = S.ty x) (hvalue : ∀ x, dom x → s.value (cell x) = S.given x) :
    S.Solved dom cell s := by
  have hempty : ∀ q, q ∉ S.equations := by
    rw [hnone]
    exact fun _ => List.not_mem_nil
  constructor
  case valid => exact hvalid
  case bounded => exact hbounded
  case mentioned => exact fun q hq => absurd hq (hempty q)
  case linked =>
    intro x y hx hy hxy
    rw [hapart x y hx hy hxy]
    exact .refl y
  case joined => exact fun _ _ hq => absurd hq (hempty _)
  case told =>
    intro x v hx hv
    rw [hvalue x hx] at hv
    exact ⟨x, .refl x, .inl hv⟩
  case kept =>
    intro x v hx hv
    rw [hvalue x hx]
    exact hv.resolve_right (hempty _)
  case meets =>
    intro x hx
    rw [hty x hx]
    constructor
    · rintro ty ⟨y, hy, hxy, rfl⟩
      rw [hapart y x hy hx hxy]
      exact Ty.accepts_refl _
    · exact fun ty hall => hall _ ⟨x, hx, rfl, rfl⟩

theorem view (h : S.Solved dom cell s) {cell' : ι → Nat} (hvalid : t.Valid)
    (hbounded : ∀ x, dom x → cell' x < t.cells.size)
    (hclass : ∀ x y, dom x → dom y → (t.find (cell' x) = t.find (cell' y) ↔ s.find (cell x) = s.find (cell y)))
    (hvalue : ∀ x, dom x → t.value (cell' x) = s.value (cell x))
    (hty : ∀ x, dom x → t.ty (cell' x) = s.ty (cell x)) : S.Solved dom cell' t := by
  constructor
  case valid => exact hvalid
  case bounded => exact hbounded
  case mentioned => exact h.mentioned
  case linked => exact fun x y hx hy hxy => h.linked x y hx hy ((hclass x y hx hy).mp hxy)
  case joined =>
    intro x y hq
    have hx := h.mentioned _ hq x (.inl rfl)
    have hy := h.mentioned _ hq y (.inr rfl)
    rw [hclass x y hx hy, hvalue x hx, hvalue y hy]
    exact h.joined x y hq
  case told =>
    intro x v hx
    rw [hvalue x hx]
    exact h.told x v hx
  case kept =>
    intro x v hx
    rw [hvalue x hx]
    exact h.kept x v hx
  case meets =>
    intro x hx
    have hsame : (fun ty => ∃ y, dom y ∧ t.find (cell' y) = t.find (cell' x) ∧ S.ty y = ty) =
        fun ty => ∃ y, dom y ∧ s.find (cell y) = s.find (cell x) ∧ S.ty y = ty := by
      funext ty
      apply propext
      apply exists_congr
      intro y
      apply and_congr_right
      intro hy
      rw [hclass y x hy hx]
    rw [hty x hx, hsame]
    exact h.meets x hx

theorem alike (h : S.Solved dom cell s) (halike : s.Alike t) : S.Solved dom (fun x => s.find (cell x)) t := by
  apply h.view (halike.valid h.valid)
  case hbounded =>
    intro x hx
    rw [halike.size_eq]
    exact Store.find_lt (h.bounded x hx)
  case hclass =>
    intro x y _ _
    simp [halike.find_eq]
  case hvalue =>
    intro x _
    simp [halike.value_eq]
  case hty =>
    intro x _
    simp [halike.ty_eq]

theorem enlarge (h : S.Solved dom cell s) {dom' : ι → Prop} (hdom : ∀ y, dom' y ↔ dom y ∨ y = x) (hx : ¬dom x)
    (hbounded : cell x < s.cells.size) (hapart : ∀ y, dom y → s.find (cell y) ≠ s.find (cell x))
    (hty : s.ty (cell x) = S.ty x) (hvalue : s.value (cell x) = S.given x) : S.Solved dom' cell s := by
  constructor
  case valid => exact h.valid
  case bounded =>
    intro y hy
    rcases (hdom y).mp hy with hy | rfl
    · exact h.bounded y hy
    · exact hbounded
  case mentioned => exact fun q hq y hy => (hdom y).mpr (.inl (h.mentioned q hq y hy))
  case linked =>
    intro y z hy hz hyz
    rcases (hdom y).mp hy with hy | rfl
    · rcases (hdom z).mp hz with hz | rfl
      · exact h.linked y z hy hz hyz
      · exact absurd hyz (hapart y hy)
    · rcases (hdom z).mp hz with hz | rfl
      · exact absurd hyz.symm (hapart z hz)
      · exact .refl _
  case joined => exact h.joined
  case told =>
    intro y v hy hv
    rcases (hdom y).mp hy with hy | rfl
    · exact h.told y v hy hv
    · rw [hvalue] at hv
      exact ⟨y, .refl y, .inl hv⟩
  case kept =>
    intro y v hy hv
    rcases (hdom y).mp hy with hy | rfl
    · exact h.kept y v hy hv
    · rcases hv with hv | hv
      · rw [hvalue, hv]
      · exact absurd (h.mentioned _ hv y rfl) hx
  case meets =>
    intro y hy
    rcases (hdom y).mp hy with hy | rfl
    · have hsame : (fun ty => ∃ z, dom' z ∧ s.find (cell z) = s.find (cell y) ∧ S.ty z = ty) =
          fun ty => ∃ z, dom z ∧ s.find (cell z) = s.find (cell y) ∧ S.ty z = ty := by
        funext ty
        apply propext
        constructor
        · rintro ⟨z, hz, hzy, hty⟩
          rcases (hdom z).mp hz with hz | rfl
          · exact ⟨z, hz, hzy, hty⟩
          · exact absurd hzy.symm (hapart y hy)
        · rintro ⟨z, hz, hzy, hty⟩
          exact ⟨z, (hdom z).mpr (.inl hz), hzy, hty⟩
      rw [hsame]
      exact h.meets y hy
    · rw [hty]
      constructor
      · rintro ty ⟨z, hz, hzy, rfl⟩
        rcases (hdom z).mp hz with hz | rfl
        · exact absurd hzy (hapart z hz)
        · exact Ty.accepts_refl _
      · exact fun ty hall => hall _ ⟨y, hy, rfl, rfl⟩

theorem alloc (h : S.Solved dom cell s) {dom' : ι → Prop} {cell' : ι → Nat} (hdom : ∀ y, dom' y ↔ dom y ∨ y = x)
    (hx : ¬dom x) (hold : ∀ y, dom y → cell' y = cell y) (hnew : cell' x = s.cells.size) {a : Actual}
    (hty : S.ty x = a.ty) (hgiven : S.given x = a.value) (depth : Nat) :
    S.Solved dom' cell' (s.allocateFor a depth).2 := by
  have hroot : s.find s.cells.size = s.cells.size := Store.find_of_ge (Nat.le_refl _)
  have hview : S.Solved dom cell' (s.allocateFor a depth).2 := by
    apply h.view (h.valid.allocateFor a depth)
    case hbounded =>
      intro y hy
      rw [hold y hy, Store.size_allocateFor]
      exact Nat.lt_succ_of_lt (h.bounded y hy)
    case hclass =>
      intro y z hy hz
      simp [hold y hy, hold z hz]
    case hvalue =>
      intro y hy
      rw [hold y hy, Store.value_allocateFor a depth (h.bounded y hy)]
    case hty =>
      intro y hy
      rw [hold y hy, Store.ty_allocateFor a depth (h.bounded y hy)]
  apply hview.enlarge hdom hx
  case hbounded =>
    simp [hnew]
  case hapart =>
    intro y hy
    rw [Store.find_allocateFor, Store.find_allocateFor, hold y hy, hnew, hroot]
    exact Nat.ne_of_lt (Store.find_lt (h.bounded y hy))
  case hty => rw [Store.ty_eq, Store.find_allocateFor, hnew, hroot, Store.own_allocateFor, if_pos rfl, hty]
  case hvalue => rw [Store.value_eq, Store.find_allocateFor, hnew, hroot, Store.held_allocateFor, if_pos rfl, hgiven]

/-- A binding succeeds if its equation is consistent with the system. -/
theorem value_succeeds (h : S.Solved dom cell s) (hx : dom x) (hcons : (S.extend (.value x v)).Consistent x) :
    ∃ t, s.bindOrCheck (cell x) v = (.ok true, t) := by
  obtain ⟨hvalues, ty, hmeet, hfits⟩ := hcons
  have htells : (S.extend (.value x v)).Tells x v :=
    ⟨x, .refl x, .inr (List.mem_append_right _ (List.mem_singleton_self _))⟩
  apply Store.bindOrCheck_succeeds
  · intro w hw
    exact hvalues w v (tells_extend (h.told x w hx hw) _) htells
  · intro hnone
    apply Ty.Accepts.trans _ (hfits v htells)
    apply (h.meets_of_unbound hx hnone).2
    rintro s ⟨y, hxy, rfl⟩
    exact hmeet.1 _ ⟨y, linked_extend hxy _, rfl⟩

theorem same_succeeds (h : S.Solved dom cell s) (hx : dom x) (hy : dom y)
    (hcons : (S.extend (.same x y)).Consistent x) : ∃ t, s.unify (cell x) (cell y) = (.ok true, t) := by
  obtain ⟨hvalues, ty, hmeet, hfits⟩ := hcons
  have hxy : (S.extend (.same x y)).Linked x y :=
    .rel _ _ (List.mem_append_right _ (List.mem_singleton_self _))
  have htells : ∀ v, s.value (cell x) = some v ∨ s.value (cell y) = some v → (S.extend (.same x y)).Tells x v := by
    rintro v (hv | hv)
    · exact tells_extend (h.told x v hx hv) _
    · exact .of_linked hxy (tells_extend (h.told y v hy hv) _)
  have hclass : ∀ z, dom z → (S.extend (.same x y)).Linked x z → (s.ty (cell z)).Accepts ty := by
    intro z hz hxz
    apply (h.meets z hz).2
    rintro u ⟨w, hw, hfind, rfl⟩
    exact hmeet.1 _ ⟨w, hxz.trans (linked_extend (h.linked z w hz hw hfind.symm) _), rfl⟩
  obtain ⟨u, hu, hacc⟩ := Ty.meet_of_accepts (hclass x hx (.refl x)) (hclass y hy hxy)
  apply Store.unify_succeeds _ hu
  · intro v hv
    exact hacc.trans (hfits v (htells v hv))
  · intro v w hv hw
    exact hvalues v w (htells v (.inl hv)) (htells w (.inr hw))

end Solved
end System
end Clausal
