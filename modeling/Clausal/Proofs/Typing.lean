import Clausal.Proofs.Additions
import Clausal.Proofs.Answers
import Clausal.Proofs.Merging

/-! Typing. Parameters have one type each, which is never `any`, and goals are made as their constructors check
them. Main statement: whatever a branch does then, the cells of a class have one type, a slot's cell has the type
of its parameter, and nothing is ever narrowed. -/
namespace Clausal

variable {σ : Type}

/-- The types of parameters by their identity. None is `any`, and not all identities need be known. -/
structure Typing where
  formal : Nat → Option Ty
  actual : ActualId → Option Ty
  formal_ne : ∀ n, formal n ≠ some .any
  actual_ne : ∀ id, actual id ≠ some .any

/-- A serial below this one, or none, stands in the identity. Literals are never typed. -/
def ActualId.Before (n : Nat) : ActualId → Prop
  | .shared _ => True
  | .own body _ => body < n
  | .literal _ => False

theorem ActualId.Before.mono {id : ActualId} {m n : Nat} (h : id.Before m) (hmn : m ≤ n) : id.Before n := by
  cases id with
  | shared _ => trivial
  | own body _ => exact Nat.lt_of_lt_of_le h hmn
  | literal _ => exact h.elim

namespace Typing

/-- No clause instance with this number or a later one is typed yet. -/
def Before (T : Typing) (n : Nat) : Prop := ∀ id ty, T.actual id = some ty → id.Before n

/-- Types also the actuals that one instance of a clause makes for itself. -/
def extend (T : Typing) (n : Nat) (own : Nat → {ty : Ty // ty ≠ .any}) : Typing where
  formal := T.formal
  actual id :=
    match id with
    | .own body index => if body = n then some (own index).1 else T.actual (.own body index)
    | .shared m => T.actual (.shared m)
    | .literal m => T.actual (.literal m)
  formal_ne := T.formal_ne
  actual_ne := by
    intro id
    cases id with
    | shared m => exact T.actual_ne _
    | literal m => exact T.actual_ne _
    | own body index =>
        simp only
        split
        · exact fun h => (own index).2 (Option.some.inj h)
        · exact T.actual_ne _

structure Extends (T' T : Typing) : Prop where
  formal_eq : T'.formal = T.formal
  keeps : ∀ id ty, T.actual id = some ty → T'.actual id = some ty

variable {T T' T'' : Typing}

theorem Extends.refl (T : Typing) : T.Extends T := ⟨rfl, fun _ _ h => h⟩

theorem Extends.trans (h : T''.Extends T') (h' : T'.Extends T) : T''.Extends T :=
  ⟨h.formal_eq.trans h'.formal_eq, fun id ty hty => h.keeps id ty (h'.keeps id ty hty)⟩

theorem extends_extend {n : Nat} (h : ∀ index, T.actual (.own n index) = none)
    (own : Nat → {ty : Ty // ty ≠ .any}) : (T.extend n own).Extends T where
  formal_eq := rfl
  keeps := by
    intro id ty hty
    cases id with
    | shared m => exact hty
    | literal m => exact hty
    | own body index =>
        by_cases hbody : body = n
        · rw [hbody, h] at hty
          cases hty
        · exact (if_neg hbody).trans hty

theorem Before.fresh {n : Nat} (h : T.Before n) (index : Nat) : T.actual (.own n index) = none := by
  cases hty : T.actual (.own n index) with
  | none => rfl
  | some ty => exact absurd (h _ ty hty) (Nat.lt_irrefl n)

theorem Before.mono {m n : Nat} (h : T.Before m) (hmn : m ≤ n) : T.Before n :=
  fun id ty hty => (h id ty hty).mono hmn

theorem Before.extend {n : Nat} (h : T.Before n) (own : Nat → {ty : Ty // ty ≠ .any}) :
    (T.extend n own).Before (n + 1) := by
  intro id ty hty
  cases id with
  | shared m => trivial
  | literal m => exact h _ ty hty
  | own body index =>
      by_cases hbody : body = n
      · exact Nat.lt_succ_of_le (Nat.le_of_eq hbody)
      · exact (h _ ty ((if_neg hbody).symm.trans hty)).mono (Nat.le_succ n)

theorem Extends.extend (h : T'.Extends T) (n : Nat) (own : Nat → {ty : Ty // ty ≠ .any}) :
    (T'.extend n own).Extends (T.extend n own) where
  formal_eq := h.formal_eq
  keeps := by
    intro id ty hty
    cases id with
    | shared m => exact h.keeps _ ty hty
    | literal m => exact h.keeps _ ty hty
    | own body index =>
        by_cases hbody : body = n
        · exact (if_pos hbody).trans ((if_pos hbody).symm.trans hty)
        · exact (if_neg hbody).trans (h.keeps _ ty ((if_neg hbody).symm.trans hty))

end Typing

def Param.Typed (T : Typing) : Param → Prop
  | .formal f => T.formal f.id = some f.ty
  | .actual a => T.actual a.id = some a.ty

def Term.Typed (T : Typing) : Term σ → Prop
  | .constant ty v => ty ≠ .any ∧ Term.constant? ty v = .ok (.constant ty v : Term σ)
  | .param p => p.Typed T
  | .map ty (.scope _) => ty ≠ .any
  | .map ty (.source p _) => ty ≠ .any ∧ p.Typed T

/-- A binding passes its own check. Scope goals are the engine's own. -/
def Goal.Typed (T : Typing) : Goal σ → Prop
  | .bind p t => p.Typed T ∧ t.Typed T ∧ Goal.bind? p t = .ok (.bind p t)
  | .call _ arguments => ∀ t ∈ arguments, t.Typed T
  | .check _ | .action _ => True
  | .openScope _ | .closeScope => False

/-- Formals have their types, and so has all that a body refers to, once the instance's own actuals are typed. -/
structure Clause.Typed (T : Typing) (c : Clause σ) : Prop where
  formals : ∀ f ∈ c.formals, T.formal f.id = some f.ty
  bodies : ∀ n goals, (c.instantiate n).Runs goals → ∃ own, ∀ g ∈ goals, g.Typed (T.extend n own)

/-- Only shared actuals are typed for all clauses. -/
structure Source.Typed (T : Typing) (src : Source σ) : Prop where
  shared : ∀ id ty, T.actual id = some ty → ∃ n, id = .shared n
  clauses : ∀ c, src.Offers c → c.Typed T

variable {T T' : Typing}

theorem Param.Typed.ty_ne {p : Param} (h : p.Typed T) : p.ty ≠ .any := by
  intro hany
  cases p with
  | formal f =>
      have h : T.formal f.id = some f.ty := h
      rw [show f.ty = .any from hany] at h
      exact T.formal_ne _ h
  | actual a =>
      have h : T.actual a.id = some a.ty := h
      rw [show a.ty = .any from hany] at h
      exact T.actual_ne _ h

theorem Param.Typed.mono {p : Param} (hT : T'.Extends T) (h : p.Typed T) : p.Typed T' := by
  cases p with
  | formal f => exact (congrFun hT.formal_eq f.id).trans h
  | actual a => exact hT.keeps _ _ h

theorem Term.Typed.ty_ne {t : Term σ} (h : t.Typed T) : t.ty ≠ .any := by
  cases t with
  | constant ty v => exact h.1
  | param p => exact Param.Typed.ty_ne h
  | map ty s =>
      cases s with
      | scope f => exact h
      | source p f => exact h.1

theorem Term.Typed.reads {t : Term σ} (h : t.Typed T) : ∀ p ∈ t.reads, p.Typed T := by
  intro p hp
  cases t with
  | constant ty v => exact absurd hp List.not_mem_nil
  | param q =>
      obtain rfl := List.mem_singleton.mp hp
      exact h
  | map ty s =>
      cases s with
      | scope f => exact absurd hp List.not_mem_nil
      | source q f =>
          obtain rfl := List.mem_singleton.mp hp
          exact h.2

theorem Term.Typed.mono {t : Term σ} (hT : T'.Extends T) (h : t.Typed T) : t.Typed T' := by
  cases t with
  | constant ty v => exact h
  | param p => exact Param.Typed.mono hT h
  | map ty s =>
      cases s with
      | scope f => exact h
      | source p f => exact ⟨h.1, h.2.mono hT⟩

theorem Goal.Typed.mono {g : Goal σ} (hT : T'.Extends T) (h : g.Typed T) : g.Typed T' := by
  cases g with
  | bind p t => exact ⟨h.1.mono hT, h.2.1.mono hT, h.2.2⟩
  | call name arguments => exact fun t ht => (h t ht).mono hT
  | check f => trivial
  | action f => trivial
  | openScope arguments => exact h.elim
  | closeScope => exact h.elim

theorem Goal.Typed.authored {g : Goal σ} (h : g.Typed T) : g.Authored := by
  cases g with
  | openScope arguments => exact h.elim
  | closeScope => exact h.elim
  | _ => trivial

theorem Source.Typed.authored {src : Source σ} (h : src.Typed T) : src.Authored := by
  intro name cancelled host clauses hclauses c hc n goals hruns g hg
  obtain ⟨own, hgoals⟩ := (h.clauses c ⟨name, cancelled, host, clauses, hclauses, hc⟩).bodies n goals hruns
  exact (hgoals g hg).authored

/-- Types that differ from `any` accept each other only if they are one. -/
theorem Ty.Accepts.eq_of_ne {s t : Ty} (h : s.Accepts t) (hs : s ≠ .any) : s = t := h.resolve_left hs

namespace Store

/-- No cell has the type `any`, the cells of a class have one type, and no type has ever been narrowed. -/
structure Uniform (s : Store) : Prop where
  ne_any : ∀ c < s.cells.size, s.own c ≠ .any
  own_find : ∀ c, s.own (s.find c) = s.own c
  unnarrowed : s.narrowings = []

variable {s t : Store}

theorem Uniform.of_alike (h : s.Uniform) (halike : s.Alike t) : t.Uniform where
  ne_any := by
    intro c hc
    rw [halike.own_eq]
    exact h.ne_any c (halike.size_eq ▸ hc)
  own_find := by
    intro c
    rw [halike.own_eq, halike.own_eq, halike.find_eq]
    exact h.own_find c
  unnarrowed := halike.narrowings_eq.trans h.unnarrowed

theorem Uniform.allocateFor (h : s.Uniform) {a : Actual} (ha : a.ty ≠ .any) (depth : Nat) :
    (s.allocateFor a depth).2.Uniform where
  ne_any := by
    intro c hc
    rw [size_allocateFor] at hc
    rw [own_allocateFor]
    split
    · exact ha
    · exact h.ne_any c (by omega)
  own_find := by
    intro c
    rw [find_allocateFor, own_allocateFor, own_allocateFor, h.own_find]
    by_cases hc : c < s.cells.size
    · rw [if_neg (Nat.ne_of_lt (find_lt hc)), if_neg (Nat.ne_of_lt hc)]
    · rw [find_of_ge (Nat.le_of_not_lt hc)]
  unnarrowed := h.unnarrowed

theorem own_bindOrCheck {c : Nat} {v : Value} (hbind : s.bindOrCheck c v = (.ok true, t)) (i : Nat) :
    t.own i = s.own i := by
  rcases bindOrCheck_ok hbind with rfl | ⟨-, -, rfl⟩
  · rfl
  · exact own_bind v _ i

theorem Uniform.bindOrCheck (h : s.Uniform) {c : Nat} {v : Value} (hbind : s.bindOrCheck c v = (.ok true, t)) :
    t.Uniform := by
  rcases bindOrCheck_ok hbind with rfl | ⟨-, -, rfl⟩
  · exact h
  · refine ⟨fun i hi => ?_, fun i => ?_, h.unnarrowed⟩
    · rw [own_bind]
      exact h.ne_any i (by rwa [size_modify] at hi)
    · rw [find_bind, own_bind, own_bind]
      exact h.own_find i

/-- Cells of one type unify without a change of types. -/
theorem Uniform.merges (h : s.Uniform) {a b older younger : Nat} {ty : Ty} (hsame : s.own a = s.own b)
    (hm : s.Merges a b older younger ty t) : (∀ i, t.own i = s.own i) ∧ t.Uniform := by
  have hroots : s.own older = s.own younger := by
    rcases hm.roots with ⟨rfl, rfl⟩ | ⟨rfl, rfl⟩
    · rw [h.own_find, h.own_find, hsame]
    · rw [h.own_find, h.own_find, hsame]
  have hty : s.own older = ty := (Ty.meet_eq_some hm.meet).1.resolve_right (h.ne_any older hm.older_lt)
  have hown (i : Nat) : t.own i = s.own i := by
    rw [hm.own_eq]
    split
    · rename_i hi
      rw [hi, hty]
    · rfl
  refine ⟨hown, fun c hc => ?_, fun c => ?_, ?_⟩
  · rw [hown]
    exact h.ne_any c (hm.size_eq ▸ hc)
  · rw [hown, hown, hm.find_eq]
    split
    · rename_i hc
      rw [hroots, ← hc, h.own_find]
    · exact h.own_find c
  · rw [hm.narrowings_eq, if_pos hty]
    exact h.unnarrowed

theorem Uniform.unify (h : s.Uniform) {a b : Nat} (hsame : s.own a = s.own b) (ha : a < s.cells.size)
    (hb : b < s.cells.size) (hu : s.unify a b = (.ok true, t)) : (∀ i, t.own i = s.own i) ∧ t.Uniform := by
  rcases unify_ok ha hb hu with ⟨rfl, -⟩ | ⟨older, younger, ty, hm⟩
  · exact ⟨fun _ => rfl, h⟩
  · exact h.merges hsame hm

theorem Uniform.wide (h : s.Uniform) : s.Wide := by
  intro n hn
  rw [h.unnarrowed] at hn
  exact absurd hn List.not_mem_nil

theorem Uniform.own_closeScope (h : s.Uniform) (depth : Nat) {m : Mark} {c : Nat} (hc : c < m.cells) :
    (s.closeScope depth m).own c = s.own c := by
  have hnone : s.undone m = [] := by
    rw [undone, h.unnarrowed]
    exact List.take_nil
  rw [Store.own_closeScope h.wide depth hc, hnone]
  exact if_neg List.not_mem_nil

theorem Uniform.closeScope (h : s.Uniform) (depth : Nat) {m : Mark} (hm : m.cells ≤ s.cells.size) :
    (s.closeScope depth m).Uniform where
  ne_any := by
    intro c hc
    rw [size_closeScope depth hm] at hc
    rw [h.own_closeScope depth hc]
    exact h.ne_any c (Nat.lt_of_lt_of_le hc hm)
  own_find := by
    intro c
    by_cases hc : c < m.cells
    · rw [find_closeScope h.wide depth hc, h.own_closeScope depth (find_lt hc), h.own_closeScope depth hc]
      exact h.own_find c
    · rw [find_of_ge]
      rw [size_closeScope depth hm]
      exact Nat.le_of_not_lt hc
  unnarrowed := by
    change s.narrowings.drop _ = []
    rw [h.unnarrowed]
    exact List.drop_nil

/-- A value has exactly the type of the cell. -/
theorem Uniform.value_ty (h : s.Uniform) (hs : s.Valid) {c : Nat} (hc : c < s.cells.size) {v : Value}
    (hv : s.value c = some v) : v.ty = s.own c := by
  have hfits : (s.own (s.find c)).Accepts v.ty := hs.fits _ v hv
  rw [h.own_find] at hfits
  exact (hfits.eq_of_ne (h.ne_any c hc)).symm

end Store

/-- The cell of a slot has the type of its parameter. What is not typed is a literal. -/
structure Slot.Typed (T : Typing) (s : Store) (slot : Slot) : Prop where
  own_eq : s.own slot.cell = slot.parameter.ty
  ne_any : slot.parameter.ty ≠ .any
  known : T.actual slot.parameter.id = some slot.parameter.ty ∨ ∃ n, slot.parameter.id = .literal n

theorem Slot.Typed.of_own {s t : Store} {slot : Slot} (h : slot.Typed T s) (hown : t.own slot.cell = s.own slot.cell) :
    slot.Typed T t := ⟨hown.trans h.own_eq, h.ne_any, h.known⟩

theorem Slot.Typed.mono {s : Store} {slot : Slot} (hT : T'.Extends T) (h : slot.Typed T s) : slot.Typed T' s :=
  ⟨h.own_eq, h.ne_any, h.known.imp_left (hT.keeps _ _)⟩

def Argument.Typed (T : Typing) (s : Store) (a : Formal × Slot) : Prop :=
  a.2.Typed T s ∧ T.formal a.1.id = some a.2.parameter.ty

namespace Env

/-- Classes have one type each, and slots that of their parameter. No clause instance to come is typed yet. -/
structure Typed (T : Typing) (e : Env) : Prop where
  uniform : e.store.Uniform
  slots : ∀ sc ∈ e.scopes, ∀ slot ∈ sc.slots, slot.Typed T e.store
  formals : ∀ sc ∈ e.scopes, ∀ a ∈ sc.arguments, T.formal a.1.id = some a.2.parameter.ty
  before : T.Before e.serial

variable {e e' : Env}

theorem Typed.slot_typed (h : e.Typed T) {slot : Slot} (hslot : slot ∈ e.scope.slots) : slot.Typed T e.store :=
  h.slots e.scope List.mem_cons_self slot hslot

theorem Typed.slot_ty (h : e.Typed T) {p : Param} (hp : p.Typed T) {slot : Slot}
    (hslot : e.scope.slot? p = some slot) : slot.parameter.ty = p.ty := by
  cases p with
  | formal f =>
      obtain ⟨a, ha, rfl⟩ := Option.map_eq_some_iff.mp hslot
      have hid : a.1.id = f.id := by simpa using List.find?_some ha
      have hty := h.formals e.scope List.mem_cons_self a (List.mem_of_find?_eq_some ha)
      rw [hid] at hty
      exact Option.some.inj (hty.symm.trans hp)
  | actual a =>
      have hp : T.actual a.id = some a.ty := hp
      have hid : slot.parameter.id = a.id := by simpa using List.find?_some hslot
      rcases (h.slot_typed (Scope.mem_slots_of_slot? hslot)).known with hty | ⟨n, hliteral⟩
      · rw [hid] at hty
        exact Option.some.inj (hty.symm.trans hp)
      · rw [hid] at hliteral
        rw [hliteral] at hp
        exact (h.before _ _ hp).elim

theorem Typed.own_eq (h : e.Typed T) {p : Param} (hp : p.Typed T) {slot : Slot} (hslot : e.scope.slot? p = some slot) :
    e.store.own slot.cell = p.ty :=
  (h.slot_typed (Scope.mem_slots_of_slot? hslot)).own_eq.trans (h.slot_ty hp hslot)

theorem Typed.slots_of_own (h : e.Typed T) (hs : e.Sound) {s : Store}
    (hown : ∀ c < e.store.cells.size, s.own c = e.store.own c) :
    ∀ sc ∈ e.scopes, ∀ slot ∈ sc.slots, slot.Typed T s :=
  fun sc hsc slot hslot => (h.slots sc hsc slot hslot).of_own (hown slot.cell (hs.held.slots_lt sc hsc slot hslot))

theorem Typed.withStore (h : e.Typed T) (hs : e.Sound) {s : Store} (huniform : s.Uniform)
    (hown : ∀ c < e.store.cells.size, s.own c = e.store.own c) : ({ e with store := s } : Env).Typed T where
  uniform := huniform
  slots := h.slots_of_own hs hown
  formals := h.formals
  before := h.before

theorem Typed.nextSerial (h : e.Typed T) : e.nextSerial.2.Typed T where
  uniform := h.uniform
  slots := h.slots
  formals := h.formals
  before := h.before.mono (Nat.le_succ _)

theorem Typed.addLocal (h : e.Typed T) (hs : e.Sound) {a : Actual} (ha : (Param.actual a).Typed T) :
    (e.addLocal a).2.Typed T where
  uniform := h.uniform.allocateFor ha.ty_ne e.depth
  slots := by
    have hold := h.slots_of_own hs fun c hc => Store.own_allocateFor_of_lt a e.depth hc
    intro sc hsc slot hslot
    rcases List.mem_cons.mp hsc with rfl | hsc
    · rcases mem_slots_addLocal.mp hslot with hslot | rfl
      · exact hold e.scope List.mem_cons_self slot hslot
      · refine ⟨?_, ha.ty_ne, .inl ha⟩
        exact (Store.own_allocateFor a e.depth _).trans (if_pos rfl)
    · exact hold sc (List.mem_cons_of_mem _ hsc) slot hslot
  formals := by
    intro sc hsc a' ha'
    rcases List.mem_cons.mp hsc with rfl | hsc
    · exact h.formals e.scope List.mem_cons_self a' ha'
    · exact h.formals sc (List.mem_cons_of_mem _ hsc) a' ha'
  before := h.before

theorem Typed.addLiteral (h : e.Typed T) (hs : e.Sound) {ty : Ty} {v : Value} {slot : Slot} (hty : ty ≠ .any)
    (hok : e.addLiteral ty v = .ok (slot, e')) : e'.Typed T ∧ slot.Typed T e'.store := by
  obtain ⟨a, hid, rfl, -, rfl, rfl⟩ := addLiteral_eq hok
  have hstore := h.withStore hs (h.uniform.allocateFor hty e.depth) fun c hc =>
    Store.own_allocateFor_of_lt a e.depth hc
  refine ⟨hstore.nextSerial, ?_, hty, .inr ⟨_, hid⟩⟩
  exact (Store.own_allocateFor a e.depth _).trans (if_pos rfl)

/-- Additions of typed parameters and of literals with a type keep an environment typed. -/
theorem Typed.additions (h : e.Typed T) (hs : e.Sound) (hadds : Additions (Param.Typed T) (· ≠ .any) e e') :
    e'.Typed T ∧ e'.Sound ∧ e.store.cells.size ≤ e'.store.cells.size ∧
      ∀ c < e.store.cells.size, e'.store.own c = e.store.own c := by
  induction hadds with
  | refl => exact ⟨h, hs, Nat.le_refl _, fun _ _ => rfl⟩
  | @tail e₁ e₂ hpre hstep ih =>
      obtain ⟨ht₁, hs₁, hsize₁, hown₁⟩ := ih
      cases hstep with
      | @introduced a hp _ =>
          refine ⟨ht₁.addLocal hs₁ hp, (Inside.addLocal e₁ a).sound hs₁, ?_, fun c hc => ?_⟩
          · exact Nat.le_trans hsize₁ (Store.grows_allocateFor _ a e₁.depth).size_le
          · have hc₁ := Nat.lt_of_lt_of_le hc hsize₁
            rw [← hown₁ c hc]
            exact Store.own_allocateFor_of_lt a e₁.depth hc₁
      | passed hty hok =>
          obtain ⟨ht₂, -⟩ := ht₁.addLiteral hs₁ hty hok
          obtain ⟨hquiet, -⟩ := addLiteral_ok hok
          obtain ⟨a, -, -, -, -, rfl⟩ := addLiteral_eq hok
          refine ⟨ht₂, hquiet.toInside.sound hs₁, ?_, fun c hc => ?_⟩
          · exact Nat.le_trans hsize₁ hquiet.grows.size_le
          · have hc₁ := Nat.lt_of_lt_of_le hc hsize₁
            rw [← hown₁ c hc]
            exact Store.own_allocateFor_of_lt a e₁.depth hc₁

theorem Typed.redirect (h : e.Typed T) : e.redirect.Typed T where
  uniform := h.uniform.of_alike e.alike_redirect
  slots := by
    intro sc hsc slot hslot
    rcases List.mem_cons.mp hsc with rfl | hsc
    · rw [slots_redirect] at hslot
      obtain ⟨old, hold, rfl⟩ := List.mem_map.mp hslot
      have htyped := h.slot_typed hold
      refine ⟨?_, htyped.ne_any, htyped.known⟩
      rw [e.alike_redirect.own_eq]
      exact (h.uniform.own_find old.cell).trans htyped.own_eq
    · exact (h.slots sc (List.mem_cons_of_mem _ hsc) slot hslot).of_own (e.alike_redirect.own_eq _)
  formals := by
    intro sc hsc a ha
    rcases List.mem_cons.mp hsc with rfl | hsc
    · obtain ⟨old, hold, rfl⟩ := List.mem_map.mp ha
      exact h.formals e.scope List.mem_cons_self old hold
    · exact h.formals sc (List.mem_cons_of_mem _ hsc) a ha
  before := h.before

theorem Typed.openScope (h : e.Typed T) {arguments : List (Formal × Slot)}
    (ha : ∀ a ∈ arguments, Argument.Typed T e.store a) : (e.openScope arguments).Typed T where
  uniform := h.uniform
  slots := by
    intro sc hsc slot hslot
    rcases List.mem_cons.mp hsc with rfl | hsc
    · obtain ⟨a, hmem, rfl⟩ := mem_slots_openScope.mp hslot
      exact (ha a hmem).1
    · exact h.slots sc hsc slot hslot
  formals := by
    intro sc hsc a hmem
    rcases List.mem_cons.mp hsc with rfl | hsc
    · exact (ha a hmem).2
    · exact h.formals sc hsc a hmem
  before := h.before

theorem Typed.closeScope (h : e.Typed T) (hs : e.Sound) (hclose : e.closeScope = .ok e') : e'.Typed T := by
  obtain ⟨outer, rest, henc, rfl⟩ := closeScope_eq_ok.mp hclose
  suffices hdropped : (e.dropScope outer rest).Typed T from hdropped.redirect
  have hscopes : ∀ sc ∈ outer :: rest, sc ∈ e.scopes := by
    intro sc hsc
    rw [scopes, henc]
    exact List.mem_cons_of_mem _ hsc
  refine ⟨h.uniform.closeScope e.depth hs.held.2.1, ?_, fun sc hsc => h.formals sc (hscopes sc hsc), h.before⟩
  intro sc hsc slot hslot
  have hlt : slot.cell < e.scope.mark.cells := by
    have hheld := hs.held.2.2.2
    rw [henc] at hheld
    exact hheld.slots_lt sc hsc slot hslot
  exact (h.slots sc (hscopes sc hsc) slot hslot).of_own (h.uniform.own_closeScope e.depth hlt)

end Env
end Clausal
