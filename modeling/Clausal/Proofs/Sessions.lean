import Clausal.Proofs.OneVariable
import Clausal.Proofs.Operations
import Mathlib.Order.Bounds.Defs
import Mathlib.Order.Nat

/-! Sessions with a store. A session makes requests, among them marks that it takes and returns to in stack order,
and ends at a unification that is refused. Main statement: as long as it lasts, the representative of a cell is
the oldest cell of its class, no other cell of the class holds a value or an alias, no parameter is listed twice,
and a value fits the type beside it. -/
namespace Clausal

namespace Store

variable {s t : Store} {a b c : Nat}

/-- Cells that are connected by parent links. -/
def Together (s : Store) : Nat → Nat → Prop := Relation.EqvGen fun i j => s.parent i = j

theorem together_find (s : Store) (c : Nat) : s.Together c (s.find c) := by
  induction c using Nat.strongRecOn with
  | ind c ih =>
      by_cases h : s.parent c < c
      · rw [find_of_link h]
        exact .trans _ _ _ (.rel _ _ rfl) (ih _ h)
      · rw [find_of_root h]
        exact .refl c

/-- A cell has the representative of its parent. -/
theorem Regular.find_parent (h : s.Regular) (c : Nat) : s.find (s.parent c) = s.find c := by
  rcases Nat.lt_or_eq_of_le (h.parent_le c) with hlt | heq
  · exact (find_of_link hlt).symm
  · rw [heq]

theorem Regular.together_iff (h : s.Regular) (i j : Nat) : s.Together i j ↔ s.find i = s.find j := by
  constructor
  · intro htogether
    induction htogether with
    | rel i j hij => rw [← hij, h.find_parent]
    | refl i => rfl
    | symm i j _ ih => exact ih.symm
    | trans i j k _ _ ih ih' => exact ih.trans ih'
  · intro hfind
    refine .trans _ _ _ (s.together_find i) (.symm _ _ ?_)
    rw [hfind]
    exact s.together_find j

/-- The representative of a cell is the oldest cell of its class. -/
theorem Regular.find_isLeast (h : s.Regular) (c : Nat) : IsLeast {i | s.Together c i} (s.find c) := by
  refine ⟨s.together_find c, fun i hi => ?_⟩
  rw [(h.together_iff c i).mp hi]
  exact s.find_le i

/-- Cells that are not representatives hold neither a value nor aliases. -/
def Bare (s : Store) : Prop := ∀ c, s.find c ≠ c → s.held c = none ∧ s.listed c = []

theorem Bare.empty : Bare .empty := fun c h => absurd (find_of_ge (Nat.zero_le c)) h

/-- Whatever is written into representatives, the other cells stay bare. -/
theorem Bare.of_find (h : s.Bare) (hfind : ∀ c, t.find c = s.find c)
    (hsame : ∀ c, s.find c ≠ c → t.held c = s.held c ∧ t.listed c = s.listed c) : t.Bare := by
  intro c hc
  rw [hfind] at hc
  obtain ⟨hheld, hlisted⟩ := hsame c hc
  rw [hheld, hlisted]
  exact h c hc

theorem find_allocate (ty : Ty) (c : Nat) : (s.allocate ty).2.find c = s.find c :=
  find_of_parents (fun i _ => .inl (parent_allocate ty i)) (Nat.lt_succ_self c)

theorem ne_size_of_find (h : s.find c ≠ c) : c ≠ s.cells.size := fun heq =>
  h (find_of_ge (Nat.le_of_eq heq.symm))

theorem Bare.allocate (h : s.Bare) (ty : Ty) : (s.allocate ty).2.Bare := by
  refine h.of_find (find_allocate ty) fun c hc => ⟨?_, listed_allocate ty c⟩
  rw [held_allocate, if_neg (ne_size_of_find hc)]

theorem Bare.allocateFor (h : s.Bare) (p : Actual) (depth : Nat) : (s.allocateFor p depth).2.Bare := by
  refine h.of_find (find_allocateFor p depth) fun c hc => ⟨?_, ?_⟩
  · rw [held_allocateFor, if_neg (ne_size_of_find hc)]
  · rw [listed_allocateFor, if_neg (ne_size_of_find hc)]

theorem held_addAlias (c : Nat) (p : Actual) (depth i : Nat) : (s.addAlias c p depth).held i = s.held i := by
  unfold held
  rw [addAlias, getElem?_modify]
  split
  · rw [Option.bind_map]
    rfl
  · rfl

theorem alike_addAlias (s : Store) (c : Nat) (p : Actual) (depth : Nat) : s.Alike (s.addAlias c p depth) where
  size_eq := size_modify ..
  narrowings_eq := rfl
  find_eq := fun i =>
    find_of_parents (fun i _ => .inl (parent_modify (by intro cell; rfl) _ i)) (Nat.lt_succ_self i)
  own_eq := own_modify (by intro cell; rfl) _
  held_eq := held_addAlias c p depth

theorem Bare.addAlias (h : s.Bare) (hc : c < s.cells.size) (p : Actual) (depth : Nat) :
    (s.addAlias c p depth).Bare := by
  refine h.of_find (alike_addAlias s c p depth).find_eq fun i hi => ⟨held_addAlias c p depth i, ?_⟩
  rw [listed_addAlias hc, if_neg]
  rintro rfl
  exact hi (find_find s c)

theorem Bare.compress (h : s.Bare) (c : Nat) : (s.compress c).Bare :=
  h.of_find (alike_compress s c).find_eq fun i _ => ⟨(alike_compress s c).held_eq i, listed_compress s c i⟩

theorem Bare.bindValue (h : s.Bare) (c : Nat) (v : Value) : (s.bindValue c v).2.Bare := by
  rcases bindValue_cases s c v with heq | heq
  · rw [heq]
    exact h
  · rw [heq]
    refine h.of_find (find_bind v _) fun i hi => ⟨held_bind v ?_, listed_bind v _ i⟩
    rintro rfl
    exact hi (find_find s c)

theorem Bare.bindOrCheck (h : s.Bare) (c : Nat) (v : Value) : (s.bindOrCheck c v).2.Bare :=
  of_bindOrCheck h (h.bindValue c v)

/-- The younger representative is stripped, also when the unification is refused. -/
theorem Bare.unify (h : s.Bare) (ha : a < s.cells.size) (hb : b < s.cells.size) : (s.unify a b).2.Bare := by
  rcases unify_cases ha hb with hu | ⟨older, younger, ty, value, aliases, hlt, hsize, hro, hry, -, -, hu⟩
  · rw [hu]
    exact h
  have ho : older < s.cells.size := Nat.lt_trans hlt hsize
  rw [hu]
  intro i hi
  rw [find_link hlt hsize hro hry] at hi
  rw [held_link ho, listed_link ho]
  have hne : i ≠ older := by
    rintro rfl
    rw [hro, if_neg (Nat.ne_of_lt hlt)] at hi
    exact hi rfl
  rw [if_neg hne, if_neg hne]
  by_cases hy : i = younger
  · rw [if_pos hy, if_pos hy]
    exact ⟨rfl, rfl⟩
  · rw [if_neg hy, if_neg hy]
    refine h i fun hroot => hi ?_
    rw [hroot, if_neg hy]

theorem Bare.closeScope (h : s.Bare) (hs : s.Wide) (depth : Nat) {m : Mark} (hm : m.cells ≤ s.cells.size) :
    (s.closeScope depth m).Bare := by
  intro c hc
  by_cases hlt : c < m.cells
  · rw [find_closeScope hs depth hlt] at hc
    rw [held_closeScope hs depth hlt, listed_closeScope hs depth hlt, (h c hc).1, (h c hc).2]
    exact ⟨rfl, rfl⟩
  · have hgone : (s.closeScope depth m).cells.size ≤ c := size_closeScope depth hm ▸ Nat.le_of_not_lt hlt
    exact absurd (find_of_ge hgone) hc

theorem Operation.bare (h : Operation s t) (hs : s.Bare) : t.Bare := by
  cases h with
  | allocated ty => exact hs.allocate ty
  | allocatedFor p depth => exact hs.allocateFor p depth
  | aliased p depth hc => exact hs.addAlias hc p depth
  | compressed hc => exact hs.compress _
  | bound v hc => exact hs.bindValue _ v
  | checked v hc => exact hs.bindOrCheck _ v
  | unified ha hb => exact hs.unify ha hb

/-- A binding that is refused leaves the store as it is. -/
theorem refused_bindValue {v : Value} {e : Error} (h : s.bindValue c v = (.error e, t)) : t = s := by
  unfold bindValue at h
  split at h
  · exact (Prod.mk.inj h).2.symm
  · split at h
    · cases h
    · exact (Prod.mk.inj h).2.symm

theorem Valid.bindValue (h : s.Valid) (c : Nat) (v : Value) : (s.bindValue c v).2.Valid := by
  rcases hr : s.bindValue c v with ⟨_ | _, t⟩
  · rw [refused_bindValue hr]
    exact h
  · exact h.bindOrCheck (bindOrCheck_of_bindValue hr)

theorem Valid.bindOrCheck_answered (h : s.Valid) (c : Nat) (v : Value) : (s.bindOrCheck c v).2.Valid :=
  of_bindOrCheck h (h.bindValue c v)

theorem merge_ne_false (s : Store) (older younger : Nat) : (s.merge older younger).1 ≠ .ok false := by
  unfold merge
  simp only
  split
  · exact nofun
  · split
    · exact nofun
    · split
      · exact nofun
      · exact nofun

/-- A unification that finds two values which differ leaves the store as it is. -/
theorem differing_unify (h : s.unify a b = (.ok false, t)) : t = s := by
  unfold unify at h
  split at h
  · cases h
  · split at h
    · exact (Prod.mk.inj h).2.symm
    · exact absurd (congrArg Prod.fst h) (merge_ne_false s _ _)

theorem Valid.unify_answered (h : s.Valid) (ha : a < s.cells.size) (hb : b < s.cells.size) {r : Bool}
    (hu : s.unify a b = (.ok r, t)) : t.Valid := by
  cases r with
  | true => exact h.unify ha hb hu
  | false => exact differing_unify hu ▸ h

end Store

inductive Request where
  | allocate (ty : Ty)
  | allocateFor (p : Actual) (depth : Nat)
  | addAlias (c : Nat) (p : Actual) (depth : Nat)
  | compress (c : Nat)
  | bindValue (c : Nat) (v : Value)
  | bindOrCheck (c : Nat) (v : Value)
  | unify (a b : Nat)
  | openScope
  | closeScope (depth : Nat)

/-- A store, and the marks of the scopes that are open, innermost first. -/
structure Session where
  store : Store
  marks : List Mark

namespace Session

open Store

variable {σ σ' : Session}

def start : Session := ⟨.empty, []⟩

/-- What has become of the session when an operation is through, if the cells that it names are there. -/
def proceed (σ : Session) (cells : List Nat) (t : Store) : Option Session :=
  if ∀ c ∈ cells, c < σ.store.cells.size then some { σ with store := t } else none

/-- Grants a request. What a binding comes to is of no account, but a unification must not be refused, and a
scope must be open if it is to be closed. -/
def perform (σ : Session) : Request → Option Session
  | .allocate ty => σ.proceed [] (σ.store.allocate ty).2
  | .allocateFor p depth => σ.proceed [] (σ.store.allocateFor p depth).2
  | .addAlias c p depth => σ.proceed [c] (σ.store.addAlias c p depth)
  | .compress c => σ.proceed [c] (σ.store.compress c)
  | .bindValue c v => σ.proceed [c] (σ.store.bindValue c v).2
  | .bindOrCheck c v => σ.proceed [c] (σ.store.bindOrCheck c v).2
  | .unify a b =>
    match σ.store.unify a b with
    | (.ok _, t) => σ.proceed [a, b] t
    | (.error _, _) => none
  | .openScope => some { σ with marks := σ.store.mark :: σ.marks }
  | .closeScope depth =>
    match σ.marks with
    | [] => none
    | m :: rest => some ⟨σ.store.closeScope depth m, rest⟩

def run (σ : Session) : List Request → Option Session
  | [] => some σ
  | r :: rest => (σ.perform r).bind fun σ' => σ'.run rest

theorem proceed_eq {cells : List Nat} {t : Store} (h : σ.proceed cells t = some σ') :
    (∀ c ∈ cells, c < σ.store.cells.size) ∧ σ' = { σ with store := t } := by
  unfold proceed at h
  split at h
  · rename_i hcells
    exact ⟨hcells, (Option.some.inj h).symm⟩
  · cases h

/-- What holds of a session as long as it lasts. -/
structure Kept (σ : Session) : Prop where
  regular : σ.store.Regular
  valid : σ.store.Valid
  once : σ.store.Once
  bare : σ.store.Bare
  marked : ∀ m ∈ σ.marks, m.cells ≤ σ.store.cells.size
  nested : σ.marks.Pairwise fun inner outer => outer.cells ≤ inner.cells

theorem Kept.start : Kept .start where
  regular := .empty
  valid := Fresh.empty.roots.1
  once := .empty
  bare := .empty
  marked := fun _ h => absurd h List.not_mem_nil
  nested := .nil

theorem Kept.operation (h : σ.Kept) {t : Store} (hop : Operation σ.store t) (hvalid : t.Valid) :
    Kept { σ with store := t } where
  regular := hop.regular h.regular
  valid := hvalid
  once := hop.once h.once
  bare := hop.bare h.bare
  marked := fun m hm => Nat.le_trans (h.marked m hm) hop.logged.size_le
  nested := h.nested

theorem Kept.openScope (h : σ.Kept) : Kept { σ with marks := σ.store.mark :: σ.marks } where
  regular := h.regular
  valid := h.valid
  once := h.once
  bare := h.bare
  marked := List.forall_mem_cons.mpr ⟨Nat.le_refl _, h.marked⟩
  nested := .cons h.marked h.nested

theorem Kept.closeScope (h : σ.Kept) (depth : Nat) {m : Mark} {rest : List Mark} (hmarks : σ.marks = m :: rest) :
    Kept ⟨σ.store.closeScope depth m, rest⟩ := by
  have hm : m.cells ≤ σ.store.cells.size := h.marked m (hmarks ▸ List.mem_cons_self)
  obtain ⟨hle, hnested⟩ := List.pairwise_cons.mp (hmarks ▸ h.nested)
  constructor
  · exact h.regular.closeScope depth hm
  · exact h.valid.closeScope depth hm
  · exact h.once.closeScope h.regular.wide depth hm
  · exact h.bare.closeScope h.regular.wide depth hm
  · intro outer houter
    rw [size_closeScope depth hm]
    exact hle outer houter
  · exact hnested

theorem Kept.perform (h : σ.Kept) {r : Request} (hr : σ.perform r = some σ') : σ'.Kept := by
  cases r with
  | allocate ty =>
      obtain ⟨-, rfl⟩ := proceed_eq hr
      exact h.operation (.allocated _ ty) (h.valid.allocate ty)
  | allocateFor p depth =>
      obtain ⟨-, rfl⟩ := proceed_eq hr
      exact h.operation (.allocatedFor _ p depth) (h.valid.allocateFor p depth)
  | addAlias c p depth =>
      obtain ⟨hc, rfl⟩ := proceed_eq hr
      exact h.operation (.aliased p depth (hc c List.mem_cons_self)) ((alike_addAlias _ c p depth).valid h.valid)
  | compress c =>
      obtain ⟨hc, rfl⟩ := proceed_eq hr
      exact h.operation (.compressed (hc c List.mem_cons_self)) ((alike_compress _ c).valid h.valid)
  | bindValue c v =>
      obtain ⟨hc, rfl⟩ := proceed_eq hr
      exact h.operation (.bound v (hc c List.mem_cons_self)) (h.valid.bindValue c v)
  | bindOrCheck c v =>
      obtain ⟨hc, rfl⟩ := proceed_eq hr
      exact h.operation (.checked v (hc c List.mem_cons_self)) (h.valid.bindOrCheck_answered c v)
  | unify a b =>
      simp only [Session.perform] at hr
      rcases hu : σ.store.unify a b with ⟨_ | r, t⟩
      · rw [hu] at hr
        cases hr
      · rw [hu] at hr
        obtain ⟨hcells, rfl⟩ := proceed_eq hr
        have ha := hcells a List.mem_cons_self
        have hb := hcells b (List.mem_cons_of_mem a List.mem_cons_self)
        have hop : Operation σ.store t := by
          have hop := Operation.unified ha hb
          rw [hu] at hop
          exact hop
        exact h.operation hop (h.valid.unify_answered ha hb hu)
  | openScope =>
      obtain rfl := Option.some.inj hr
      exact h.openScope
  | closeScope depth =>
      simp only [Session.perform] at hr
      cases hmarks : σ.marks with
      | nil =>
          rw [hmarks] at hr
          cases hr
      | cons m rest =>
          rw [hmarks] at hr
          obtain rfl := Option.some.inj hr
          exact h.closeScope depth hmarks

theorem Kept.run (h : σ.Kept) {requests : List Request} (hrun : σ.run requests = some σ') : σ'.Kept := by
  induction requests generalizing σ with
  | nil =>
      obtain rfl := Option.some.inj hrun
      exact h
  | cons r rest ih =>
      obtain ⟨τ, hr, hrest⟩ := Option.bind_eq_some_iff.mp hrun
      exact ih (h.perform hr) hrest

/-- As long as no unification is refused: the representative of a cell is the oldest cell of its class, the other
cells of the class hold neither value nor aliases, the class lists no parameter twice, and the value in the
representative fits the type that it has there. -/
theorem representation_kept {requests : List Request} (h : start.run requests = some σ) :
    (∀ c, IsLeast {i | σ.store.Together c i} (σ.store.find c)) ∧
      (∀ c, σ.store.find c ≠ c → σ.store.held c = none ∧ σ.store.listed c = []) ∧
      (∀ c, ((σ.store.aliases c).map Actual.id).Nodup) ∧
      ∀ c v, σ.store.value c = some v → (σ.store.ty c).Accepts v.ty := by
  have hkept := Kept.start.run h
  refine ⟨?_, ?_, ?_, ?_⟩
  · exact hkept.regular.find_isLeast
  · exact hkept.bare
  · exact hkept.once.aliases
  · exact fun c v => hkept.valid.value_fits

/-- In a scope, a wide cell is joined to an integer cell and gets its value, and a second scope narrows another
one in passing. -/
def twoScopes : List Request :=
  [.allocateFor wanted 0, .allocate .any, .openScope, .allocateFor supplied 1, .unify 1 2, .unify 0 2, .compress 2,
    .addAlias 2 wanted 1, .openScope, .allocate .str, .bindOrCheck 0 (.int 3), .closeScope 2, .closeScope 1]

/-- When both scopes have closed, the two outer cells are one and hold the value, in the older of them. -/
theorem twoScopes_kept : ∃ σ, start.run twoScopes = some σ ∧ σ.store.Together 1 0 ∧ σ.store.held 1 = none ∧
    ((σ.store.aliases 1).map Actual.id).Nodup ∧ (σ.store.ty 1).Accepts .int := by
  obtain ⟨σ, hσ⟩ := Option.isSome_iff_exists.mp (show (start.run twoScopes).isSome = true by decide +kernel)
  obtain ⟨hleast, hbare, honce, hfits⟩ := representation_kept hσ
  have hsome : start.run twoScopes = some ((start.run twoScopes).get (by decide +kernel)) := (Option.some_get _).symm
  obtain rfl := Option.some.inj (hσ.symm.trans hsome)
  have hfind : ((start.run twoScopes).get (by decide +kernel)).store.find 1 = 0 := by decide +kernel
  refine ⟨_, hσ, ?_, (hbare 1 ?_).1, honce 1, hfits 1 (.int 10) ?_⟩
  · exact hfind ▸ (hleast 1).1
  · rw [hfind]
    decide
  · decide +kernel

end Session
end Clausal
