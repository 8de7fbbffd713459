import Clausal.Proofs.Answers
import Clausal.Proofs.Edits
import Clausal.Proofs.Merging

/-! What has been bound stays bound. A scope owns the cells that are made while it is the innermost one, and they last
until it closes. Main statement: as long as a scope is open, the cells that it and the scopes around it own keep their
values and stay in their classes, through calls and continuations of any depth; and what a binding in that scope has
made of its operands goes on to hold of them. -/
namespace Clausal

variable {σ : Type}

namespace Env

/-- The scope of a depth, if one is open. -/
def scopeAt? (e : Env) (depth : Nat) : Option Scope := e.scopes.reverse[depth]?

def slotAt? (e : Env) (depth : Nat) (p : Param) : Option Slot := (e.scopeAt? depth).bind fun sc => sc.slot? p

/-- How many cells the scopes down to this depth own: all that were there when the next one opened. -/
def owned (e : Env) (depth : Nat) : Nat :=
  ((e.scopeAt? (depth + 1)).map fun sc => sc.mark.cells).getD e.store.cells.size

section Depths

variable {e e' : Env} {k : Nat}

theorem scopeAt?_of_lt (h : k < e.depth) : e.scopeAt? k = e.enclosing.reverse[k]? := by
  unfold scopeAt? scopes
  rw [List.reverse_cons, List.getElem?_append_left (by rwa [List.length_reverse])]

theorem scopeAt?_depth (e : Env) : e.scopeAt? e.depth = some e.scope := by
  unfold scopeAt? scopes depth
  rw [List.reverse_cons, ← List.length_reverse, List.getElem?_concat_length]

theorem scopeAt?_of_gt (h : e.depth < k) : e.scopeAt? k = none := by
  unfold scopeAt? scopes
  rw [List.getElem?_eq_none_iff, List.length_reverse]
  exact h

theorem owned_depth (e : Env) : e.owned e.depth = e.store.cells.size := by
  rw [owned, scopeAt?_of_gt (Nat.lt_succ_self _)]
  rfl

theorem owned_of_lt (h : k < e.depth) :
    ∃ sc, e.scopeAt? (k + 1) = some sc ∧ sc ∈ e.scopes ∧ e.owned k = sc.mark.cells := by
  have hopen : e.scopeAt? (k + 1) ≠ none := by
    unfold scopeAt? scopes
    rw [ne_eq, List.getElem?_eq_none_iff, List.length_reverse]
    exact Nat.not_le_of_lt (Nat.succ_lt_succ h)
  obtain ⟨sc, hsc⟩ := Option.ne_none_iff_exists'.mp hopen
  refine ⟨sc, hsc, List.mem_reverse.mp (List.mem_of_getElem? hsc), ?_⟩
  rw [owned, hsc]
  rfl

theorem slotAt?_depth (e : Env) (p : Param) : e.slotAt? e.depth p = e.scope.slot? p := by
  rw [slotAt?, scopeAt?_depth]
  rfl

theorem scopeAt?_congr (h : e'.enclosing = e.enclosing) (hk : k < e.depth) : e'.scopeAt? k = e.scopeAt? k := by
  have hdepth : e'.depth = e.depth := congrArg List.length h
  rw [scopeAt?_of_lt hk, scopeAt?_of_lt (hdepth ▸ hk), h]

theorem owned_congr (h : e'.enclosing = e.enclosing) (hmark : e'.scope.mark = e.scope.mark) (hk : k < e.depth) :
    e'.owned k = e.owned k := by
  have hdepth : e'.depth = e.depth := congrArg List.length h
  obtain ⟨sc, hsc, -, howned⟩ := owned_of_lt hk
  obtain hlt | heq : k + 1 < e.depth ∨ k + 1 = e.depth := Nat.lt_or_eq_of_le hk
  · rw [howned, owned, scopeAt?_congr h hlt, hsc]
    rfl
  · have hscope : e'.scopeAt? (k + 1) = some e'.scope := by rw [heq, ← hdepth, scopeAt?_depth]
    rw [heq, scopeAt?_depth] at hsc
    cases hsc
    rw [howned, owned, hscope, ← hmark]
    rfl

/-- Scopes further out own none of the cells that the innermost one has made. -/
theorem Sound.owned_le_mark (hs : e.Sound) (hk : k < e.depth) : e.owned k ≤ e.scope.mark.cells := by
  obtain ⟨sc, -, hmem, howned⟩ := owned_of_lt hk
  rw [howned]
  rcases List.mem_cons.mp hmem with rfl | hmem
  · exact Nat.le_refl _
  · exact (hs.held.2.2.2.mark_le sc hmem).1

theorem Sound.owned_le_size (hs : e.Sound) (hk : k ≤ e.depth) : e.owned k ≤ e.store.cells.size := by
  rcases Nat.lt_or_eq_of_le hk with hlt | rfl
  · exact Nat.le_trans (hs.owned_le_mark hlt) hs.held.2.1
  · exact Nat.le_of_eq e.owned_depth

end Depths

/-- From one environment to a later one, what the scopes down to this depth own lasts: values, classes, and which
variable a reference of the scope denotes. -/
structure Lasts (k : Nat) (e e' : Env) : Prop where
  owned_le : e.owned k ≤ e'.owned k
  keeps : ∀ c < e.owned k, ∀ v, e.store.value c = some v → e'.store.value c = some v
  together : ∀ x y, x < e.owned k → y < e.owned k → e.store.find x = e.store.find y → e'.store.find x = e'.store.find y
  slots : ∀ p slot, e.slotAt? k p = some slot → slot.cell < e.owned k → ∃ slot', e'.slotAt? k p = some slot' ∧
    slot'.cell ≤ slot.cell ∧ e'.store.find slot'.cell = e'.store.find slot.cell

namespace Lasts

variable {k : Nat} {e e' e'' : Env}

theorem refl (k : Nat) (e : Env) : e.Lasts k e where
  owned_le := Nat.le_refl _
  keeps := fun _ _ _ h => h
  together := fun _ _ _ _ h => h
  slots := fun _ slot h _ => ⟨slot, h, Nat.le_refl _, rfl⟩

theorem trans (h : e.Lasts k e') (h' : e'.Lasts k e'') : e.Lasts k e'' where
  owned_le := Nat.le_trans h.owned_le h'.owned_le
  keeps := fun c hc v hv => h'.keeps c (Nat.lt_of_lt_of_le hc h.owned_le) v (h.keeps c hc v hv)
  together := fun x y hx hy hxy =>
    h'.together x y (Nat.lt_of_lt_of_le hx h.owned_le) (Nat.lt_of_lt_of_le hy h.owned_le) (h.together x y hx hy hxy)
  slots := fun p slot hslot hlt => by
    obtain ⟨slot', hslot', hle, hfind⟩ := h.slots p slot hslot hlt
    have hlt' := Nat.lt_of_lt_of_le hlt h.owned_le
    obtain ⟨slot'', hslot'', hle', hfind'⟩ := h'.slots p slot' hslot' (Nat.lt_of_le_of_lt hle hlt')
    refine ⟨slot'', hslot'', Nat.le_trans hle' hle, hfind'.trans ?_⟩
    exact h'.together _ _ (Nat.lt_of_le_of_lt hle hlt') hlt' hfind

end Lasts

section Changes

variable {k : Nat} {e e' : Env}

theorem slot?_redirect (e : Env) (p : Param) :
    e.redirect.scope.slot? p = (e.scope.slot? p).map fun slot => slot.move e.store.find := by
  cases p with
  | formal f =>
      change ((e.scope.arguments.map fun a => (a.1, a.2.move e.store.find)).find? _).map _ = _
      rw [List.find?_map, Option.map_map]
      unfold Scope.slot?
      rw [Option.map_map]
      rfl
  | actual a =>
      change e.redirect.scope.slots.find? _ = _
      rw [slots_redirect, List.find?_map]
      rfl

theorem Edit.slot? (h : e.Edit e') {p : Param} {slot : Slot} (hslot : e.scope.slot? p = some slot) :
    ∃ slot', e'.scope.slot? p = some slot' ∧ slot'.cell ≤ slot.cell ∧
      e'.store.find slot'.cell = e'.store.find slot.cell := by
  cases h with
  | numbered => exact ⟨slot, hslot, Nat.le_refl _, rfl⟩
  | allocated a => exact ⟨slot, hslot, Nat.le_refl _, rfl⟩
  | bound _ _ => exact ⟨slot, hslot, Nat.le_refl _, rfl⟩
  | unified _ _ _ => exact ⟨slot, hslot, Nat.le_refl _, rfl⟩
  | added a =>
      refine ⟨slot, ?_, Nat.le_refl _, rfl⟩
      cases p with
      | formal f => exact hslot
      | actual b =>
          change List.find? _ (e.scope.argumentSlots ++ (e.scope.locals ++ [_])) = _
          rw [← List.append_assoc, List.find?_append]
          exact Option.or_eq_some_iff.mpr (.inl hslot)
  | redirected =>
      refine ⟨slot.move e.store.find, ?_, e.store.find_le slot.cell, ?_⟩
      · rw [slot?_redirect, hslot]
        rfl
      · have hfind := (alike_redirect e).find_eq
        exact (hfind _).trans ((e.store.find_find slot.cell).trans (hfind _).symm)

theorem Edit.lasts (h : e.Edit e') (hs : e.Sound) (hk : k ≤ e.depth) : e.Lasts k e' := by
  have hinside := h.inside hs.bounded
  have hle := hs.owned_le_size hk
  have hlt : ∀ {c}, c < e.owned k → c < e.store.cells.size := fun hc => Nat.lt_of_lt_of_le hc hle
  constructor
  case owned_le =>
    rcases Nat.lt_or_eq_of_le hk with hlt | rfl
    · exact Nat.le_of_eq (owned_congr h.enclosing_eq h.mark_eq hlt).symm
    · rw [owned_depth, ← hinside.depth_eq, owned_depth]
      exact hinside.grows.size_le
  case keeps => exact fun c hc => hinside.grows.keeps c (hlt hc)
  case together => exact fun x y hx hy => hinside.grows.together x y (hlt hx) (hlt hy)
  case slots =>
    intro p slot hslot _
    rcases Nat.lt_or_eq_of_le hk with hlt | rfl
    · refine ⟨slot, ?_, Nat.le_refl _, rfl⟩
      rw [slotAt?, scopeAt?_congr h.enclosing_eq hlt]
      exact hslot
    · rw [slotAt?_depth] at hslot
      rw [← hinside.depth_eq, slotAt?_depth]
      exact h.slot? hslot

theorem Edits.lasts (h : e.Edits e') (hs : e.Sound) (hk : k ≤ e.depth) : e.Lasts k e' := by
  induction h with
  | refl => exact .refl k e
  | tail hpre hedit ih =>
      have hinside := Edits.inside hpre hs.bounded
      exact ih.trans (hedit.lasts (hinside.sound hs) (hinside.depth_eq ▸ hk))

theorem scopeAt?_openScope (arguments : List (Formal × Slot)) (hk : k ≤ e.depth) :
    (e.openScope arguments).scopeAt? k = e.scopeAt? k :=
  scopeAt?_of_lt (e := e.openScope arguments) (Nat.lt_succ_of_le hk)

theorem lasts_openScope (arguments : List (Formal × Slot)) (hk : k ≤ e.depth) : e.Lasts k (e.openScope arguments) where
  owned_le := by
    rcases Nat.lt_or_eq_of_le hk with hlt | rfl
    · rw [owned, owned, scopeAt?_openScope arguments (Nat.succ_le_of_lt hlt)]
      exact Nat.le_refl _
    · have hnew : (e.openScope arguments).scopeAt? (e.depth + 1) = some ⟨arguments, [], e.store.mark⟩ :=
        scopeAt?_depth (e.openScope arguments)
      rw [owned_depth, owned, hnew]
      exact Nat.le_refl _
  keeps := fun _ _ _ h => h
  together := fun _ _ _ _ h => h
  slots := fun p slot hslot _ => by
    refine ⟨slot, ?_, Nat.le_refl _, rfl⟩
    rw [slotAt?, scopeAt?_openScope arguments hk]
    exact hslot

theorem scopeAt?_dropScope {outer : Scope} {rest : List Scope} (henc : e.enclosing = outer :: rest)
    (hk : k < e.depth) : (e.dropScope outer rest).scopeAt? k = e.scopeAt? k := by
  rw [scopeAt?_of_lt hk, henc]
  rfl

/-- A scope that closes takes nothing with it that the scopes around it own. -/
theorem lasts_closeScope (hs : e.Sound) (hclose : e.closeScope = .ok e') (hk : k ≤ e'.depth) : e.Lasts k e' := by
  obtain ⟨outer, rest, henc, rfl⟩ := closeScope_eq_ok.mp hclose
  have hdepth : e.depth = (e.dropScope outer rest).depth + 1 := congrArg List.length henc
  have hk' : k ≤ (e.dropScope outer rest).depth := hk
  have hlt : k < e.depth := hdepth ▸ Nat.lt_succ_of_le hk'
  have hmark : ∀ {c}, c < e.owned k → c < e.scope.mark.cells := fun hc =>
    Nat.lt_of_lt_of_le hc (hs.owned_le_mark hlt)
  suffices hdropped : e.Lasts k (e.dropScope outer rest) from
    hdropped.trans ((Edit.redirected _).lasts (hs.dropScope henc) hk')
  constructor
  case owned_le =>
    rcases Nat.lt_or_eq_of_le hk' with hlt' | rfl
    · rw [owned, owned, scopeAt?_dropScope henc (hdepth ▸ Nat.succ_lt_succ hlt')]
      obtain ⟨sc, hsc, -⟩ := owned_of_lt hlt
      rw [hsc]
      exact Nat.le_refl _
    · have hsize : (e.dropScope outer rest).store.cells.size = e.scope.mark.cells :=
        Store.size_closeScope e.depth hs.held.2.1
      rw [owned_depth, hsize]
      exact hs.owned_le_mark hlt
  case keeps =>
    intro c hc v hv
    exact (Store.value_closeScope hs.valid.wide e.depth (hmark hc)).trans hv
  case together =>
    intro x y hx hy hxy
    have hfind : ∀ c < e.owned k, (e.dropScope outer rest).store.find c = e.store.find c :=
      fun c hc => Store.find_closeScope hs.valid.wide e.depth (hmark hc)
    rw [hfind x hx, hfind y hy, hxy]
  case slots =>
    intro p slot hslot _
    refine ⟨slot, ?_, Nat.le_refl _, rfl⟩
    rw [slotAt?, scopeAt?_dropScope henc hlt]
    exact hslot

end Changes

end Env

/-- After a unification that succeeds the two are one class, or hold one value. -/
theorem Store.unify_agrees {s t : Store} {a b : Nat} (ha : a < s.cells.size) (hb : b < s.cells.size)
    (h : s.unify a b = (.ok true, t)) : t.find a = t.find b ∨ ∃ v, t.value a = some v ∧ t.value b = some v := by
  rcases unify_ok ha hb h with ⟨rfl, hsame⟩ | ⟨older, younger, ty, hm⟩
  · exact hsame
  · exact .inl ((hm.joined.find_iff a b).mpr (.inr ⟨.inl rfl, .inr rfl⟩))

theorem Store.bindOrCheck_holds {s t : Store} {a : Nat} {v : Value} (ha : a < s.cells.size)
    (h : s.bindOrCheck a v = (.ok true, t)) : t.value a = some v := by
  rcases bindOrCheck_cases ha h with ⟨rfl, hv⟩ | hgiven
  · exact hv
  · exact hgiven.value_in a rfl

namespace Env

variable {k : Nat} {e e' : Env} {p q : Param} {v : Value}

/-- In the scope of this depth the parameter holds the value. -/
def Holds (e : Env) (depth : Nat) (p : Param) (v : Value) : Prop :=
  ∃ slot, e.slotAt? depth p = some slot ∧ slot.cell < e.owned depth ∧ e.store.value slot.cell = some v

/-- In the scope of this depth two parameters are unbound and in one class, or hold one value. -/
def Agree (e : Env) (depth : Nat) (p q : Param) : Prop :=
  ∃ a b, e.slotAt? depth p = some a ∧ e.slotAt? depth q = some b ∧ a.cell < e.owned depth ∧ b.cell < e.owned depth ∧
    (e.store.find a.cell = e.store.find b.cell ∧ e.store.value a.cell = none ∧ e.store.value b.cell = none ∨
      ∃ v, e.store.value a.cell = some v ∧ e.store.value b.cell = some v)

theorem slotAt?_here {slot : Slot} (h : e.scope.slot? p = some slot) (hlt : slot.cell < e.store.cells.size) :
    e.slotAt? e.depth p = some slot ∧ slot.cell < e.owned e.depth := by
  rw [slotAt?_depth, owned_depth]
  exact ⟨h, hlt⟩

theorem agree_of_slots {a b : Slot} (ha : e.slotAt? k p = some a ∧ a.cell < e.owned k)
    (hb : e.slotAt? k q = some b ∧ b.cell < e.owned k) (h : e.store.find a.cell = e.store.find b.cell ∨
      ∃ v, e.store.value a.cell = some v ∧ e.store.value b.cell = some v) : e.Agree k p q := by
  refine ⟨a, b, ha.1, hb.1, ha.2, hb.2, ?_⟩
  rcases h with hsame | hvalues
  · have hvalue : e.store.value a.cell = e.store.value b.cell := Store.value_congr hsame
    cases hv : e.store.value a.cell with
    | none => exact .inl ⟨hsame, rfl, hvalue ▸ hv⟩
    | some v => exact .inr ⟨v, rfl, hvalue ▸ hv⟩
  · exact .inr hvalues

theorem Lasts.holds (h : e.Lasts k e') (hp : e.Holds k p v) : e'.Holds k p v := by
  obtain ⟨slot, hslot, hlt, hv⟩ := hp
  obtain ⟨slot', hslot', hle, hfind⟩ := h.slots p slot hslot hlt
  refine ⟨slot', hslot', Nat.lt_of_le_of_lt hle (Nat.lt_of_lt_of_le hlt h.owned_le), ?_⟩
  rw [Store.value_congr hfind]
  exact h.keeps slot.cell hlt v hv

theorem Lasts.agree (h : e.Lasts k e') (hpq : e.Agree k p q) : e'.Agree k p q := by
  obtain ⟨a, b, ha, hb, hlt, hlt', hagree⟩ := hpq
  obtain ⟨a', ha', hle, hfind⟩ := h.slots p a ha hlt
  obtain ⟨b', hb', hle', hfind'⟩ := h.slots q b hb hlt'
  refine agree_of_slots ⟨ha', Nat.lt_of_le_of_lt hle (Nat.lt_of_lt_of_le hlt h.owned_le)⟩
    ⟨hb', Nat.lt_of_le_of_lt hle' (Nat.lt_of_lt_of_le hlt' h.owned_le)⟩ ?_
  rcases hagree with ⟨hsame, -⟩ | ⟨v, hv, hw⟩
  · exact .inl (hfind.trans ((h.together a.cell b.cell hlt hlt' hsame).trans hfind'.symm))
  · refine .inr ⟨v, ?_, ?_⟩
    · rw [Store.value_congr hfind]
      exact h.keeps a.cell hlt v hv
    · rw [Store.value_congr hfind']
      exact h.keeps b.cell hlt' v hw

end Env

/-- A parameter that has been resolved holds the value that it is given after edits. -/
theorem Env.assign_holds {e e₁ e₂ e' : Env} {p : Param} {target : Resolved} {v : Value} (hs : e.Sound)
    (hp : e.resolve p = .ok (target, e₁)) (hedits : e₁.Edits e₂) (h : e₂.assign target v = .ok (some e')) :
    e'.Holds e.depth p v := by
  obtain ⟨s, hbind, rfl, -⟩ := Env.assign_some h
  obtain ⟨hquiet, hlt, -⟩ := Env.resolve_ok hs.bounded hp
  have hslot := (Env.resolve_adds (P := fun _ => True) (Q := fun _ => True) trivial hp).2.2
  have hs₁ := hquiet.toInside.sound hs
  have hinside := hedits.inside hs₁.bounded
  have hlt₂ := Nat.lt_of_lt_of_le hlt hinside.grows.size_le
  obtain ⟨hhere, howned⟩ := Env.slotAt?_here hslot hlt
  obtain ⟨slot, hslot₂, hle, hfind⟩ := (hedits.lasts hs₁ (Nat.le_refl _)).slots p _ hhere howned
  rw [← hinside.depth_eq, Env.slotAt?_depth] at hslot₂
  have hgrows := Store.grows_bindOrCheck hbind
  have hdepth : ({ e₂ with store := s } : Env).depth = e.depth := hinside.depth_eq.trans hquiet.toInside.depth_eq
  have hcell := Nat.lt_of_le_of_lt hle hlt₂
  obtain ⟨hat, hlt'⟩ :=
    Env.slotAt?_here (e := { e₂ with store := s }) hslot₂ (Nat.lt_of_lt_of_le hcell hgrows.size_le)
  rw [hdepth] at hat hlt'
  refine ⟨slot, hat, hlt', ?_⟩
  rw [Store.value_congr (hgrows.together _ _ hcell hlt₂ hfind)]
  exact Store.bindOrCheck_holds hlt₂ hbind

namespace Goal

variable {e e' : Env} {p : Param}

/-- Two parameters agree once a binding between them has succeeded. -/
theorem bind_agrees {q : Param} (hs : e.Sound) (h : ((Goal.bind p (.param q) : Goal σ).step e).Runs (.next e')) :
    e'.Agree e.depth p q := by
  have hinside : e.Inside e' := step_next hs.bounded h
  have hdepth : e.depth = e'.depth := hinside.depth_eq.symm
  obtain ⟨target, e₁, hp, ⟨q', source, e₂, s, hq', hq, hu, rfl⟩ | ⟨_, _, _, hne, -⟩⟩ := bind_next h
  · cases hq'
    obtain ⟨hquiet, htarget, -, -⟩ := Env.resolve_ok hs.bounded hp
    obtain ⟨hquiet', hsource, -, -, hlasts⟩ := Env.resolve_ok (hquiet.bounded hs.bounded) hq
    have hslot := hlasts p _ (Env.resolve_adds (P := fun _ => True) (Q := fun _ => True) trivial hp).2.2
    have hslot' := (Env.resolve_adds (P := fun _ => True) (Q := fun _ => True) trivial hq).2.2
    have htarget' := Nat.lt_of_lt_of_le htarget hquiet'.grows.size_le
    have hstore : e₂.Inside { e₂ with store := s } :=
      .of_store (Store.grows_unify htarget' hsource hu) fun hv => hv.unify htarget' hsource hu
    have hunified : e.Inside { e₂ with store := s } := (hquiet.trans hquiet').toInside.trans hstore
    have hsize := hstore.grows.size_le
    have hagree : ({ e₂ with store := s } : Env).Agree e.depth p q := by
      rw [← hunified.depth_eq]
      exact Env.agree_of_slots (Env.slotAt?_here hslot (Nat.lt_of_lt_of_le htarget' hsize))
        (Env.slotAt?_here hslot' (Nat.lt_of_lt_of_le hsource hsize)) (Store.unify_agrees htarget' hsource hu)
    have hredirect := (Env.Edit.redirected { e₂ with store := s }).lasts (k := e.depth) (hunified.sound hs)
      (Nat.le_of_eq hunified.depth_eq.symm)
    exact hredirect.agree hagree
  · exact absurd rfl (hne q)

/-- A parameter holds the value of the term once a binding between them has succeeded. -/
theorem bind_holds {t : Term σ} (hs : e.Sound) (ht : ∀ q, t ≠ .param q) {w w' : World σ}
    (h : ExceptT.run ((Goal.bind p t).step e) w = (.ok (.next e'), w')) :
    ∃ target e₁ v e₂, e.resolve p = .ok (target, e₁) ∧ ExceptT.run (t.evaluate e₁) w = (.ok (v, e₂), w') ∧
      e'.Holds e.depth p v := by
  obtain ⟨o, w₁, hsolve, hrest⟩ := Engine.bind_succeeds h
  cases o with
  | none =>
      obtain ⟨_, _, -, hrest⟩ := Engine.bind_succeeds hrest
      cases hrest
  | some e₃ =>
  cases hrest
  obtain ⟨⟨target, e₁⟩, w₁, hp, hsolve⟩ := Engine.bind_succeeds hsolve
  have hresolved : e.resolve p = .ok (target, e₁) := Engine.Runs.of_lift ⟨_, _, hp⟩
  rw [Engine.run_lift] at hp
  obtain ⟨-, rfl⟩ := Prod.mk.inj hp
  have hvalue
      (h : ExceptT.run (t.evaluate e₁ >>= fun q => Engine.lift (q.2.assign target q.1)) w = (.ok (some e'), w')) :
      ∃ v e₂, ExceptT.run (t.evaluate e₁) w = (.ok (v, e₂), w') ∧ e'.Holds e.depth p v := by
    obtain ⟨⟨v, e₂⟩, w₂, hv, hassign⟩ := Engine.bind_succeeds h
    have hassigned : e₂.assign target v = .ok (some e') := Engine.Runs.of_lift ⟨_, _, hassign⟩
    rw [Engine.run_lift] at hassign
    obtain ⟨-, rfl⟩ := Prod.mk.inj hassign
    exact ⟨v, e₂, hv, Env.assign_holds hs hresolved (Term.evaluate_widens ⟨w, w₂, hv⟩).edits hassigned⟩
  cases t with
  | param q => exact absurd rfl (ht q)
  | constant ty u =>
      obtain ⟨v, e₂, h⟩ := hvalue hsolve
      exact ⟨target, e₁, v, e₂, hresolved, h⟩
  | map ty s =>
      obtain ⟨v, e₂, h⟩ := hvalue hsolve
      exact ⟨target, e₁, v, e₂, hresolved, h⟩

end Goal

namespace Resolvent

variable {k : Nat} {r r' : Resolvent σ}

theorem Move.lasts (h : r.Move r') (hs : r.env.Sound) (hk : k ≤ r.env.depth) (hk' : k ≤ r'.env.depth) :
    r.env.Lasts k r'.env := by
  cases h with
  | edits hedits _ => exact Env.Edits.lasts hedits hs hk
  | calls _ hedits _ _ => exact Env.Edits.lasts hedits hs hk
  | opens arguments _ heq _ =>
      rw [heq]
      exact Env.lasts_openScope arguments hk
  | closes hclose _ => exact Env.lasts_closeScope hs hclose hk'

/-- No step but those that leave the scope does away with what it owns. -/
theorem Within.lasts (h : Within k r r') (hr : r.Shaped) (hk : k ≤ r.env.depth) :
    r.env.Lasts k r'.env ∧ k ≤ r'.env.depth := by
  induction h with
  | refl => exact ⟨.refl k r.env, hk⟩
  | tail hpre hstep ih =>
      obtain ⟨hlasts, hdepth⟩ := ih
      have hsound := ((Within.trail hpre).shaped hr).sound
      exact ⟨hlasts.trans ((hstep.1.move hsound.bounded).lasts hsound hdepth hstep.2), hstep.2⟩

/-- Environments that a branch has from here on, as long as the scope of this depth is open: between two goals, or
stopped at a call. -/
def Later (k : Nat) (r : Resolvent σ) (e : Env) : Prop :=
  ∃ r', Within k r r' ∧ (e = r'.env ∨ ∃ stopped, r'.StopsAt stopped ∧ e = stopped.env)

theorem StopsAt.edits {stopped : Call σ} (h : r.StopsAt stopped) (hs : r.env.Sound) : r.env.Edits stopped.env := by
  obtain ⟨g, -, hstep⟩ := h
  exact (Goal.step_passes hs.bounded hstep).1

theorem Later.lasts {e : Env} (h : r.Later k e) (hr : r.Shaped) (hk : k ≤ r.env.depth) : r.env.Lasts k e := by
  obtain ⟨r', hwithin, hpoint⟩ := h
  obtain ⟨hlasts, hdepth⟩ := hwithin.lasts hr hk
  rcases hpoint with rfl | ⟨stopped, hstops, rfl⟩
  · exact hlasts
  · have hsound := ((Within.trail hwithin).shaped hr).sound
    exact hlasts.trans (Env.Edits.lasts (hstops.edits hsound) hsound hdepth)

end Resolvent

/-- Along a branch, from any environment between two goals or at a call on, what the scopes own lasts as long as they
are open. Two parameters that a binding has unified agree from then on, and a parameter that has got the value of a
constant or of a map holds it from then on. -/
theorem Resolvent.bindings_last {actuals : List Actual} {c : Clause σ} {r₀ r : Resolvent σ}
    (hstart : Starts actuals c r₀) (htrail : r₀.Trail r) :
    (∀ k e, k ≤ r.env.depth → r.Later k e → r.env.Lasts k e) ∧
      (∀ stopped callee r', r.StopsAt stopped → callee.Authored → callee.Matches stopped.actuals →
        (stopped.resume callee).Runs r' → ∀ k e, k ≤ stopped.env.depth → r'.Later k e → stopped.env.Lasts k e) ∧
      ∀ p t rest w w' e', r.agenda.next? = some (.bind p t, rest) →
        ExceptT.run ((Goal.bind p t).step r.env) w = (.ok (.next e'), w') →
          (∀ q, t = .param q → ∀ e, (⟨e', rest⟩ : Resolvent σ).Later r.env.depth e → e.Agree r.env.depth p q) ∧
          ((∀ q, t ≠ .param q) → ∃ target e₁ v e₂, r.env.resolve p = .ok (target, e₁) ∧
            ExceptT.run (t.evaluate e₁) w = (.ok (v, e₂), w') ∧
              ∀ e, (⟨e', rest⟩ : Resolvent σ).Later r.env.depth e → e.Holds r.env.depth p v) := by
  have hshaped := htrail.shaped hstart.shaped
  refine ⟨fun k e hk hlater => hlater.lasts hshaped hk, ?_, ?_⟩
  · intro stopped callee r' hstops hauth hmatch hresume k e hk hlater
    obtain ⟨g, hnext, hstep⟩ := hstops
    have hshaped' := (hshaped.call hnext hstep hauth hresume).1
    have hsound := (Goal.step_call hshaped.sound.bounded hstep).2.1.toInside.sound hshaped.sound
    have hedits : stopped.env.Edits r'.env := (resume_runs hresume).1 ▸ .single (.numbered stopped.env)
    have hdepth : r'.env.depth = stopped.env.depth := (hedits.inside hsound.bounded).depth_eq
    exact (hedits.lasts hsound hk).trans (hlater.lasts hshaped' (hdepth ▸ hk))
  · intro p t rest w w' e' hnext hrun
    have hruns : ((Goal.bind p t).step r.env).Runs (.next e') := ⟨w, w', hrun⟩
    have hshaped' := (hshaped.goal hnext hruns).1
    have hdepth : r.env.depth = e'.depth := (Goal.step_next hshaped.sound.bounded hruns : r.env.Inside e').depth_eq.symm
    constructor
    · rintro q rfl e hlater
      exact (hlater.lasts hshaped' (Nat.le_of_eq hdepth)).agree (Goal.bind_agrees hshaped.sound hruns)
    · intro ht
      obtain ⟨target, e₁, v, e₂, hp, hv, hholds⟩ := Goal.bind_holds hshaped.sound ht hrun
      exact ⟨target, e₁, v, e₂, hp, hv, fun e hlater => (hlater.lasts hshaped' (Nat.le_of_eq hdepth)).holds hholds⟩

/-- A clause gives its formal a value and then calls another one with it. -/
def keeping : Clause Unit where
  name := "keep"
  formals := [⟨0, "kept", .int⟩]
  body := .fixed
    [.bind (.formal ⟨0, "kept", .int⟩) (.literal (.int 5)), .call "share" [.param (.formal ⟨0, "kept", .int⟩)]]
  name_ne := by decide
  distinct := by decide

def sharing : Clause Unit where
  name := "share"
  formals := [⟨1, "lent", .int⟩]
  body := .fixed [.bind (.actual (.output (.shared 1) none .int none)) (.param (.formal ⟨1, "lent", .int⟩))]
  name_ne := by decide
  distinct := by decide

/-- The clause stops at the call, and when that has come back the formal holds what it was given before. -/
theorem keeping_holds : ∃ (r r₁ : Resolvent Unit) (stopped : Call Unit) (e : Env) (a : Agenda Unit),
    Resolvent.Starts [.output (.shared 0) none .int none] keeping r ∧ r.Trail r₁ ∧ r₁.StopsAt stopped ∧
      r₁.Trail ⟨e, a⟩ ∧ a.toList = [] ∧ e.Holds 0 (.formal ⟨0, "kept", .int⟩) (.int 5) := by
  have hkeeping : keeping.Authored := Clause.authored_of_fixed rfl (by simp [Goal.Authored])
  have hsharing : sharing.Authored := Clause.authored_of_fixed rfl (by simp [Goal.Authored])
  let after (r : Resolvent Unit) (rest : Agenda Unit) : Option Bool :=
    match ExceptT.run ((Goal.bind (.formal ⟨0, "kept", .int⟩) (.literal (.int 5))).step r.env) (World.start ()) with
    | (.ok (.next e'), _) => (ExceptT.run (Resolvent.solve e' rest) (World.start ())).1.toOption.bind fun o =>
        o.stopped?.bind fun call =>
          (ExceptT.run ((Pending.call call).solve sharing) (World.start ())).1.toOption.bind fun o =>
            o.env?.map fun _ => decide (sharing.Matches call.actuals)
    | (.ok .failed, _) | (.ok (.call _ _ _), _) | (.error _, _) => none
  obtain ⟨r, rest, hstart, hnext, hdepth, hafter⟩ : ∃ r rest,
      Resolvent.Starts [.output (.shared 0) none .int none] keeping r ∧
        r.agenda.next? = some (.bind (.formal ⟨0, "kept", .int⟩) (.literal (.int 5)), rest) ∧ r.env.depth = 0 ∧
          after r rest = some true :=
    ⟨⟨_, _⟩, _, ⟨hkeeping, by decide, World.start (), _, rfl⟩, rfl, rfl, by decide +kernel⟩
  simp only [after] at hafter
  split at hafter
  · rename_i e' w' hbind
    obtain ⟨o₁, hfirst, hafter⟩ := Option.bind_eq_some_iff.mp hafter
    obtain ⟨call, hstopped, hafter⟩ := Option.bind_eq_some_iff.mp hafter
    obtain ⟨o₂, hsecond, hafter⟩ := Option.bind_eq_some_iff.mp hafter
    obtain ⟨e, hcomplete, hmatches⟩ := Option.map_eq_some_iff.mp hafter
    have hfollows := Resolvent.solve_follows (.refl (a := (⟨e', rest⟩ : Resolvent Unit))) (.of_toOption hfirst)
    obtain ⟨e₁, a₁, g, htrail₁, hnext₁, hstep₁⟩ := hfollows.of_stopped? hstopped
    obtain ⟨r₂, hresume, hsolve⟩ := Engine.Runs.of_bind (.of_toOption hsecond)
    have hcall : (⟨e₁, a₁⟩ : Resolvent Unit).Trail r₂ :=
      .single (.call hnext₁ hstep₁ hsharing (of_decide_eq_true hmatches) hresume)
    obtain ⟨a, hnil, htrail⟩ := (Resolvent.solve_follows hcall hsolve).of_env? hcomplete
    obtain ⟨-, hholds⟩ := (Resolvent.bindings_last hstart .refl).2.2 _ _ _ _ _ _ hnext hbind
    obtain ⟨target, e₃, v, e₄, -, hv, hlater⟩ := hholds fun q hq => by cases hq
    cases hv
    rw [hdepth] at hlater
    have hstops : Resolvent.Trail r ⟨e₁, a₁⟩ := .head (.goal hnext ⟨_, _, hbind⟩) htrail₁
    refine ⟨r, ⟨e₁, a₁⟩, call, e, a, hstart, hstops, ⟨g, hnext₁, hstep₁⟩, htrail, hnil, ?_⟩
    exact hlater e ⟨⟨e, a⟩, Resolvent.Trail.within (htrail₁.trans htrail), .inl rfl⟩
  all_goals cases hafter

end Clausal
