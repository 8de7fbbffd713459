import Clausal.Proofs.GoalSteps
import Clausal.Proofs.Mirror
import Mathlib.Data.List.Forall2

/-! Mirrored environments. The scopes that have been opened since two calls correspond slot by slot; what
encloses them may be anything. Main statements: references, names and views are answered alike on both
sides, and whatever is done to the innermost scopes keeps the environments mirrored. -/
namespace Clausal

variable {α β γ δ ε : Type}

/-- Both sides fail in one way, or both have values, which correspond. -/
inductive Agree (P : α → β → Prop) : Except ε α → Except ε β → Prop where
  | ok {a : α} {b : β} : P a b → Agree P (.ok a) (.ok b)
  | error (e : ε) : Agree P (.error e) (.error e)

namespace Agree

variable {P : α → β → Prop} {x : Except ε α} {y : Except ε β}

theorem refl (x : Except ε α) : Agree Eq x x := by
  cases x with
  | error e => exact .error e
  | ok a => exact .ok rfl

theorem imp {Q : α → β → Prop} (h : Agree P x y) (hPQ : ∀ a b, P a b → Q a b) : Agree Q x y := by
  cases h with
  | error e => exact .error e
  | ok hab => exact .ok (hPQ _ _ hab)

theorem map {Q : γ → δ → Prop} {f : α → γ} {g : β → δ} (h : Agree P x y) (hPQ : ∀ a b, P a b → Q (f a) (g b)) :
    Agree Q (x.map f) (y.map g) := by
  cases h with
  | error e => exact .error e
  | ok hab => exact .ok (hPQ _ _ hab)

theorem bind {Q : γ → δ → Prop} {k : α → Except ε γ} {l : β → Except ε δ} (h : Agree P x y)
    (hk : ∀ a b, P a b → x = .ok a → y = .ok b → Agree Q (k a) (l b)) : Agree Q (x >>= k) (y >>= l) := by
  cases h with
  | error e => exact .error e
  | ok hab => exact hk _ _ hab rfl rfl

theorem bind_eq {k : α → Except ε γ} {l : β → Except ε γ} (h : Agree P x y)
    (hk : ∀ a b, P a b → k a = l b) : (x >>= k) = (y >>= l) := by
  cases h with
  | error e => rfl
  | ok hab => exact hk _ _ hab

end Agree

def Resolved.move (g : Nat → Nat) (r : Resolved) : Resolved := { r with slot := r.slot.move g }

namespace Scope

def move (g : Nat → Nat) (sc : Scope) : Scope :=
  { sc with
    arguments := moveAll g sc.arguments
    locals := sc.locals.map (Slot.move g) }

theorem argumentSlots_move (g : Nat → Nat) (sc : Scope) :
    (sc.move g).argumentSlots = sc.argumentSlots.map (Slot.move g) := by
  rw [argumentSlots, move, moveAll, argumentSlots, List.map_map, List.map_map]
  rfl

theorem slots_move (g : Nat → Nat) (sc : Scope) : (sc.move g).slots = sc.slots.map (Slot.move g) := by
  rw [slots, argumentSlots_move, slots, List.map_append]
  rfl

theorem slot?_move (g : Nat → Nat) (sc : Scope) (p : Param) : (sc.move g).slot? p = (sc.slot? p).map (Slot.move g) := by
  cases p with
  | formal f =>
      simp only [slot?, move, moveAll, List.find?_map, Option.map_map]
      rfl
  | actual a =>
      simp only [slot?, slots_move, List.find?_map]
      rfl

theorem bodyMatches_move (g : Nat → Nat) (sc : Scope) (name : String) :
    (sc.move g).bodyMatches name = (sc.bodyMatches name).map (Resolved.move g) := by
  simp only [bodyMatches, move, moveAll, List.filter_map, List.map_map, List.map_append]
  rfl

theorem callerMatches_move (g : Nat → Nat) (sc : Scope) (name : String) :
    (sc.move g).callerMatches name = (sc.callerMatches name).map (Resolved.move g) := by
  simp only [callerMatches, argumentSlots_move, List.filter_map, List.map_map]
  rfl

end Scope

namespace Mirror

variable (μ : Mirror)

/-- Scopes whose slots correspond one by one and denote cells that are seen. -/
structure Scopes (sc sc' : Scope) : Prop where
  arguments : sc'.arguments = moveAll μ.cell sc.arguments
  locals : sc'.locals = sc.locals.map (Slot.move μ.cell)
  marks : μ.Marks sc.mark sc'.mark
  seen : ∀ slot ∈ sc.slots, slot.cell ∈ μ.seen

/-- The innermost scopes correspond, as do the scopes that enclose them down to the two callers'. -/
structure Envs (e e' : Env) : Prop where
  stores : μ.Stores e.store e'.store
  sound : e.Sound
  sound' : e'.Sound
  scope : μ.Scopes e.scope e'.scope
  enclosing : ∃ inner inner' outer outer', e.enclosing = inner ++ outer ∧ e'.enclosing = inner' ++ outer' ∧
    outer.length = μ.left.depth + 1 ∧ outer'.length = μ.right.depth + 1 ∧ List.Forall₂ μ.Scopes inner inner'
  serial : e'.serial = e.serial

structure Resolutions (p q : Resolved × Env) : Prop where
  moved : q.1 = p.1.move μ.cell
  seen : p.1.slot.cell ∈ μ.seen
  lt : p.1.slot.cell < p.2.store.cells.size
  envs : μ.Envs p.2 q.2

structure Passings (p q : Slot × Env) : Prop where
  moved : q.1 = p.1.move μ.cell
  seen : p.1.cell ∈ μ.seen
  lt : p.1.cell < p.2.store.cells.size
  envs : μ.Envs p.2 q.2

variable {μ} {sc sc' : Scope} {e e' : Env}

namespace Scopes

theorem eq_move (h : μ.Scopes sc sc') : sc' = { sc.move μ.cell with mark := sc'.mark } := by
  obtain ⟨harguments, hlocals, -, -⟩ := h
  cases sc'
  cases harguments
  cases hlocals
  rfl

theorem slot? (h : μ.Scopes sc sc') (p : Param) : sc'.slot? p = (sc.slot? p).map (Slot.move μ.cell) := by
  rw [h.eq_move, ← sc.slot?_move μ.cell p]
  cases p <;> rfl

theorem bodyMatches (h : μ.Scopes sc sc') (name : String) :
    sc'.bodyMatches name = (sc.bodyMatches name).map (Resolved.move μ.cell) := by
  rw [h.eq_move]
  exact sc.bodyMatches_move μ.cell name

theorem callerMatches (h : μ.Scopes sc sc') (name : String) :
    sc'.callerMatches name = (sc.callerMatches name).map (Resolved.move μ.cell) := by
  rw [h.eq_move]
  exact sc.callerMatches_move μ.cell name

end Scopes

end Mirror

theorem Scope.mem_slots_of_bodyMatches {sc : Scope} {name : String} {r : Resolved} (h : r ∈ sc.bodyMatches name) :
    r.slot ∈ sc.slots := by
  rcases List.mem_append.mp h with h | h
  · obtain ⟨a, ha, rfl⟩ := List.mem_map.mp h
    exact List.mem_append_left _ (List.mem_map_of_mem (List.mem_filter.mp ha).1)
  · obtain ⟨slot, hslot, rfl⟩ := List.mem_map.mp h
    exact List.mem_append_right _ (List.mem_filter.mp hslot).1

theorem Scope.mem_slots_of_callerMatches {sc : Scope} {name : String} {r : Resolved} (h : r ∈ sc.callerMatches name) :
    r.slot ∈ sc.slots := by
  obtain ⟨slot, hslot, rfl⟩ := List.mem_map.mp h
  exact List.mem_append_left _ (List.mem_filter.mp hslot).1

namespace Mirror.Envs

variable {μ : Mirror} {e e' : Env}

theorem depths (h : μ.Envs e e') : ∃ k, e.depth = μ.left.depth + (k + 1) ∧ e'.depth = μ.right.depth + (k + 1) := by
  obtain ⟨inner, inner', outer, outer', henc, henc', hlen, hlen', hinner⟩ := h.enclosing
  refine ⟨inner.length, ?_, ?_⟩
  · rw [Env.depth, henc, List.length_append, hlen]
    omega
  · rw [Env.depth, henc', List.length_append, hlen', hinner.length_eq]
    omega

theorem slot_seen (h : μ.Envs e e') {p : Param} {slot : Slot} (hs : e.scope.slot? p = some slot) :
    slot.cell ∈ μ.seen ∧ slot.cell < e.store.cells.size := by
  have hmem := Scope.mem_slots_of_slot? hs
  exact ⟨h.scope.seen slot hmem, h.sound.bounded slot hmem⟩

/-- Changes inside the innermost scopes leave what encloses them. -/
theorem inside (h : μ.Envs e e') {e₁ e₁' : Env} (hin : e.Inside e₁) (hin' : e'.Inside e₁')
    (hstores : μ.Stores e₁.store e₁'.store) (hscope : μ.Scopes e₁.scope e₁'.scope) (hserial : e₁'.serial = e₁.serial) :
    μ.Envs e₁ e₁' where
  stores := hstores
  sound := hin.sound h.sound
  sound' := hin'.sound h.sound'
  scope := hscope
  enclosing := by
    rw [hin.enclosing_eq, hin'.enclosing_eq]
    exact h.enclosing
  serial := hserial

theorem nextSerial (h : μ.Envs e e') : μ.Envs e.nextSerial.2 e'.nextSerial.2 :=
  h.inside (.nextSerial e) (.nextSerial e') h.stores h.scope (congrArg Nat.succ h.serial)

theorem allocated (h : μ.Envs e e') (a : Actual) :
    μ.Stores (e.store.allocateFor a e.depth).2 (e'.store.allocateFor a e'.depth).2 := by
  obtain ⟨k, hdepth, hdepth'⟩ := h.depths
  rw [hdepth, hdepth']
  exact h.stores.allocateFor a (k + 1)

theorem addLocal (h : μ.Envs e e') (a : Actual) :
    (e'.addLocal a).1 = (e.addLocal a).1.move μ.cell ∧ μ.Envs (e.addLocal a).2 (e'.addLocal a).2 := by
  obtain ⟨hnew, hcell⟩ := h.stores.size_mem
  have hslot : (⟨a, e'.store.cells.size⟩ : Slot) = Slot.move μ.cell ⟨a, e.store.cells.size⟩ := by
    rw [hcell]
    rfl
  refine ⟨hslot, h.inside (.addLocal e a) (.addLocal e' a) (h.allocated a) ?_ h.serial⟩
  constructor
  · exact h.scope.arguments
  · change e'.scope.locals ++ [(⟨a, e'.store.cells.size⟩ : Slot)] =
      (e.scope.locals ++ [(⟨a, e.store.cells.size⟩ : Slot)]).map (Slot.move μ.cell)
    rw [h.scope.locals, hslot, List.map_append]
    rfl
  · exact h.scope.marks
  · intro slot hmem
    rcases Env.mem_slots_addLocal.mp hmem with hold | rfl
    · exact h.scope.seen slot hold
    · exact hnew

theorem resolve (h : μ.Envs e e') (p : Param) : Agree μ.Resolutions (e.resolve p) (e'.resolve p) := by
  unfold Env.resolve
  rw [h.scope.slot? p]
  cases hs : e.scope.slot? p with
  | some slot => exact .ok ⟨rfl, (h.slot_seen hs).1, (h.slot_seen hs).2, h⟩
  | none =>
      cases p with
      | formal f => exact .error _
      | actual a =>
          obtain ⟨hslot, henvs⟩ := h.addLocal a
          have hlt : e.store.cells.size < (e.addLocal a).2.store.cells.size := by
            change _ < (e.store.allocateFor a e.depth).2.cells.size
            rw [Store.size_allocateFor]
            exact Nat.lt_succ_self _
          exact .ok ⟨congrArg (fun slot => (⟨slot, a.ty⟩ : Resolved)) hslot, h.stores.size_mem.1, hlt, henvs⟩

theorem read (h : μ.Envs e e') (p : Param) : Agree (fun a b => b.1 = a.1 ∧ μ.Envs a.2 b.2) (e.read p) (e'.read p) := by
  refine (h.resolve p).bind fun a b hab _ _ => ?_
  obtain ⟨⟨slot, ty⟩, e₁⟩ := a
  obtain ⟨r, e₁'⟩ := b
  obtain ⟨rfl, hseen, -, henvs⟩ := hab
  have hvalue : e₁'.store.value (μ.cell slot.cell) = e₁.store.value slot.cell := henvs.stores.value hseen
  simp only [Resolved.move, Slot.move, hvalue]
  cases e₁.store.value slot.cell with
  | none => exact .error _
  | some v => exact .ok ⟨rfl, henvs⟩

theorem addLiteral (h : μ.Envs e e') (ty : Ty) (v : Value) :
    Agree μ.Passings (e.addLiteral ty v) (e'.addLiteral ty v) := by
  unfold Env.addLiteral Env.nextSerial
  simp only [h.serial]
  refine (Agree.refl (Actual.input? (.literal e.serial) none ty v none)).bind fun a b hab _ _ => ?_
  subst hab
  have hnext := h.nextSerial
  have hin (f : Env) : f.Inside { f with store := (f.store.allocateFor a f.depth).2 } :=
    .of_store (f.store.grows_allocateFor a f.depth) fun hv => hv.allocateFor a f.depth
  obtain ⟨hseen, hcell⟩ := hnext.stores.size_mem
  have henvs := hnext.inside (hin e.nextSerial.2) (hin e'.nextSerial.2) (hnext.allocated a) hnext.scope hnext.serial
  refine .ok ⟨congrArg (Slot.mk a) hcell, hseen, ?_, ?_⟩
  · change e.store.cells.size < (e.store.allocateFor a e.depth).2.cells.size
    rw [Store.size_allocateFor]
    exact Nat.lt_succ_self _
  · simp only [Env.nextSerial, h.serial] at henvs
    exact henvs

theorem checkDeclared (h : μ.Envs e e') {r : Resolved} (hr : r.slot.cell ∈ μ.seen) :
    e'.checkDeclared (r.move μ.cell) = e.checkDeclared r := by
  have hvalue : e'.store.value (r.move μ.cell).slot.cell = e.store.value r.slot.cell := h.stores.value hr
  unfold Env.checkDeclared
  rw [hvalue]
  rfl

theorem redirect (h : μ.Envs e e') : μ.Envs e.redirect e'.redirect := by
  have hslot : ∀ slot ∈ e.scope.slots,
      Slot.move e'.store.find (slot.move μ.cell) = Slot.move μ.cell (slot.move e.store.find) := by
    intro slot hslot
    have hfind := (h.stores.find slot.cell (h.scope.seen slot hslot)).2
    simp only [Slot.move, hfind]
  refine h.inside (.redirect e) (.redirect e') (h.stores.compressAll _ _) ?_ h.serial
  constructor
  · change moveAll e'.store.find e'.scope.arguments = moveAll μ.cell (moveAll e.store.find e.scope.arguments)
    rw [h.scope.arguments]
    simp only [moveAll, List.map_map]
    apply List.map_congr_left
    intro a ha
    exact congrArg (Prod.mk a.1) (hslot a.2 (List.mem_append_left _ (List.mem_map_of_mem ha)))
  · change e'.scope.locals.map (Slot.move e'.store.find) = (e.scope.locals.map (Slot.move e.store.find)).map _
    rw [h.scope.locals, List.map_map, List.map_map]
    apply List.map_congr_left
    intro slot hmem
    exact hslot slot (List.mem_append_right _ hmem)
  · exact h.scope.marks
  · intro slot hmem
    rw [Env.slots_redirect] at hmem
    obtain ⟨old, hold, rfl⟩ := List.mem_map.mp hmem
    exact (h.stores.find old.cell (h.scope.seen old hold)).1

theorem equate (h : μ.Envs e e') {target source : Resolved} (ht : target.slot.cell ∈ μ.seen)
    (hs : source.slot.cell ∈ μ.seen) (htlt : target.slot.cell < e.store.cells.size)
    (hslt : source.slot.cell < e.store.cells.size) :
    Agree (Option.Rel μ.Envs) (e.equate target source) (e'.equate (target.move μ.cell) (source.move μ.cell)) := by
  have htlt' := (h.stores.lt_size ht).mpr htlt
  have hslt' := (h.stores.lt_size hs).mpr hslt
  obtain ⟨hresult, hstores⟩ : (e'.store.unify (target.move μ.cell).slot.cell (source.move μ.cell).slot.cell).1 =
      (e.store.unify target.slot.cell source.slot.cell).1 ∧ μ.Stores (e.store.unify target.slot.cell source.slot.cell).2
        (e'.store.unify (target.move μ.cell).slot.cell (source.move μ.cell).slot.cell).2 :=
    h.stores.unify ht hs htlt hslt
  unfold Env.equate
  rcases hu : e.store.unify target.slot.cell source.slot.cell with ⟨r, t⟩
  rcases hu' : e'.store.unify (target.move μ.cell).slot.cell (source.move μ.cell).slot.cell with ⟨r', t'⟩
  rw [hu, hu'] at hresult hstores
  obtain rfl : r' = r := hresult
  rcases r' with err | b
  · exact .error err
  cases b with
  | false => exact .ok .none
  | true =>
      have hin : e.Inside { e with store := t } :=
        .of_store (Store.grows_unify htlt hslt hu) fun hv => hv.unify htlt hslt hu
      have hin' : e'.Inside { e' with store := t' } :=
        .of_store (Store.grows_unify htlt' hslt' hu') fun hv => hv.unify htlt' hslt' hu'
      have henvs := (h.inside hin hin' hstores h.scope h.serial).redirect
      simp only [henvs.checkDeclared hs, henvs.checkDeclared ht]
      refine (Agree.refl _).bind fun _ _ _ _ _ => (Agree.refl _).bind fun _ _ _ _ _ => .ok (.some henvs)

theorem assign (h : μ.Envs e e') {target : Resolved} (ht : target.slot.cell ∈ μ.seen)
    (hlt : target.slot.cell < e.store.cells.size) (v : Value) :
    Agree (Option.Rel μ.Envs) (e.assign target v) (e'.assign (target.move μ.cell) v) := by
  obtain ⟨hresult, hstores⟩ : (e'.store.bindOrCheck (target.move μ.cell).slot.cell v).1 =
      (e.store.bindOrCheck target.slot.cell v).1 ∧ μ.Stores (e.store.bindOrCheck target.slot.cell v).2
        (e'.store.bindOrCheck (target.move μ.cell).slot.cell v).2 :=
    h.stores.bindOrCheck ht hlt v
  unfold Env.assign
  rcases hu : e.store.bindOrCheck target.slot.cell v with ⟨r, t⟩
  rcases hu' : e'.store.bindOrCheck (target.move μ.cell).slot.cell v with ⟨r', t'⟩
  rw [hu, hu'] at hresult hstores
  obtain rfl : r' = r := hresult
  rcases r' with err | b
  · exact .error err
  cases b with
  | false => exact .ok .none
  | true =>
      have hin : e.Inside { e with store := t } :=
        .of_store (Store.grows_bindOrCheck hu) fun hv => hv.bindOrCheck hu
      have hin' : e'.Inside { e' with store := t' } :=
        .of_store (Store.grows_bindOrCheck hu') fun hv => hv.bindOrCheck hu'
      have henvs := h.inside hin hin' hstores h.scope h.serial
      simp only [henvs.checkDeclared ht]
      exact (Agree.refl _).bind fun _ _ _ _ _ => .ok (.some henvs)

theorem openScope (h : μ.Envs e e') {arguments : List (Formal × Slot)} (hseen : ∀ a ∈ arguments, a.2.cell ∈ μ.seen)
    (hlt : ∀ a ∈ arguments, a.2.cell < e.store.cells.size) :
    μ.Envs (e.openScope arguments) (e'.openScope (moveAll μ.cell arguments)) where
  stores := h.stores
  sound := h.sound.openScope hlt
  sound' := h.sound'.openScope fun a' ha' => by
    obtain ⟨a, ha, rfl⟩ := List.mem_map.mp ha'
    exact (h.stores.lt_size (hseen a ha)).mpr (hlt a ha)
  scope := by
    refine ⟨rfl, rfl, h.stores.mark, fun slot hslot => ?_⟩
    obtain ⟨a, ha, rfl⟩ := Env.mem_slots_openScope.mp hslot
    exact hseen a ha
  enclosing := by
    obtain ⟨inner, inner', outer, outer', henc, henc', hlen, hlen', hinner⟩ := h.enclosing
    exact ⟨e.scope :: inner, e'.scope :: inner', outer, outer', congrArg _ henc, congrArg _ henc', hlen, hlen',
      .cons h.scope hinner⟩
  serial := h.serial

/-- Both innermost scopes can be closed. As long as they are not the two callees' own, the environments stay mirrored;
their stores do in any case. -/
theorem closeScope (h : μ.Envs e e') : ∃ e₁ e₁', e.closeScope = .ok e₁ ∧ e'.closeScope = .ok e₁' ∧
    μ.Stores e₁.store e₁'.store ∧ (μ.left.depth + 1 < e.depth → μ.Envs e₁ e₁') := by
  obtain ⟨k, hdepth, hdepth'⟩ := h.depths
  have hstores (outer outer' : Scope) (rest rest' : List Scope) :
      μ.Stores (e.dropScope outer rest).store (e'.dropScope outer' rest').store := by
    change μ.Stores (e.store.closeScope e.depth e.scope.mark) (e'.store.closeScope e'.depth e'.scope.mark)
    rw [hdepth, hdepth']
    exact h.stores.closeScope h.sound.valid h.sound'.valid h.scope.marks h.sound.held.2.1 k
  obtain ⟨inner, inner', outer, outer', henc, henc', hlen, hlen', hinner⟩ := h.enclosing
  cases hinner with
  | nil =>
      obtain ⟨sc, rest, rfl⟩ := List.exists_cons_of_length_eq_add_one hlen
      obtain ⟨sc', rest', rfl⟩ := List.exists_cons_of_length_eq_add_one hlen'
      refine ⟨_, _, Env.closeScope_eq_ok.mpr ⟨sc, rest, henc, rfl⟩, Env.closeScope_eq_ok.mpr ⟨sc', rest', henc', rfl⟩,
        (hstores sc sc' rest rest').compressAll _ _, fun hdeep => ?_⟩
      rw [Env.depth, henc, List.nil_append, hlen] at hdeep
      exact absurd hdeep (Nat.lt_irrefl _)
  | @cons sc sc' inner inner' hsc hinner =>
      have henvs : μ.Envs (e.dropScope sc (inner ++ outer)) (e'.dropScope sc' (inner' ++ outer')) :=
        ⟨hstores _ _ _ _, h.sound.dropScope henc, h.sound'.dropScope henc', hsc,
          ⟨inner, inner', outer, outer', rfl, rfl, hlen, hlen', hinner⟩, h.serial⟩
      exact ⟨_, _, Env.closeScope_eq_ok.mpr ⟨sc, _, henc, rfl⟩, Env.closeScope_eq_ok.mpr ⟨sc', _, henc', rfl⟩,
        henvs.redirect.stores, fun _ => henvs.redirect⟩

theorem binding (h : μ.Envs e e') {r : Resolved} (hr : r.slot.cell ∈ μ.seen) (label : String) :
    e'.binding label (r.move μ.cell) = e.binding label r := by
  have hvalue : e'.store.value (r.move μ.cell).slot.cell = e.store.value r.slot.cell := h.stores.value hr
  have haliases : e'.store.aliases (r.move μ.cell).slot.cell = e.store.aliases r.slot.cell := h.stores.aliases hr
  unfold Env.binding
  rw [hvalue, haliases]
  rfl

def Found (μ : Mirror) (r r' : Resolved) : Prop := r' = r.move μ.cell ∧ r.slot.cell ∈ μ.seen

theorem lookup (h : μ.Envs e e') (p : Param) : Agree (Option.Rel (Found μ)) (e.lookup p) (e'.lookup p) := by
  unfold Env.lookup
  rw [h.scope.slot? p]
  cases hs : e.scope.slot? p with
  | some slot => exact .ok (.some ⟨rfl, (h.slot_seen hs).1⟩)
  | none =>
      cases p with
      | formal f => exact .error _
      | actual a => exact .ok .none

theorem unique (h : μ.Envs e e') (name : String) {rs : List Resolved} (hrs : ∀ r ∈ rs, r.slot.cell ∈ μ.seen) :
    Agree (Option.Rel (Found μ)) (e.unique name rs) (e'.unique name (rs.map (Resolved.move μ.cell))) := by
  cases rs with
  | nil => exact .ok .none
  | cons r rs =>
      have hr := hrs r List.mem_cons_self
      have hall : ((rs.map (Resolved.move μ.cell)).all fun q =>
          e'.store.find q.slot.cell = e'.store.find (r.move μ.cell).slot.cell) =
            rs.all fun q => e.store.find q.slot.cell = e.store.find r.slot.cell := by
        rw [List.all_map, Bool.eq_iff_iff, List.all_eq_true, List.all_eq_true]
        refine forall₂_congr fun q hq => ?_
        rw [Function.comp_apply, decide_eq_true_iff, decide_eq_true_iff]
        exact h.stores.find_eq_iff (hrs q (List.mem_cons_of_mem r hq)) hr
      simp only [Env.unique, List.map_cons, hall]
      split
      · exact .ok (.some ⟨rfl, hr⟩)
      · exact .error _

theorem lookupName (h : μ.Envs e e') (name : String) : Agree (Found μ) (e.lookupName name) (e'.lookupName name) := by
  unfold Env.lookupName
  rw [h.scope.bodyMatches, h.scope.callerMatches]
  refine (h.unique name fun r hr => h.scope.seen _ (Scope.mem_slots_of_bodyMatches hr)).bind fun r r' hr _ _ => ?_
  cases hr with
  | some hfound => exact .ok hfound
  | none =>
      refine (h.unique name fun r hr => h.scope.seen _ (Scope.mem_slots_of_callerMatches hr)).bind fun r r' hr _ _ => ?_
      cases hr with
      | some hfound => exact .ok hfound
      | none => exact .error _

theorem view (h : μ.Envs e e') : e'.view = e.view := by
  have hnamed : e.view.named = e'.view.named := by
    funext name
    refine (h.lookupName name).bind_eq fun r r' hr => ?_
    obtain ⟨rfl, hseen⟩ := hr
    rw [h.binding hseen]
  have hreferred : e.view.referred = e'.view.referred := by
    funext p
    refine (h.lookup p).bind_eq fun r r' hr => ?_
    cases hr with
    | none => rfl
    | some hfound =>
        obtain ⟨rfl, hseen⟩ := hfound
        simp only [h.binding hseen]
  generalize e.view = v at hnamed hreferred
  generalize e'.view = v' at hnamed hreferred
  cases v
  cases v'
  cases hnamed
  cases hreferred
  rfl

end Mirror.Envs
end Clausal
