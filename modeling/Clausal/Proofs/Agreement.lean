import Clausal.Proofs.Merging
import Clausal.Proofs.MirroredScopes
import Clausal.Proofs.Tidying

/-! Environments that agree. Their stores may differ in the lengths of links, and their slots in which cell of a class
they hold. Main statements: nothing that reads them can tell them apart, all that is done to both of them keeps them in
agreement, and so does tidying up in either of them. -/
namespace Clausal

namespace Mirror

/-- The mirror that shows everything as it is. -/
def still : Mirror where
  left := ⟨0, 0, 0⟩
  right := ⟨0, 0, 0⟩
  seen := Set.univ
  cell := id
  seen_new := fun _ => trivial
  cell_new := fun _ => rfl
  mono := strictMono_id.strictMonoOn _

end Mirror

theorem forall₂_of_map_eq {α β : Type} {f : α → β} {R : α → α → Prop} {l l' : List α} (h : l'.map f = l.map f)
    (hR : ∀ a ∈ l, ∀ a' ∈ l', f a' = f a → R a a') : List.Forall₂ R l l' := by
  induction l generalizing l' with
  | nil =>
      rw [List.map_eq_nil_iff.mp h]
      exact .nil
  | cons a l ih =>
      obtain ⟨a', rest, rfl, ha, hrest⟩ := List.map_eq_cons_iff.mp h
      refine .cons (hR a List.mem_cons_self a' List.mem_cons_self ha) (ih hrest fun b hb b' hb' => ?_)
      exact hR b (List.mem_cons_of_mem a hb) b' (List.mem_cons_of_mem a' hb')

namespace Store

variable {s t u : Store} {c c' d d' : Nat}

/-- The same classes, which hold the same. -/
structure Agrees (s t : Store) : Prop where
  size_eq : t.cells.size = s.cells.size
  narrowings_eq : t.narrowings = s.narrowings
  find_eq : ∀ c, t.find c = s.find c
  roots : ∀ c, s.find c = c → t.own c = s.own c ∧ t.held c = s.held c ∧ t.listed c = s.listed c

theorem Alike.agrees (h : s.Alike t) (hlisted : ∀ c, t.listed c = s.listed c) : s.Agrees t where
  size_eq := h.size_eq
  narrowings_eq := h.narrowings_eq
  find_eq := h.find_eq
  roots := fun c _ => ⟨h.own_eq c, h.held_eq c, hlisted c⟩

namespace Agrees

theorem refl (s : Store) : s.Agrees s := ⟨rfl, rfl, fun _ => rfl, fun _ _ => ⟨rfl, rfl, rfl⟩⟩

theorem symm (h : s.Agrees t) : t.Agrees s where
  size_eq := h.size_eq.symm
  narrowings_eq := h.narrowings_eq.symm
  find_eq := fun c => (h.find_eq c).symm
  roots := fun c hc => by
    obtain ⟨hown, hheld, hlisted⟩ := h.roots c ((h.find_eq c).symm.trans hc)
    exact ⟨hown.symm, hheld.symm, hlisted.symm⟩

theorem trans (h : s.Agrees t) (h' : t.Agrees u) : s.Agrees u where
  size_eq := h'.size_eq.trans h.size_eq
  narrowings_eq := h'.narrowings_eq.trans h.narrowings_eq
  find_eq := fun c => (h'.find_eq c).trans (h.find_eq c)
  roots := fun c hc => by
    obtain ⟨hown, hheld, hlisted⟩ := h.roots c hc
    obtain ⟨hown', hheld', hlisted'⟩ := h'.roots c ((h.find_eq c).trans hc)
    exact ⟨hown'.trans hown, hheld'.trans hheld, hlisted'.trans hlisted⟩

theorem find_fun_eq (h : s.Agrees t) : t.find = s.find := funext h.find_eq

theorem mark_eq (h : s.Agrees t) : t.mark = s.mark := by
  rw [mark, mark, h.size_eq, h.narrowings_eq]

theorem stores (h : s.Agrees t) : Mirror.still.Stores s t where
  size := ⟨s.cells.size, (Nat.zero_add _).symm, h.size_eq.trans (Nat.zero_add _).symm⟩
  find := fun c _ => ⟨trivial, h.find_eq c⟩
  twins := fun c _ hc => by
    obtain ⟨hown, hheld, hlisted⟩ := h.roots c hc
    exact ⟨hown, hheld, congrArg (List.map (Alias.relative 0)) hlisted⟩
  log := by
    refine ⟨s.narrowings, [], [], (List.append_nil _).symm, ?_, rfl, rfl, fun _ _ => trivial⟩
    rw [List.append_nil, h.narrowings_eq]
    exact (List.map_id' _).symm

theorem of_stores (h : Mirror.still.Stores s t) : s.Agrees t where
  size_eq := by
    obtain ⟨k, hk, hk'⟩ := h.size
    exact hk'.trans hk.symm
  narrowings_eq := by
    obtain ⟨recent, old, old', hlog, hlog', hold, hold', -⟩ := h.log
    rw [List.length_eq_zero_iff.mp hold, List.append_nil] at hlog
    rw [List.length_eq_zero_iff.mp hold', List.append_nil] at hlog'
    rw [hlog', hlog]
    exact List.map_id' _
  find_eq := fun c => (h.find c trivial).2
  roots := fun c hc => by
    have htwins := h.twins c trivial hc
    refine ⟨htwins.own, htwins.held, ?_⟩
    have hid (l : List Alias) : l.map (Alias.relative 0) = l := List.map_id' l
    have hlisted := htwins.listed
    change (t.listed c).map (Alias.relative 0) = (s.listed c).map (Alias.relative 0) at hlisted
    rw [hid, hid] at hlisted
    exact hlisted

theorem value_eq (h : s.Agrees t) (c : Nat) : t.value c = s.value c := h.stores.value trivial

theorem ty_eq (h : s.Agrees t) (c : Nat) : t.ty c = s.ty c := h.stores.ty trivial

theorem aliases_eq (h : s.Agrees t) (c : Nat) : t.aliases c = s.aliases c := h.stores.aliases trivial

theorem allocateFor (h : s.Agrees t) (a : Actual) (depth : Nat) :
    (s.allocateFor a depth).2.Agrees (t.allocateFor a depth).2 := by
  have hstores := h.stores.allocateFor a depth
  change Mirror.still.Stores (s.allocateFor a (0 + depth)).2 (t.allocateFor a (0 + depth)).2 at hstores
  rw [Nat.zero_add] at hstores
  exact .of_stores hstores

end Agrees

/-- Only the classes count, not the cells that stand for them. -/
theorem unify_congr (hc : s.find c' = s.find c) (hd : s.find d' = s.find d) : s.unify c' d' = s.unify c d := by
  unfold unify
  rw [hc, hd, value_congr hc, value_congr hd]

theorem ty_congr (hc : s.find c' = s.find c) : s.ty c' = s.ty c := by
  rw [ty_eq, hc, ← ty_eq]

theorem bindOrCheck_congr (hc : s.find c' = s.find c) (v : Value) : s.bindOrCheck c' v = s.bindOrCheck c v := by
  unfold bindOrCheck bindValue
  rw [hc, value_congr hc, ty_congr hc]

/-- Slots of one parameter that denote one variable. -/
structure Coincide (s : Store) (slot slot' : Slot) : Prop where
  parameter : slot'.parameter = slot.parameter
  find : s.find slot'.cell = s.find slot.cell
  lt : slot.cell < s.cells.size
  lt' : slot'.cell < s.cells.size

namespace Coincide

variable {slot slot' : Slot}

theorem moved (h : s.Coincide slot slot') : slot'.move s.find = slot.move s.find := by
  rw [Slot.move, Slot.move, h.parameter, h.find]

theorem of_moved (h : slot'.move s.find = slot.move s.find) (hlt : slot.cell < s.cells.size)
    (hlt' : slot'.cell < s.cells.size) : s.Coincide slot slot' :=
  ⟨(Slot.mk.inj h).1, (Slot.mk.inj h).2, hlt, hlt'⟩

theorem grows (h : s.Coincide slot slot') (hg : s.Grows t) : t.Coincide slot slot' :=
  ⟨h.parameter, hg.together _ _ h.lt' h.lt h.find, Nat.lt_of_lt_of_le h.lt hg.size_le,
    Nat.lt_of_lt_of_le h.lt' hg.size_le⟩

theorem agrees (h : s.Coincide slot slot') (ht : s.Agrees t) : t.Coincide slot slot' := by
  refine ⟨h.parameter, ?_, ht.size_eq ▸ h.lt, ht.size_eq ▸ h.lt'⟩
  rw [ht.find_eq, ht.find_eq, h.find]

end Coincide

theorem Agrees.unify (h : s.Agrees t) {a a' b b' : Slot} (ha : s.Coincide a a') (hb : s.Coincide b b') :
    (t.unify a'.cell b'.cell).1 = (s.unify a.cell b.cell).1 ∧
      (s.unify a.cell b.cell).2.Agrees (t.unify a'.cell b'.cell).2 := by
  have hclass (slot slot' : Slot) (hs : s.Coincide slot slot') : t.find slot'.cell = t.find slot.cell :=
    (hs.agrees h).find
  rw [unify_congr (hclass a a' ha) (hclass b b' hb)]
  obtain ⟨hresult, hstores⟩ := h.stores.unify (c := a.cell) (d := b.cell) trivial trivial ha.lt hb.lt
  exact ⟨hresult, .of_stores hstores⟩

theorem Agrees.bindOrCheck (h : s.Agrees t) {a a' : Slot} (ha : s.Coincide a a') (v : Value) :
    (t.bindOrCheck a'.cell v).1 = (s.bindOrCheck a.cell v).1 ∧
      (s.bindOrCheck a.cell v).2.Agrees (t.bindOrCheck a'.cell v).2 := by
  rw [bindOrCheck_congr (ha.agrees h).find]
  obtain ⟨hresult, hstores⟩ := h.stores.bindOrCheck (c := a.cell) trivial ha.lt v
  exact ⟨hresult, .of_stores hstores⟩

theorem Agrees.closeScope (h : s.Agrees t) (hs : s.Valid) (ht : t.Valid) {m : Mark} (hm : m.cells ≤ s.cells.size)
    (k : Nat) : (s.closeScope (k + 1) m).Agrees (t.closeScope (k + 1) m) := by
  have hmarks : Mirror.still.Marks m m :=
    ⟨m.cells, m.narrowings, by simp [Mirror.still], by simp [Mirror.still]⟩
  have hstores := h.stores.closeScope hs ht hmarks hm k
  change Mirror.still.Stores (s.closeScope (0 + (k + 1)) m) (t.closeScope (0 + (k + 1)) m) at hstores
  rw [Nat.zero_add] at hstores
  exact .of_stores hstores

end Store

namespace Scope

variable {sc : Scope} {f g : Nat → Nat}

theorem move_move (h : ∀ slot ∈ sc.slots, g (f slot.cell) = g slot.cell) : (sc.move f).move g = sc.move g := by
  have hslot (slot : Slot) (hslot : slot ∈ sc.slots) : (slot.move f).move g = slot.move g :=
    congrArg (Slot.mk slot.parameter) (h slot hslot)
  have harguments : moveAll g (moveAll f sc.arguments) = moveAll g sc.arguments := by
    simp only [moveAll, List.map_map]
    apply List.map_congr_left
    intro a ha
    exact congrArg (Prod.mk a.1) (hslot a.2 (List.mem_append_left _ (List.mem_map_of_mem ha)))
  have hlocals : (sc.locals.map (Slot.move f)).map (Slot.move g) = sc.locals.map (Slot.move g) := by
    rw [List.map_map]
    exact List.map_congr_left fun slot hmem => hslot slot (List.mem_append_right _ hmem)
  exact congrArg₂ (fun arguments locals => (⟨arguments, locals, sc.mark⟩ : Scope)) harguments hlocals

theorem map_move_of_map_move {scopes scopes' : List Scope} (h : scopes'.map (move f) = scopes.map (move f))
    (hg : ∀ sc ∈ scopes, ∀ slot ∈ sc.slots, g (f slot.cell) = g slot.cell)
    (hg' : ∀ sc ∈ scopes', ∀ slot ∈ sc.slots, g (f slot.cell) = g slot.cell) :
    scopes'.map (move g) = scopes.map (move g) := by
  have hmoved {scopes : List Scope} (hg : ∀ sc ∈ scopes, ∀ slot ∈ sc.slots, g (f slot.cell) = g slot.cell) :
      (scopes.map (move f)).map (move g) = scopes.map (move g) := by
    rw [List.map_map]
    exact List.map_congr_left fun sc hsc => move_move (hg sc hsc)
  rw [← hmoved hg, ← hmoved hg', h]

end Scope

namespace Env

variable {e e' e'' : Env}

/-- The stores agree, and slot by slot the scopes denote the same variables. -/
structure Agrees (e e' : Env) : Prop where
  stores : e.store.Agrees e'.store
  scopes : e'.scopes.map (Scope.move e.store.find) = e.scopes.map (Scope.move e.store.find)
  serial : e'.serial = e.serial
  sound : e.Sound
  sound' : e'.Sound

structure Resolutions (p q : Resolved × Env) : Prop where
  ty : q.1.ty = p.1.ty
  slot : p.2.store.Coincide p.1.slot q.1.slot
  envs : p.2.Agrees q.2

/-- A way to tidy up that changes no variable. -/
def Tidies (tidy : Env → Env) : Prop := ∀ e : Env, e.Sound → e.Agrees (tidy e)

namespace Agrees

theorem refl (hs : e.Sound) : e.Agrees e := ⟨.refl _, rfl, rfl, hs, hs⟩

theorem symm (h : e.Agrees e') : e'.Agrees e := by
  refine ⟨h.stores.symm, ?_, h.serial.symm, h.sound', h.sound⟩
  rw [h.stores.find_fun_eq]
  exact h.scopes.symm

theorem trans (h : e.Agrees e') (h' : e'.Agrees e'') : e.Agrees e'' := by
  refine ⟨h.stores.trans h'.stores, ?_, h'.serial.trans h.serial, h.sound, h'.sound'⟩
  have hscopes := h'.scopes
  rw [h.stores.find_fun_eq] at hscopes
  exact hscopes.trans h.scopes

theorem scope (h : e.Agrees e') : e'.scope.move e.store.find = e.scope.move e.store.find := (List.cons.inj h.scopes).1

theorem enclosing (h : e.Agrees e') :
    e'.enclosing.map (Scope.move e.store.find) = e.enclosing.map (Scope.move e.store.find) :=
  (List.cons.inj h.scopes).2

theorem depth_eq (h : e.Agrees e') : e'.depth = e.depth := by
  have hlength := congrArg List.length h.enclosing
  rw [List.length_map, List.length_map] at hlength
  exact hlength

/-- What has become one variable stays so while the stores grow. -/
theorem map_move_grown (h : e.Agrees e') {t : Store} (hg : e.store.Grows t) {scopes scopes' : List Scope}
    (hscopes : scopes'.map (Scope.move e.store.find) = scopes.map (Scope.move e.store.find)) (hsub : scopes ⊆ e.scopes)
    (hsub' : scopes' ⊆ e'.scopes) : scopes'.map (Scope.move t.find) = scopes.map (Scope.move t.find) := by
  have hfind {c : Nat} (hc : c < e.store.cells.size) : t.find (e.store.find c) = t.find c :=
    hg.together _ _ (Store.find_lt hc) hc (e.store.find_find c)
  apply Scope.map_move_of_map_move hscopes
  · exact fun sc hsc slot hslot => hfind (h.sound.held.slots_lt sc (hsub hsc) slot hslot)
  · intro sc hsc slot hslot
    have hlt : slot.cell < e'.store.cells.size := h.sound'.held.slots_lt sc (hsub' hsc) slot hslot
    exact hfind (h.stores.size_eq ▸ hlt)

theorem inside (h : e.Agrees e') {e₁ e₁' : Env} (hin : e.Inside e₁) (hin' : e'.Inside e₁')
    (hstores : e₁.store.Agrees e₁'.store)
    (hscope : e₁'.scope.move e₁.store.find = e₁.scope.move e₁.store.find) (hserial : e₁'.serial = e₁.serial) :
    e₁.Agrees e₁' where
  stores := hstores
  scopes := by
    have henclosing := h.map_move_grown hin.grows h.enclosing (List.subset_cons_self _ _) (List.subset_cons_self _ _)
    rw [← hin.enclosing_eq, ← hin'.enclosing_eq] at henclosing
    exact congrArg₂ List.cons hscope henclosing
  serial := hserial
  sound := hin.sound h.sound
  sound' := hin'.sound h.sound'

/-- Changes of the stores alone. -/
theorem of_stores (h : e.Agrees e') {s s' : Store} (hin : e.Inside { e with store := s })
    (hin' : e'.Inside { e' with store := s' }) (hstores : s.Agrees s') :
    ({ e with store := s } : Env).Agrees { e' with store := s' } := by
  have hscope := h.map_move_grown hin.grows h.scopes (List.Subset.refl _) (List.Subset.refl _)
  exact h.inside hin hin' hstores (List.cons.inj hscope).1 h.serial

theorem nextSerial (h : e.Agrees e') : e.nextSerial.2.Agrees e'.nextSerial.2 :=
  h.inside (.nextSerial e) (.nextSerial e') h.stores h.scope (congrArg Nat.succ h.serial)

theorem allocated (h : e.Agrees e') (a : Actual) :
    (e.store.allocateFor a e.depth).2.Agrees (e'.store.allocateFor a e'.depth).2 := by
  rw [h.depth_eq]
  exact h.stores.allocateFor a e.depth

theorem new_coincide (h : e.Agrees e') (a : Actual) :
    (e.store.allocateFor a e.depth).2.Coincide ⟨a, e.store.cells.size⟩ ⟨a, e'.store.cells.size⟩ := by
  have hlt : e.store.cells.size < (e.store.allocateFor a e.depth).2.cells.size := by
    rw [Store.size_allocateFor]
    exact Nat.lt_succ_self _
  refine ⟨rfl, congrArg _ h.stores.size_eq, hlt, ?_⟩
  rw [h.stores.size_eq]
  exact hlt

theorem addLocal (h : e.Agrees e') (a : Actual) : (e.addLocal a).2.Agrees (e'.addLocal a).2 := by
  refine h.inside (.addLocal e a) (.addLocal e' a) (h.allocated a) ?_ h.serial
  have hfind : (e.addLocal a).2.store.find = e.store.find := funext fun c => Store.find_allocateFor a e.depth c
  have hmove (e : Env) (g : Nat → Nat) : (e.addLocal a).2.scope.move g =
      { e.scope.move g with locals := (e.scope.move g).locals ++ [⟨a, g e.store.cells.size⟩] } := by
    simp [Env.addLocal, Store.allocateFor, Scope.move, Slot.move]
  rw [hfind, hmove, hmove, h.scope, h.stores.size_eq]

theorem slot? (h : e.Agrees e') (p : Param) : Option.Rel e.store.Coincide (e.scope.slot? p) (e'.scope.slot? p) := by
  have hmoved : (e'.scope.slot? p).map (Slot.move e.store.find) = (e.scope.slot? p).map (Slot.move e.store.find) := by
    rw [← Scope.slot?_move, ← Scope.slot?_move, h.scope]
  cases hs : e.scope.slot? p with
  | none =>
      rw [hs] at hmoved
      rw [Option.map_eq_none_iff.mp hmoved]
      exact .none
  | some slot =>
      rw [hs] at hmoved
      obtain ⟨slot', hs', hslot⟩ := Option.map_eq_some_iff.mp hmoved
      rw [hs']
      refine .some (.of_moved hslot (h.sound.bounded slot (Scope.mem_slots_of_slot? hs)) ?_)
      rw [← h.stores.size_eq]
      exact h.sound'.bounded slot' (Scope.mem_slots_of_slot? hs')

theorem resolve (h : e.Agrees e') (p : Param) : Agree Resolutions (e.resolve p) (e'.resolve p) := by
  unfold Env.resolve
  have hslot := h.slot? p
  generalize e.scope.slot? p = found at hslot
  generalize e'.scope.slot? p = found' at hslot
  cases hslot with
  | some hcoincide => exact .ok ⟨rfl, hcoincide, h⟩
  | none =>
      cases p with
      | formal f => exact .error _
      | actual a => exact .ok ⟨rfl, h.new_coincide a, h.addLocal a⟩

theorem value_eq (h : e.Agrees e') {slot slot' : Slot} (hs : e.store.Coincide slot slot') :
    e'.store.value slot'.cell = e.store.value slot.cell :=
  (h.stores.value_eq _).trans (Store.value_congr hs.find)

theorem read (h : e.Agrees e') (p : Param) :
    Agree (fun a b => b.1 = a.1 ∧ a.2.Agrees b.2) (e.read p) (e'.read p) := by
  refine (h.resolve p).bind fun a b hab _ _ => ?_
  obtain ⟨r, e₁⟩ := a
  obtain ⟨r', e₁'⟩ := b
  obtain ⟨-, hslot, henvs⟩ := hab
  have hvalue : e₁'.store.value r'.slot.cell = e₁.store.value r.slot.cell := henvs.value_eq hslot
  simp only [hvalue]
  cases e₁.store.value r.slot.cell with
  | none => exact .error _
  | some v => exact .ok ⟨rfl, henvs⟩

theorem addLiteral (h : e.Agrees e') (ty : Ty) (v : Value) :
    Agree (fun p q => p.2.store.Coincide p.1 q.1 ∧ p.2.Agrees q.2) (e.addLiteral ty v) (e'.addLiteral ty v) := by
  unfold Env.addLiteral Env.nextSerial
  simp only [h.serial]
  refine (Agree.refl (Actual.input? (.literal e.serial) none ty v none)).bind fun a b hab _ _ => ?_
  subst hab
  have hnext := h.nextSerial
  have hin (f : Env) : f.Inside { f with store := (f.store.allocateFor a f.depth).2 } :=
    .of_store (f.store.grows_allocateFor a f.depth) fun hv => hv.allocateFor a f.depth
  have henvs := hnext.of_stores (hin e.nextSerial.2) (hin e'.nextSerial.2) (hnext.allocated a)
  simp only [Env.nextSerial, h.serial] at henvs
  exact .ok ⟨h.new_coincide a, henvs⟩

theorem checkDeclared (h : e.Agrees e') {r r' : Resolved} (hty : r'.ty = r.ty) (hs : e.store.Coincide r.slot r'.slot) :
    e'.checkDeclared r' = e.checkDeclared r := by
  unfold Env.checkDeclared
  rw [h.value_eq hs, hty]

theorem assign (h : e.Agrees e') {target target' : Resolved} (hty : target'.ty = target.ty)
    (ht : e.store.Coincide target.slot target'.slot) (v : Value) :
    Agree (Option.Rel Env.Agrees) (e.assign target v) (e'.assign target' v) := by
  obtain ⟨hresult, hstores⟩ := h.stores.bindOrCheck ht v
  unfold Env.assign
  rcases hu : e.store.bindOrCheck target.slot.cell v with ⟨r, s⟩
  rcases hu' : e'.store.bindOrCheck target'.slot.cell v with ⟨r', s'⟩
  rw [hu, hu'] at hresult hstores
  obtain rfl : r' = r := hresult
  rcases r' with err | b
  · exact .error err
  cases b with
  | false => exact .ok .none
  | true =>
      have hgrows := Store.grows_bindOrCheck hu
      have henvs := h.of_stores (.of_store hgrows fun hv => hv.bindOrCheck hu)
        (.of_store (Store.grows_bindOrCheck hu') fun hv => hv.bindOrCheck hu') hstores
      simp only [henvs.checkDeclared hty (ht.grows hgrows)]
      exact (Agree.refl _).bind fun _ _ _ _ _ => .ok (.some henvs)

theorem openScope (h : e.Agrees e') {arguments arguments' : List (Formal × Slot)}
    (hmoved : moveAll e.store.find arguments' = moveAll e.store.find arguments)
    (hlt : ∀ a ∈ arguments, a.2.cell < e.store.cells.size) (hlt' : ∀ a ∈ arguments', a.2.cell < e.store.cells.size) :
    (e.openScope arguments).Agrees (e'.openScope arguments') where
  stores := h.stores
  scopes := by
    have hscope : (⟨moveAll e.store.find arguments', [], e'.store.mark⟩ : Scope) =
        ⟨moveAll e.store.find arguments, [], e.store.mark⟩ := by
      rw [hmoved, h.stores.mark_eq]
    exact congrArg₂ List.cons hscope h.scopes
  serial := h.serial
  sound := h.sound.openScope hlt
  sound' := h.sound'.openScope fun a ha => h.stores.size_eq.symm ▸ hlt' a ha

/-- Enclosing scopes lie below the mark, where closing a scope changes no representative. -/
theorem dropScope (h : e.Agrees e') {outer outer' : Scope} {rest rest' : List Scope} (henc : e.enclosing = outer :: rest)
    (henc' : e'.enclosing = outer' :: rest') : (e.dropScope outer rest).Agrees (e'.dropScope outer' rest') := by
  obtain ⟨-, hcells, -, houter⟩ := h.sound.held
  obtain ⟨-, -, -, houter'⟩ := h.sound'.held
  have hscope := h.scope
  have hmark : e'.scope.mark = e.scope.mark := congrArg (·.mark) hscope
  have hdepth : e.depth = rest.length + 1 := congrArg List.length henc
  refine ⟨?_, ?_, h.serial, h.sound.dropScope henc, h.sound'.dropScope henc'⟩
  · change (e.store.closeScope e.depth e.scope.mark).Agrees (e'.store.closeScope e'.depth e'.scope.mark)
    rw [h.depth_eq, hmark, hdepth]
    exact h.stores.closeScope h.sound.valid h.sound'.valid hcells rest.length
  · have hfind {c : Nat} (hc : c < e.scope.mark.cells) : (e.dropScope outer rest).store.find (e.store.find c) =
        (e.dropScope outer rest).store.find c := by
      have hclosed {c : Nat} (hc : c < e.scope.mark.cells) : (e.dropScope outer rest).store.find c = e.store.find c :=
        Store.find_closeScope h.sound.valid.wide e.depth hc
      rw [hclosed (Store.find_lt hc), hclosed hc, Store.find_find]
    have henclosing : (outer' :: rest').map (Scope.move e.store.find) = (outer :: rest).map (Scope.move e.store.find) := by
      rw [← henc, ← henc']
      exact h.enclosing
    apply Scope.map_move_of_map_move henclosing
    · exact fun sc hsc slot hslot => hfind (houter.slots_lt sc (henc ▸ hsc) slot hslot)
    · intro sc hsc slot hslot
      have hlt := houter'.slots_lt sc (henc' ▸ hsc) slot hslot
      exact hfind (hmark ▸ hlt)

end Agrees

/-! Tidying up. -/

theorem tidies_id : Tidies id := fun _ hs => .refl hs

theorem tidies_redirect : Tidies redirect := fun e hs => by
  have hstores : e.store.Agrees e.redirect.store :=
    (alike_redirect e).agrees (Store.listed_compressAll e.store e.scope.slots)
  refine ⟨hstores, ?_, rfl, hs, (Inside.redirect e).sound hs⟩
  have hscope : (e.scope.move e.store.find).move e.store.find = e.scope.move e.store.find :=
    Scope.move_move fun slot _ => e.store.find_find slot.cell
  exact congrArg₂ List.cons hscope rfl

section Tidy

variable {tidy tidy' : Env → Env} (ht : Tidies tidy) (ht' : Tidies tidy')

include ht ht'

/-- Environments that agree may be tidied up in different ways. -/
theorem Agrees.tidied (h : e.Agrees e') : (tidy e).Agrees (tidy' e') :=
  (ht e h.sound).symm.trans (h.trans (ht' e' h.sound'))

theorem Agrees.equateBy (h : e.Agrees e') {target target' source source' : Resolved} (htty : target'.ty = target.ty)
    (htarget : e.store.Coincide target.slot target'.slot) (hsty : source'.ty = source.ty)
    (hsource : e.store.Coincide source.slot source'.slot) :
    Agree (Option.Rel Env.Agrees) (e.equateBy tidy target source) (e'.equateBy tidy' target' source') := by
  obtain ⟨hresult, hstores⟩ := h.stores.unify htarget hsource
  unfold Env.equateBy
  rcases hu : e.store.unify target.slot.cell source.slot.cell with ⟨r, s⟩
  rcases hu' : e'.store.unify target'.slot.cell source'.slot.cell with ⟨r', s'⟩
  rw [hu, hu'] at hresult hstores
  obtain rfl : r' = r := hresult
  rcases r' with err | b
  · exact .error err
  cases b with
  | false => exact .ok .none
  | true =>
      have hlt' {slot slot' : Slot} (hs : e.store.Coincide slot slot') : slot'.cell < e'.store.cells.size :=
        h.stores.size_eq.symm ▸ hs.lt'
      have hgrows := Store.grows_unify htarget.lt hsource.lt hu
      have hgrows' := Store.grows_unify (hlt' htarget) (hlt' hsource) hu'
      have hunified := h.of_stores (.of_store hgrows fun hv => hv.unify htarget.lt hsource.lt hu)
        (.of_store hgrows' fun hv => hv.unify (hlt' htarget) (hlt' hsource) hu') hstores
      have hkept {slot slot' : Slot} (hs : e.store.Coincide slot slot') :
          (tidy { e with store := s }).store.Coincide slot slot' :=
        (hs.grows hgrows).agrees (ht _ hunified.sound).stores
      have htidied := hunified.tidied ht ht'
      simp only [htidied.checkDeclared hsty (hkept hsource), htidied.checkDeclared htty (hkept htarget)]
      exact (Agree.refl _).bind fun _ _ _ _ _ => (Agree.refl _).bind fun _ _ _ _ _ => .ok (.some htidied)

theorem Agrees.closeScopeBy (h : e.Agrees e') :
    Agree Env.Agrees (e.closeScopeBy tidy) (e'.closeScopeBy tidy') := by
  have hlength : e'.enclosing.length = e.enclosing.length := h.depth_eq
  unfold Env.closeScopeBy
  cases henc : e.enclosing with
  | nil =>
      rw [henc] at hlength
      rw [List.length_eq_zero_iff.mp hlength]
      exact .error _
  | cons outer rest =>
      rw [henc] at hlength
      obtain ⟨outer', rest', henc'⟩ := List.exists_cons_of_length_eq_add_one hlength
      rw [henc']
      exact .ok ((h.dropScope henc henc').tidied ht ht')

end Tidy

/-! What can be seen. -/

namespace Agrees

theorem binding (h : e.Agrees e') {r r' : Resolved} (hty : r'.ty = r.ty) (hs : e.store.Coincide r.slot r'.slot)
    (label : String) : e'.binding label r' = e.binding label r := by
  have haliases : e'.store.aliases r'.slot.cell = e.store.aliases r.slot.cell :=
    (h.stores.aliases_eq _).trans (Store.aliases_congr hs.find)
  unfold Env.binding
  rw [h.value_eq hs, haliases, hty]

/-- References that are found denote the same variable under the same type. -/
def Found (e : Env) (r r' : Resolved) : Prop := r'.ty = r.ty ∧ e.store.Coincide r.slot r'.slot

theorem lookup (h : e.Agrees e') (p : Param) : Agree (Option.Rel (Found e)) (e.lookup p) (e'.lookup p) := by
  unfold Env.lookup
  have hslot := h.slot? p
  generalize e.scope.slot? p = found at hslot
  generalize e'.scope.slot? p = found' at hslot
  cases hslot with
  | some hcoincide => exact .ok (.some ⟨rfl, hcoincide⟩)
  | none =>
      cases p with
      | formal f => exact .error _
      | actual a => exact .ok .none

theorem unique (h : e.Agrees e') (name : String) {rs rs' : List Resolved} (hrs : List.Forall₂ (Found e) rs rs') :
    Agree (Option.Rel (Found e)) (e.unique name rs) (e'.unique name rs') := by
  cases hrs with
  | nil => exact .ok .none
  | @cons r r' rs rs' hr hrs =>
      have hall : (rs'.all fun q => e'.store.find q.slot.cell = e'.store.find r'.slot.cell) =
          rs.all fun q => e.store.find q.slot.cell = e.store.find r.slot.cell := by
        induction hrs with
        | nil => rfl
        | cons hq _ ih =>
            rw [List.all_cons, List.all_cons, ih, h.stores.find_eq, h.stores.find_eq, hq.2.find, hr.2.find]
      simp only [Env.unique, hall]
      split
      · exact .ok (.some hr)
      · exact .error _

/-- References to corresponding slots are found one by one. -/
theorem forall_found (h : e.Agrees e') {rs rs' : List Resolved}
    (hmoved : rs'.map (Resolved.move e.store.find) = rs.map (Resolved.move e.store.find))
    (hrs : ∀ r ∈ rs, r.slot ∈ e.scope.slots) (hrs' : ∀ r ∈ rs', r.slot ∈ e'.scope.slots) :
    List.Forall₂ (Found e) rs rs' :=
  forall₂_of_map_eq hmoved fun r hr r' hr' hmove => by
    obtain ⟨hslot, hty⟩ := Resolved.mk.inj hmove
    have hlt' : r'.slot.cell < e'.store.cells.size := h.sound'.bounded _ (hrs' r' hr')
    exact ⟨hty, .of_moved hslot (h.sound.bounded _ (hrs r hr)) (h.stores.size_eq ▸ hlt')⟩

theorem lookupName (h : e.Agrees e') (name : String) : Agree (Found e) (e.lookupName name) (e'.lookupName name) := by
  have hbody : List.Forall₂ (Found e) (e.scope.bodyMatches name) (e'.scope.bodyMatches name) := by
    refine h.forall_found ?_ (fun _ => Scope.mem_slots_of_bodyMatches) fun _ => Scope.mem_slots_of_bodyMatches
    rw [← Scope.bodyMatches_move, ← Scope.bodyMatches_move, h.scope]
  have hcaller : List.Forall₂ (Found e) (e.scope.callerMatches name) (e'.scope.callerMatches name) := by
    refine h.forall_found ?_ (fun _ => Scope.mem_slots_of_callerMatches) fun _ => Scope.mem_slots_of_callerMatches
    rw [← Scope.callerMatches_move, ← Scope.callerMatches_move, h.scope]
  unfold Env.lookupName
  refine (h.unique name hbody).bind fun r r' hr _ _ => ?_
  cases hr with
  | some hfound => exact .ok hfound
  | none =>
      refine (h.unique name hcaller).bind fun r r' hr _ _ => ?_
      cases hr with
      | some hfound => exact .ok hfound
      | none => exact .error _

theorem view (h : e.Agrees e') : e'.view = e.view := by
  have hnamed : e.view.named = e'.view.named := by
    funext name
    refine (h.lookupName name).bind_eq fun r r' hr => ?_
    rw [h.binding hr.1 hr.2]
  have hreferred : e.view.referred = e'.view.referred := by
    funext p
    refine (h.lookup p).bind_eq fun r r' hr => ?_
    cases hr with
    | none => rfl
    | some hfound => simp only [h.binding hfound.1 hfound.2]
  generalize e.view = v at hnamed hreferred
  generalize e'.view = v' at hnamed hreferred
  cases v
  cases v'
  cases hnamed
  cases hreferred
  rfl

end Agrees
end Env
end Clausal
