import Clausal.Proofs.Footprint
import Clausal.Proofs.Indices

/-! Alias lists over scopes. A scope introduces its local variables, and the query's own scope its arguments too.
Each stands in the alias list of its class, at the depth of its scope. Main statement: this lasts as long as the
scope is open, unless a unification meets an older class that lists the parameter for a deeper scope. -/
namespace Clausal

variable {σ : Type}

namespace Alias

theorem mem_add {aliases : List Alias} {a b : Alias} (h : b ∈ aliases) : b ∈ add aliases a := by
  unfold add
  split
  · exact h
  · exact List.mem_append_left _ h

theorem mem_join {older younger : List Alias} {b : Alias} (h : b ∈ older) : b ∈ join older younger := by
  induction younger generalizing older with
  | nil => exact h
  | cons a rest ih => exact ih (mem_add h)

/-- An alias is added unless its parameter is there. -/
theorem exists_mem_add (aliases : List Alias) (a : Alias) : ∃ b ∈ add aliases a, b.parameter.id = a.parameter.id := by
  unfold add
  split
  · rename_i hany
    obtain ⟨b, hb, hid⟩ := List.any_eq_true.mp hany
    exact ⟨b, hb, of_decide_eq_true hid⟩
  · exact ⟨a, List.mem_append_right _ (List.mem_singleton_self a), rfl⟩

theorem exists_mem_join (older : List Alias) {younger : List Alias} {a : Alias} (h : a ∈ younger) :
    ∃ b ∈ join older younger, b.parameter.id = a.parameter.id := by
  induction younger generalizing older with
  | nil => exact absurd h List.not_mem_nil
  | cons x rest ih =>
      rcases List.mem_cons.mp h with rfl | h
      · obtain ⟨b, hb, hid⟩ := exists_mem_add older a
        have hmem : b ∈ join (add older a) rest := mem_join hb
        exact ⟨b, hmem, hid⟩
      · exact ih (add older x) h

/-- Where the older list has the parameter, the younger one adds nothing of it. -/
theorem mem_older_of_mem_join {older younger : List Alias} {a b : Alias} (ha : a ∈ older)
    (hb : b ∈ join older younger) (hid : b.parameter.id = a.parameter.id) : b ∈ older := by
  induction younger generalizing older with
  | nil => exact hb
  | cons x rest ih =>
      have hmem : b ∈ add older x := ih (mem_add ha) hb
      unfold add at hmem
      split at hmem
      · exact hmem
      · rename_i hany
        rcases List.mem_append.mp hmem with hmem | hmem
        · exact hmem
        · obtain rfl := List.mem_singleton.mp hmem
          exact absurd (List.any_eq_true.mpr ⟨a, ha, decide_eq_true hid.symm⟩) hany

end Alias

namespace Store

variable {s t : Store} {c k : Nat} {id : ActualId}

/-- The class of a cell lists the parameter, for a scope of this depth or less deep, and for no deeper one. -/
structure Registers (s : Store) (c : Nat) (id : ActualId) (k : Nat) : Prop where
  listed : ∃ a ∈ s.entries c, a.parameter.id = id
  depth_le : ∀ a ∈ s.entries c, a.parameter.id = id → a.depth ≤ k

theorem Registers.mem_aliases (h : s.Registers c id k) : ∃ a ∈ s.aliases c, a.id = id := by
  obtain ⟨a, ha, hid⟩ := h.listed
  exact ⟨a.parameter, List.mem_map_of_mem ha, hid⟩

theorem Registers.of_entries (h : s.Registers c id k) {d : Nat} (heq : t.entries d = s.entries c) :
    t.Registers d id k where
  listed := heq ▸ h.listed
  depth_le := heq ▸ h.depth_le

theorem entries_allocateFor (a : Actual) (depth : Nat) (hc : c < s.cells.size) :
    (s.allocateFor a depth).2.entries c = s.entries c := by
  rw [entries_eq, find_allocateFor, listed_allocateFor, if_neg (Nat.ne_of_lt (find_lt hc)), entries_eq]

theorem registers_allocateFor (s : Store) (a : Actual) (depth : Nat) :
    (s.allocateFor a depth).2.Registers s.cells.size a.id depth := by
  have hentries : (s.allocateFor a depth).2.entries s.cells.size = [⟨a, depth⟩] := by
    rw [entries_eq, find_allocateFor, find_of_ge (Nat.le_refl _), listed_allocateFor, if_pos rfl]
  refine ⟨⟨⟨a, depth⟩, ?_, rfl⟩, fun b hb _ => ?_⟩
  · rw [hentries]
    exact List.mem_singleton_self _
  · rw [hentries] at hb
    exact Nat.le_of_eq (congrArg Alias.depth (List.mem_singleton.mp hb))

theorem entries_bindOrCheck {v : Value} {d : Nat} (h : s.bindOrCheck d v = (.ok true, t)) :
    t.entries c = s.entries c := by
  rcases bindOrCheck_ok h with rfl | ⟨-, -, rfl⟩
  · rfl
  · rw [entries_eq, find_bind, listed_bind, entries_eq]

theorem Registers.closeScope (h : s.Registers c id k) (hs : s.Wide) {depth : Nat} (hk : k < depth) {m : Mark}
    (hc : c < m.cells) : (s.closeScope depth m).Registers c id k := by
  have hentries : (s.closeScope depth m).entries c = (s.entries c).filter fun a => a.depth < depth := by
    rw [entries_eq, find_closeScope hs depth hc, listed_closeScope hs depth (find_lt hc), entries_eq]
  obtain ⟨a, ha, hid⟩ := h.listed
  refine ⟨⟨a, ?_, hid⟩, fun b hb => ?_⟩
  · rw [hentries]
    exact List.mem_filter.mpr ⟨ha, decide_eq_true (Nat.lt_of_le_of_lt (h.depth_le a ha hid) hk)⟩
  · rw [hentries] at hb
    exact h.depth_le b (List.mem_filter.mp hb).1

/-- To unify the two cells is to merge their classes, of which the older one lists the parameter for a deeper scope
than this. The cell is in the younger one. -/
def Hides (s : Store) (a b c : Nat) (id : ActualId) (k : Nat) : Prop :=
  s.find a ≠ s.find b ∧ s.find c = max (s.find a) (s.find b) ∧
    ∃ x ∈ s.entries (min (s.find a) (s.find b)), x.parameter.id = id ∧ k < x.depth

theorem Registers.unify (h : s.Registers c id k) {a b : Nat} (ha : a < s.cells.size) (hb : b < s.cells.size)
    (hu : s.unify a b = (.ok true, t)) : t.Registers c id k ∨ s.Hides a b c id k := by
  rcases unify_ok ha hb hu with ⟨rfl, -⟩ | ⟨older, younger, ty, hm⟩
  · exact .inl h
  have hentries : t.entries c = if s.find c = older ∨ s.find c = younger then
      Alias.join (s.listed older) (s.listed younger) else s.entries c := by
    rw [entries_eq, hm.find_eq, hm.listed_eq]
    by_cases hy : s.find c = younger
    · rw [if_pos hy, if_pos rfl, if_pos (.inr hy)]
    · rw [if_neg hy]
      by_cases ho : s.find c = older
      · rw [if_pos ho, if_pos (.inl ho)]
      · rw [if_neg ho, if_neg hy, if_neg (not_or.mpr ⟨ho, hy⟩), entries_eq]
  obtain ⟨x, hx, hid⟩ := h.listed
  by_cases ho : s.find c = older
  · left
    rw [if_pos (.inl ho)] at hentries
    rw [entries_eq, ho] at hx
    refine ⟨⟨x, ?_, hid⟩, fun y hy hy' => ?_⟩
    · rw [hentries]
      exact Alias.mem_join hx
    · rw [hentries] at hy
      refine h.depth_le y ?_ hy'
      rw [entries_eq, ho]
      exact Alias.mem_older_of_mem_join hx hy (hy'.trans hid.symm)
  by_cases hy : s.find c = younger
  · rw [if_pos (.inr hy)] at hentries
    rw [entries_eq, hy] at hx
    by_cases hdeep : ∃ z ∈ s.listed older, z.parameter.id = id ∧ k < z.depth
    · right
      have hroots : s.find a ≠ s.find b ∧ min (s.find a) (s.find b) = older ∧ max (s.find a) (s.find b) = younger := by
        have hlt := hm.lt
        rcases hm.roots with ⟨rfl, rfl⟩ | ⟨rfl, rfl⟩ <;> omega
      refine ⟨hroots.1, hy.trans hroots.2.2.symm, ?_⟩
      rw [hroots.2.1, entries_eq, hm.older_root]
      exact hdeep
    · left
      refine ⟨?_, fun z hz hz' => ?_⟩
      · rw [hentries]
        obtain ⟨z, hz, hz'⟩ := Alias.exists_mem_join (s.listed older) hx
        exact ⟨z, hz, hz'.trans hid⟩
      · rw [hentries] at hz
        rcases Alias.mem_of_mem_join hz with hz | hz
        · exact Nat.le_of_not_lt fun hlt => hdeep ⟨z, hz, hz', hlt⟩
        · exact h.depth_le z (by rw [entries_eq, hy]; exact hz) hz'
  · rw [if_neg (not_or.mpr ⟨ho, hy⟩)] at hentries
    exact .inl (h.of_entries hentries)

end Store

/-- A slot that one of the scopes, from the inside out, has introduced, and the depth of that scope. -/
inductive Introduced : List Scope → Nat → Slot → Prop where
  | here {sc : Scope} {outer : List Scope} {slot : Slot} : slot ∈ sc.locals → Introduced (sc :: outer) outer.length slot
  | query {sc : Scope} {slot : Slot} : slot ∈ sc.argumentSlots → Introduced [sc] 0 slot
  | outer {sc : Scope} {outer : List Scope} {k : Nat} {slot : Slot} :
      Introduced outer k slot → Introduced (sc :: outer) k slot

namespace Introduced

variable {scopes : List Scope} {k : Nat} {slot : Slot}

theorem lt_length (h : Introduced scopes k slot) : k < scopes.length := by
  induction h with
  | here _ => exact Nat.lt_succ_self _
  | query _ => exact Nat.lt_succ_self _
  | outer _ ih => exact Nat.lt_succ_of_lt ih

theorem mem_slots (h : Introduced scopes k slot) : ∃ sc ∈ scopes, slot ∈ sc.slots := by
  induction h with
  | here hslot => exact ⟨_, List.mem_cons_self, List.mem_append_right _ hslot⟩
  | query hslot => exact ⟨_, List.mem_cons_self, List.mem_append_left _ hslot⟩
  | outer _ ih =>
      obtain ⟨sc, hsc, hslot⟩ := ih
      exact ⟨sc, List.mem_cons_of_mem _ hsc, hslot⟩

/-- The innermost scope has introduced it, or one further out. -/
theorem cases_inner {sc : Scope} {outer : List Scope} (h : Introduced (sc :: outer) k slot) :
    (k = outer.length ∧ (slot ∈ sc.locals ∨ (outer = [] ∧ slot ∈ sc.argumentSlots))) ∨ Introduced outer k slot := by
  cases h with
  | here hslot => exact .inl ⟨rfl, .inl hslot⟩
  | query hslot => exact .inl ⟨rfl, .inr ⟨rfl, hslot⟩⟩
  | outer h => exact .inr h

theorem of_inner {sc : Scope} {outer : List Scope}
    (h : slot ∈ sc.locals ∨ (outer = [] ∧ slot ∈ sc.argumentSlots)) : Introduced (sc :: outer) outer.length slot := by
  rcases h with h | ⟨rfl, h⟩
  · exact .here h
  · exact .query h

end Introduced

namespace Env

variable {e e' e'' : Env} {k : Nat} {slot : Slot}

/-- The slot stands in the alias list of its class, for its scope. -/
def Registers (e : Env) (slot : Slot) (k : Nat) : Prop := e.store.Registers slot.cell slot.parameter.id k

theorem Sound.introduced_lt (hs : e.Sound) (h : Introduced e.scopes k slot) : slot.cell < e.store.cells.size := by
  obtain ⟨sc, hsc, hslot⟩ := h.mem_slots
  exact hs.held.slots_lt sc hsc slot hslot

/-- What is introduced has just been listed, or was introduced before and has stayed listed if it was. -/
def Carries (e e' : Env) : Prop := ∀ k slot', Introduced e'.scopes k slot' → e'.Registers slot' k ∨
  ∃ slot, Introduced e.scopes k slot ∧ slot.parameter = slot'.parameter ∧ (e.Registers slot k → e'.Registers slot' k)

theorem Carries.refl (e : Env) : e.Carries e := fun _ slot h => .inr ⟨slot, h, rfl, id⟩

theorem Carries.trans (h : e.Carries e') (h' : e'.Carries e'') : e.Carries e'' := by
  intro k slot'' hin
  rcases h' k slot'' hin with hreg | ⟨slot', hin', hparam', hkeep'⟩
  · exact .inl hreg
  · rcases h k slot' hin' with hreg | ⟨slot, hin, hparam, hkeep⟩
    · exact .inl (hkeep' hreg)
    · exact .inr ⟨slot, hin, hparam.trans hparam', hkeep' ∘ hkeep⟩

theorem Carries.of_entries (hscope : e'.scope = e.scope) (henc : e'.enclosing = e.enclosing)
    (hentries : ∀ k slot, Introduced e.scopes k slot → e'.store.entries slot.cell = e.store.entries slot.cell) :
    e.Carries e' := by
  intro k slot hin
  have hin' : Introduced e.scopes k slot := by
    rw [scopes, ← hscope, ← henc]
    exact hin
  exact .inr ⟨slot, hin', rfl, fun h => h.of_entries (hentries k slot hin')⟩

theorem Carries.nextSerial (e : Env) : e.Carries e.nextSerial.2 := .of_entries rfl rfl fun _ _ _ => rfl

theorem Carries.addLocal (hs : e.Sound) (a : Actual) : e.Carries (e.addLocal a).2 := by
  intro k slot hin
  have hold (h : Introduced e.scopes k slot) : (e.addLocal a).2.Registers slot k ∨ ∃ slot₀,
      Introduced e.scopes k slot₀ ∧ slot₀.parameter = slot.parameter ∧
        (e.Registers slot₀ k → (e.addLocal a).2.Registers slot k) :=
    .inr ⟨slot, h, rfl, fun hreg => hreg.of_entries (Store.entries_allocateFor a e.depth (hs.introduced_lt h))⟩
  rcases hin.cases_inner with ⟨rfl, hslot⟩ | hin
  · rcases hslot with hslot | hslot
    · rcases List.mem_append.mp hslot with hslot | hslot
      · exact hold (.here hslot)
      · obtain rfl := List.mem_singleton.mp hslot
        exact .inl (e.store.registers_allocateFor a e.depth)
    · exact hold (.of_inner (.inr hslot))
  · exact hold (.outer hin)

theorem Carries.additions (hs : e.Sound) {P : Param → Prop} {Q : Ty → Prop} (h : Additions P Q e e') :
    e.Carries e' := by
  induction h with
  | refl => exact .refl e
  | @tail e₁ e₂ hpre hstep ih =>
      have hs₁ : e₁.Sound := ((Additions.widens hpre).edits.inside hs.bounded).sound hs
      refine ih.trans ?_
      cases hstep with
      | @introduced a _ _ => exact .addLocal hs₁ a
      | passed _ hok =>
          obtain ⟨a, -, -, -, -, rfl⟩ := addLiteral_eq hok
          exact .of_entries rfl rfl fun _ _ hin => Store.entries_allocateFor a e₁.depth (hs₁.introduced_lt hin)

theorem Carries.redirect (e : Env) : e.Carries e.redirect := by
  intro k slot' hin
  have halike := e.alike_redirect
  have hentries (c : Nat) : e.redirect.store.entries c = e.store.entries c := by
    rw [Store.entries_eq, Store.entries_eq, halike.find_eq]
    exact Store.listed_compressAll e.store e.scope.slots _
  have hfound (slot : Slot) : e.redirect.store.entries (e.store.find slot.cell) = e.store.entries slot.cell := by
    rw [hentries, Store.entries_eq, Store.find_find, Store.entries_eq]
  rcases hin.cases_inner with ⟨rfl, hslot⟩ | hin
  · rcases hslot with hslot | ⟨hnil, hslot⟩
    · obtain ⟨slot, hold, rfl⟩ := List.mem_map.mp hslot
      exact .inr ⟨slot, .here hold, rfl, fun hreg => hreg.of_entries (hfound slot)⟩
    · obtain ⟨a, ha, rfl⟩ := List.mem_map.mp hslot
      obtain ⟨b, hb, rfl⟩ := List.mem_map.mp ha
      refine .inr ⟨b.2, .of_inner (.inr ⟨hnil, List.mem_map_of_mem hb⟩), rfl, fun hreg => ?_⟩
      exact hreg.of_entries (hfound b.2)
  · exact .inr ⟨slot', .outer hin, rfl, fun hreg => hreg.of_entries (hentries slot'.cell)⟩

theorem Carries.openScope (e : Env) (arguments : List (Formal × Slot)) : e.Carries (e.openScope arguments) := by
  intro k slot hin
  rcases hin.cases_inner with ⟨-, hslot⟩ | hin
  · rcases hslot with hslot | ⟨hnil, -⟩
    · exact absurd hslot List.not_mem_nil
    · cases hnil
  · exact .inr ⟨slot, hin, rfl, id⟩

theorem Carries.closeScope (hs : e.Sound) (hclose : e.closeScope = .ok e') : e.Carries e' := by
  obtain ⟨outer, rest, henc, rfl⟩ := closeScope_eq_ok.mp hclose
  suffices hdropped : e.Carries (e.dropScope outer rest) from hdropped.trans (.redirect _)
  intro k slot hin
  have hin' : Introduced e.enclosing k slot := by
    rw [henc]
    exact hin
  refine .inr ⟨slot, .outer hin', rfl, fun hreg => hreg.closeScope hs.valid.wide hin'.lt_length ?_⟩
  obtain ⟨sc, hsc, hslot⟩ := hin'.mem_slots
  exact hs.held.2.2.2.slots_lt sc hsc slot hslot

/-- An equation carries over what it does not hide. -/
theorem carries_unify {e : Env} {s : Store} {a b : Nat} (ha : a < e.store.cells.size)
    (hb : b < e.store.cells.size) (hu : e.store.unify a b = (.ok true, s)) {slot' : Slot}
    (hin : Introduced (({ e with store := s } : Env).redirect).scopes k slot') :
    (({ e with store := s } : Env).redirect).Registers slot' k ∨ ∃ slot, Introduced e.scopes k slot ∧
      slot.parameter = slot'.parameter ∧
        (e.store.Hides a b slot.cell slot.parameter.id k ∨
          (e.Registers slot k → (({ e with store := s } : Env).redirect).Registers slot' k)) := by
  rcases Carries.redirect { e with store := s } k slot' hin with hreg | ⟨slot, hslot, hparam, hkeep⟩
  · exact .inl hreg
  · refine .inr ⟨slot, hslot, hparam, ?_⟩
    by_cases hhides : e.store.Hides a b slot.cell slot.parameter.id k
    · exact .inl hhides
    · exact .inr fun hreg => hkeep ((hreg.unify ha hb hu).resolve_right hhides)

theorem seat_registers (actuals : List Actual) {placed : List Slot × Store}
    (h : ∀ slot ∈ placed.1, slot.cell < placed.2.cells.size ∧ placed.2.Registers slot.cell slot.parameter.id 0) :
    ∀ slot ∈ (actuals.foldl seat placed).1,
      (actuals.foldl seat placed).2.Registers slot.cell slot.parameter.id 0 := by
  induction actuals generalizing placed with
  | nil => exact fun slot hslot => (h slot hslot).2
  | cons a rest ih =>
      apply ih
      intro slot hslot
      unfold seat at hslot ⊢
      cases hfound : placed.1.find? fun slot => slot.parameter.id = a.id with
      | some old =>
          rw [hfound] at hslot
          have hid : old.parameter.id = a.id := by simpa using List.find?_some hfound
          rcases List.mem_append.mp hslot with hslot | hslot
          · exact h slot hslot
          · obtain rfl := List.mem_singleton.mp hslot
            have hold := h old (List.mem_of_find?_eq_some hfound)
            rw [hid] at hold
            exact hold
      | none =>
          rw [hfound] at hslot
          have hsize : (placed.2.allocateFor a 0).2.cells.size = placed.2.cells.size + 1 :=
            Store.size_allocateFor a 0
          simp only [hsize]
          rcases List.mem_append.mp hslot with hslot | hslot
          · obtain ⟨hlt, hreg⟩ := h slot hslot
            exact ⟨Nat.lt_succ_of_lt hlt, hreg.of_entries (Store.entries_allocateFor a 0 hlt)⟩
          · obtain rfl := List.mem_singleton.mp hslot
            exact ⟨Nat.lt_succ_self _, placed.2.registers_allocateFor a 0⟩

end Env

namespace Resolvent

/-- The next goal unifies two cells, and this hides the parameter from the scope of this depth that introduced it. -/
def Hides (r : Resolvent σ) (a : Actual) (k : Nat) : Prop :=
  ∃ p q rest target source e₁ e₂ slot, r.agenda.next? = some (.bind p (.param q), rest) ∧
    r.env.resolve p = .ok (target, e₁) ∧ e₁.resolve q = .ok (source, e₂) ∧ Introduced e₂.scopes k slot ∧
      slot.parameter = a ∧ e₂.store.Hides target.slot.cell source.slot.cell slot.cell a.id k

variable {r r' : Resolvent σ}

/-- A goal other than an equation hides nothing. -/
theorem goal_carries {e e' : Env} {g : Goal σ} (hs : e.Sound) (hstep : (g.step e).Runs (.next e'))
    (hg : ∀ p q, g ≠ .bind p (.param q)) : e.Carries e' := by
  cases Goal.leads hstep with
  | @bind p t _ _ =>
      obtain ⟨target, e₁, hp, h⟩ := Goal.bind_next hstep
      rcases h with ⟨q, _, _, _, rfl, -⟩ | ⟨v, e₂, s, -, hv, hbind, rfl⟩
      · exact absurd rfl (hg p q)
      · have hadds : Env.Additions (fun _ => True) (fun _ => True) e e₂ :=
          (Env.resolve_adds trivial hp).1.trans (Env.evaluate_adds (fun _ _ => trivial) hv)
        exact (Env.Carries.additions hs hadds).trans
          (.of_entries rfl rfl fun _ _ _ => Store.entries_bindOrCheck hbind)
  | check f => exact .refl e
  | action f => exact .refl e
  | openScope arguments => exact .openScope e arguments
  | closeScope hclose => exact .closeScope hs hclose

/-- What is introduced after a step was introduced by it, is hidden by it, or has stayed listed. -/
theorem Step.carries (h : r.Step r') (hr : r.Shaped) {k : Nat} {slot' : Slot}
    (hin : Introduced r'.env.scopes k slot') : r'.env.Registers slot' k ∨ r.Hides slot'.parameter k ∨
      ∃ slot, Introduced r.env.scopes k slot ∧ slot.parameter = slot'.parameter ∧
        (r.env.Registers slot k → r'.env.Registers slot' k) := by
  have hs := hr.sound
  have hcarried (hcarries : r.env.Carries r'.env) : r'.env.Registers slot' k ∨ r.Hides slot'.parameter k ∨
      ∃ slot, Introduced r.env.scopes k slot ∧ slot.parameter = slot'.parameter ∧
        (r.env.Registers slot k → r'.env.Registers slot' k) := (hcarries k slot' hin).imp_right .inr
  cases h with
  | @call e e' a rest g name slots callee r' hn hstep hauth _ hresume =>
      obtain ⟨⟨arguments, rfl⟩, -⟩ := Goal.step_call hs.bounded hstep
      obtain ⟨⟨slots', e₁⟩, hpass, hstep⟩ := hstep.of_bind
      cases hstep.of_pure
      have hadds : Env.Additions (fun _ => True) (fun _ => True) e e' :=
        Env.passAll_adds (fun _ _ _ _ => trivial) (fun _ _ => trivial) hpass
      refine hcarried ?_
      rw [(resume_runs hresume).1]
      exact (Env.Carries.additions hs hadds).trans (.nextSerial e')
  | @goal e e' a rest g hn hstep =>
      by_cases hg : ∃ p q, g = .bind p (.param q)
      · obtain ⟨p, q, rfl⟩ := hg
        obtain ⟨target, e₁, hp, h⟩ := Goal.bind_next hstep
        rcases h with ⟨q', source, e₂, s, hsame, hq, hu, rfl⟩ | ⟨_, _, _, hne, -⟩
        · obtain rfl := Term.param.inj hsame
          have hadds : Env.Additions (fun _ => True) (fun _ => True) e e₂ :=
            (Env.resolve_adds trivial hp).1.trans (Env.resolve_adds trivial hq).1
          have htarget := (Env.resolve_ok hs.bounded hp).2.1
          have hin₁ := (Env.resolve_ok hs.bounded hp).1
          obtain ⟨hquiet, hsource, -⟩ := Env.resolve_ok (hin₁.bounded hs.bounded) hq
          rcases Env.carries_unify (Nat.lt_of_lt_of_le htarget hquiet.grows.size_le) hsource hu hin with
            hreg | ⟨slot, hslot, hparam, hhides | hkeep⟩
          · exact .inl hreg
          · refine .inr (.inl ⟨p, q, rest, target, source, e₁, e₂, slot, hn, hp, hq, hslot, hparam, ?_⟩)
            rw [← hparam]
            exact hhides
          · rcases Env.Carries.additions hs hadds k slot hslot with hreg | ⟨old, hold, hparam', hkeep'⟩
            · exact .inl (hkeep hreg)
            · exact .inr (.inr ⟨old, hold, hparam'.trans hparam, hkeep ∘ hkeep'⟩)
        · exact absurd rfl (hne q)
      · exact hcarried (goal_carries hs hstep fun p q heq => hg ⟨p, q, heq⟩)

theorem Starts.registers {actuals : List Actual} {c : Clause σ} (h : Starts actuals c r) {k : Nat} {slot : Slot}
    (hin : Introduced r.env.scopes k slot) : r.env.Registers slot k := by
  obtain ⟨e, he, hr⟩ := h.2.2.of_bind
  obtain ⟨body, -, hr⟩ := hr.of_bind
  cases hr.of_pure
  have hok : Env.ofQuery c.formals actuals = .ok e := he.of_lift
  unfold Env.ofQuery at hok
  split at hok
  · cases hok
    rcases hin.cases_inner with ⟨rfl, hslot | ⟨-, hslot⟩⟩ | hin
    · exact absurd hslot List.not_mem_nil
    · obtain ⟨a, ha, rfl⟩ := List.mem_map.mp hslot
      exact Env.seat_registers actuals (fun _ h => absurd h List.not_mem_nil) a.2 (List.of_mem_zip ha).2
    · cases hin
  · cases hok

/-- Wherever a branch stands, what an open scope has introduced is in the alias list of the cell that it denotes,
unless an equation has hidden it since the scope opened. -/
theorem listed_unless_hidden {actuals : List Actual} {c : Clause σ} {r₀ : Resolvent σ} (hstart : Starts actuals c r₀)
    (htrail : r₀.Trail r) {k : Nat} {slot : Slot} (hin : Introduced r.env.scopes k slot) :
    (∃ a ∈ r.env.store.aliases slot.cell, a.id = slot.parameter.id) ∨
      ∃ r₁ r₂, r₀.Trail r₁ ∧ r₁.Hides slot.parameter k ∧ r₁.Step r₂ ∧ Within k r₂ r := by
  suffices hkept : r.env.Registers slot k ∨ ∃ r₁ r₂, r₀.Trail r₁ ∧ r₁.Hides slot.parameter k ∧ r₁.Step r₂ ∧
      Within k r₂ r from hkept.imp_left Store.Registers.mem_aliases
  induction htrail generalizing slot with
  | refl => exact .inl (hstart.registers hin)
  | @tail r r' hpre hstep ih =>
      have hdepth : k ≤ r'.env.depth := Nat.le_of_lt_succ hin.lt_length
      rcases hstep.carries (Trail.shaped hpre hstart.shaped) hin with hreg | hhides | ⟨old, hold, hparam, hkeep⟩
      · exact .inl hreg
      · exact .inr ⟨r, r', hpre, hhides, hstep, .refl⟩
      · rcases ih hold with hreg | ⟨r₁, r₂, htrail, hhides, hstep', hwithin⟩
        · exact .inl (hkeep hreg)
        · rw [hparam] at hhides
          exact .inr ⟨r₁, r₂, htrail, hhides, hstep', hwithin.tail ⟨hstep, hdepth⟩⟩

end Resolvent

def lent : Actual := .output (.shared 2) (some "r") .int none

/-- A clause makes the output a local variable of its own, and then one with both of its formals. -/
def borrowing : Clause Unit where
  name := "borrow"
  formals := [⟨3, "a", .int⟩, ⟨4, "b", .int⟩]
  body := .fixed [.bind (.formal ⟨3, "a", .int⟩) (.param (.actual lent)),
    .bind (.formal ⟨3, "a", .int⟩) (.param (.formal ⟨4, "b", .int⟩))]
  name_ne := by decide
  distinct := by decide

/-- A clause unifies its second formal with its third, which stands for the output, and has the other clause unify
the first one with the second. -/
def lending : Clause Unit where
  name := "lend"
  formals := [⟨0, "x", .int⟩, ⟨1, "y", .int⟩, ⟨2, "z", .int⟩]
  body := .fixed [.bind (.formal ⟨1, "y", .int⟩) (.param (.formal ⟨2, "z", .int⟩)),
    .call "borrow" [.param (.formal ⟨0, "x", .int⟩), .param (.formal ⟨1, "y", .int⟩)]]
  name_ne := by decide
  distinct := by decide

def lenders : List Actual :=
  [.output (.shared 0) (some "q") .int none, .output (.shared 1) (some "s") .int none, lent]

theorem lending_completes : ∃ (c : Clause Unit) (r₀ r : Resolvent Unit) (slot : Slot),
    Resolvent.Starts lenders c r₀ ∧ r₀.Trail r ∧ r.agenda.toList = [] ∧ Introduced r.env.scopes 0 slot ∧
      ∀ a ∈ r.env.store.aliases slot.cell, a.id ≠ slot.parameter.id := by
  have hshown : ((ExceptT.run ((Pending.query "lend" lenders).solve lending) (World.start ())).1.toOption.bind fun o =>
      o.stopped?.bind fun call =>
        (ExceptT.run ((Pending.call call).solve borrowing) (World.start ())).1.toOption.bind fun o =>
          o.env?.bind fun e => e.scope.arguments[2]?.map fun a => (decide (borrowing.Matches call.actuals), e.depth,
            a.2.parameter.id, (e.store.aliases a.2.cell).map Actual.id)) =
        some (true, 0, .shared 2, [.shared 0, .shared 1]) := by decide +kernel
  obtain ⟨o₁, hfirst, hshown⟩ := Option.bind_eq_some_iff.mp hshown
  obtain ⟨call, hstopped, hshown⟩ := Option.bind_eq_some_iff.mp hshown
  obtain ⟨o₂, hsecond, hshown⟩ := Option.bind_eq_some_iff.mp hshown
  obtain ⟨e, hcomplete, hshown⟩ := Option.bind_eq_some_iff.mp hshown
  obtain ⟨a, ha, hfields⟩ := Option.map_eq_some_iff.mp hshown
  simp only [Prod.mk.injEq, decide_eq_true_eq] at hfields
  obtain ⟨hmatches, hdepth, hid, haliases⟩ := hfields
  have hlending : lending.Authored := Clause.authored_of_fixed rfl (by simp [Goal.Authored])
  have hborrowing : borrowing.Authored := Clause.authored_of_fixed rfl (by simp [Goal.Authored])
  have hquery : (Pending.query "lend" lenders : Pending Unit).Reached lenders := rfl
  obtain ⟨c, r, hstart, hfollows⟩ := Pending.solve_follows hquery hlending (by decide) (.of_toOption hfirst)
  obtain ⟨e', agenda, g, hrest⟩ := hfollows.of_stopped? hstopped
  have hcall : (Pending.call call).Reached lenders := ⟨c, r, e', agenda, g, hstart, hrest⟩
  obtain ⟨c, r, hstart, hfollows⟩ := Pending.solve_follows hcall hborrowing hmatches (.of_toOption hsecond)
  obtain ⟨agenda, hnil, htrail⟩ := hfollows.of_env? hcomplete
  have henc : e.enclosing = [] := List.length_eq_zero_iff.mp hdepth
  refine ⟨c, r, ⟨e, agenda⟩, a.2, hstart, htrail, hnil, ?_, fun b hb => ?_⟩
  · rw [Env.scopes, henc]
    exact .query (List.mem_map_of_mem (List.mem_of_getElem? ha))
  · have hmem : b.id ∈ [ActualId.shared 0, .shared 1] := by
      rw [← haliases]
      exact List.mem_map_of_mem hb
    rw [hid]
    intro hsame
    rw [hsame] at hmem
    exact absurd hmem (by decide)

/-- Not all that open scopes have introduced is listed. -/
theorem introduced_may_be_unlisted :
    ¬∀ (actuals : List Actual) (c : Clause Unit) (r₀ r : Resolvent Unit), Resolvent.Starts actuals c r₀ →
        r₀.Trail r → ∀ (k : Nat) (slot : Slot), Introduced r.env.scopes k slot →
          ∃ a ∈ r.env.store.aliases slot.cell, a.id = slot.parameter.id := by
  intro hall
  obtain ⟨c, r₀, r, slot, hstart, htrail, -, hin, hunlisted⟩ := lending_completes
  obtain ⟨a, ha, hid⟩ := hall _ _ _ _ hstart htrail 0 slot hin
  exact hunlisted a ha hid

/-- An equation on the way has hidden the argument. -/
theorem borrowing_hides : ∃ (c : Clause Unit) (r₀ r₁ : Resolvent Unit) (a : Actual),
    Resolvent.Starts lenders c r₀ ∧ r₀.Trail r₁ ∧ r₁.Hides a 0 := by
  obtain ⟨c, r₀, r, slot, hstart, htrail, -, hin, hunlisted⟩ := lending_completes
  rcases Resolvent.listed_unless_hidden hstart htrail hin with ⟨a, ha, hid⟩ | ⟨r₁, r₂, htrail₁, hhides, -⟩
  · exact absurd hid (hunlisted a ha)
  · exact ⟨c, r₀, r₁, slot.parameter, hstart, htrail₁, hhides⟩

end Clausal
