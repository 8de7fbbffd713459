import Clausal.Proofs.Edits

/-! Coherent scopes. Slots of a scope that have a parameter in common denote one variable, and what is local is not an
argument as well. Main statement: whatever a goal does to an environment keeps its scopes coherent, and so is a
list of arguments that it passes, as long as no literal is referred to before it has got its identity. -/
namespace Clausal

variable {σ : Type}

/-- The identity may be in use when literals have been numbered up to this serial. -/
def ActualId.Given (n : Nat) : ActualId → Prop
  | .literal m => m < n
  | .shared _ | .own _ _ => True

def Param.Given (n : Nat) : Param → Prop
  | .formal _ => True
  | .actual a => a.id.Given n

theorem ActualId.Given.mono {id : ActualId} {m n : Nat} (h : id.Given m) (hmn : m ≤ n) : id.Given n := by
  cases id with
  | shared _ => trivial
  | own _ _ => trivial
  | literal _ => exact Nat.lt_of_lt_of_le h hmn

theorem Param.Given.mono {p : Param} {m n : Nat} (h : p.Given m) (hmn : m ≤ n) : p.Given n := by
  cases p with
  | formal f => trivial
  | actual a => exact ActualId.Given.mono h hmn

/-- A parameter that no slot of the scope has is not found in it. -/
theorem Scope.slot?_eq_none {sc : Scope} {a : Actual} (h : sc.slot? (.actual a) = none) :
    ∀ slot ∈ sc.slots, slot.parameter.id ≠ a.id := fun slot hslot hid =>
  List.find?_eq_none.mp h slot hslot (decide_eq_true hid)

namespace Env

variable {e e' : Env} {slots : List Slot} {n : Nat} {Q : Ty → Prop}

/-- Slots with a parameter in common denote one variable, and their parameters have been given. -/
structure Coheres (e : Env) (slots : List Slot) : Prop where
  one : ∀ a ∈ slots, ∀ b ∈ slots, a.parameter.id = b.parameter.id → e.store.find a.cell = e.store.find b.cell
  given : ∀ slot ∈ slots, slot.parameter.id.Given e.serial

/-- All scopes are coherent, and no parameter is both local and an argument. -/
structure Coherent (e : Env) : Prop where
  slots : ∀ sc ∈ e.scopes, e.Coheres sc.slots
  apart : ∀ sc ∈ e.scopes, ∀ l ∈ sc.locals, ∀ a ∈ sc.argumentSlots, l.parameter.id ≠ a.parameter.id

theorem Coheres.mono (h : e.Coheres slots) (hserial : e.serial ≤ e'.serial)
    (hfind : ∀ a ∈ slots, ∀ b ∈ slots, e.store.find a.cell = e.store.find b.cell →
      e'.store.find a.cell = e'.store.find b.cell) : e'.Coheres slots where
  one := fun a ha b hb hid => hfind a ha b hb (h.one a ha b hb hid)
  given := fun slot hslot => (h.given slot hslot).mono hserial

theorem Coheres.grow (h : e.Coheres slots) (hlt : ∀ slot ∈ slots, slot.cell < e.store.cells.size)
    (hgrows : e.store.Grows e'.store) (hserial : e.serial ≤ e'.serial) : e'.Coheres slots :=
  h.mono hserial fun a ha b hb => hgrows.together a.cell b.cell (hlt a ha) (hlt b hb)

theorem Coheres.cons {slot : Slot} (h : e.Coheres slots) (hgiven : slot.parameter.id.Given e.serial)
    (hone : ∀ b ∈ slots, slot.parameter.id = b.parameter.id → e.store.find slot.cell = e.store.find b.cell) :
    e.Coheres (slot :: slots) where
  given := List.forall_mem_cons.mpr ⟨hgiven, h.given⟩
  one := by
    intro a ha b hb hid
    rcases List.mem_cons.mp ha with rfl | ha'
    · rcases List.mem_cons.mp hb with rfl | hb'
      · rfl
      · exact hone b hb' hid
    · rcases List.mem_cons.mp hb with rfl | hb'
      · exact (hone a ha' hid.symm).symm
      · exact h.one a ha' b hb' hid

theorem Coheres.of_mem {more : List Slot} (h : e.Coheres slots) (hmem : ∀ slot ∈ more, slot ∈ slots) :
    e.Coheres more where
  one := fun a ha b hb => h.one a (hmem a ha) b (hmem b hb)
  given := fun slot hslot => h.given slot (hmem slot hslot)

/-- Growth of the store keeps all scopes coherent that are left as they are. -/
theorem Coherent.grow (h : e.Coherent) (hs : e.Sound) (hscopes : e'.scopes = e.scopes)
    (hgrows : e.store.Grows e'.store) (hserial : e.serial ≤ e'.serial) : e'.Coherent where
  slots := fun sc hsc => by
    rw [hscopes] at hsc
    exact (h.slots sc hsc).grow (hs.held.slots_lt sc hsc) hgrows hserial
  apart := fun sc hsc => h.apart sc (hscopes ▸ hsc)

theorem Coherent.nextSerial (h : e.Coherent) : e.nextSerial.2.Coherent where
  slots := fun sc hsc => (h.slots sc hsc).mono (Nat.le_succ _) fun _ _ _ _ => id
  apart := h.apart

theorem Coherent.addLocal (h : e.Coherent) (hs : e.Sound) {a : Actual} (ha : a.id.Given e.serial)
    (hnone : e.scope.slot? (.actual a) = none) : (e.addLocal a).2.Coherent := by
  have hnew := Scope.slot?_eq_none hnone
  have hgrown : ∀ sc ∈ e.scopes, (e.addLocal a).2.Coheres sc.slots := fun sc hsc =>
    (h.slots sc hsc).grow (hs.held.slots_lt sc hsc) (e.store.grows_allocateFor a e.depth) (Nat.le_refl _)
  constructor
  · intro sc hsc
    rcases List.mem_cons.mp hsc with rfl | hsc
    · have hcons : (e.addLocal a).2.Coheres (⟨a, e.store.cells.size⟩ :: e.scope.slots) :=
        (hgrown e.scope List.mem_cons_self).cons ha fun b hb hid => absurd hid.symm (hnew b hb)
      exact hcons.of_mem fun slot hslot => List.mem_cons.mpr (mem_slots_addLocal.mp hslot).symm
    · exact hgrown sc (List.mem_cons_of_mem _ hsc)
  · intro sc hsc l hl b hb
    rcases List.mem_cons.mp hsc with rfl | hsc
    · rcases List.mem_append.mp hl with hl | hl
      · exact h.apart e.scope List.mem_cons_self l hl b hb
      · rw [List.mem_singleton.mp hl]
        exact (hnew b (List.mem_append_left _ hb)).symm
    · exact h.apart sc (List.mem_cons_of_mem _ hsc) l hl b hb

theorem Coherent.redirect (h : e.Coherent) : e.redirect.Coherent := by
  have hfind : ∀ c, e.redirect.store.find c = e.store.find c := (alike_redirect e).find_eq
  constructor
  · intro sc hsc
    rcases List.mem_cons.mp hsc with rfl | hsc
    · have hold := h.slots e.scope List.mem_cons_self
      rw [slots_redirect]
      constructor
      · intro a ha b hb hid
        obtain ⟨x, hx, rfl⟩ := List.mem_map.mp ha
        obtain ⟨y, hy, rfl⟩ := List.mem_map.mp hb
        rw [hfind, hfind]
        change e.store.find (e.store.find x.cell) = e.store.find (e.store.find y.cell)
        rw [hold.one x hx y hy hid]
      · intro slot hslot
        obtain ⟨x, hx, rfl⟩ := List.mem_map.mp hslot
        exact hold.given x hx
    · refine (h.slots sc (List.mem_cons_of_mem _ hsc)).mono (Nat.le_refl _) fun a _ b _ hab => ?_
      rw [hfind, hfind, hab]
  · intro sc hsc l hl a ha
    rcases List.mem_cons.mp hsc with rfl | hsc
    · obtain ⟨x, hx, rfl⟩ := List.mem_map.mp hl
      obtain ⟨moved, hmoved, rfl⟩ := List.mem_map.mp ha
      obtain ⟨y, hy, rfl⟩ := List.mem_map.mp hmoved
      exact h.apart e.scope List.mem_cons_self x hx y.2 (List.mem_map_of_mem hy)
    · exact h.apart sc (List.mem_cons_of_mem _ hsc) l hl a ha

theorem Coherent.openScope (h : e.Coherent) {arguments : List (Formal × Slot)}
    (harguments : e.Coheres (arguments.map Prod.snd)) : (e.openScope arguments).Coherent where
  slots := by
    intro sc hsc
    rcases List.mem_cons.mp hsc with rfl | hsc
    · have hcoheres : (e.openScope arguments).Coheres (arguments.map Prod.snd) :=
        harguments.mono (Nat.le_refl _) fun _ _ _ _ => id
      exact hcoheres.of_mem fun slot hslot => List.mem_map.mpr (mem_slots_openScope.mp hslot)
    · exact (h.slots sc hsc).mono (Nat.le_refl _) fun _ _ _ _ => id
  apart := by
    intro sc hsc l hl
    rcases List.mem_cons.mp hsc with rfl | hsc
    · exact absurd hl List.not_mem_nil
    · exact h.apart sc hsc l hl

/-- The scopes that are left have older cells only, which stay in their classes. -/
theorem Coherent.closeScope (h : e.Coherent) (hs : e.Sound) (hclose : e.closeScope = .ok e') : e'.Coherent := by
  obtain ⟨outer, rest, henc, rfl⟩ := closeScope_eq_ok.mp hclose
  suffices hdropped : (e.dropScope outer rest).Coherent from hdropped.redirect
  have hscopes : ∀ sc ∈ outer :: rest, sc ∈ e.scopes := by
    intro sc hsc
    rw [scopes, henc]
    exact List.mem_cons_of_mem _ hsc
  have hheld := hs.held.2.2.2
  rw [henc] at hheld
  constructor
  · intro sc hsc
    refine (h.slots sc (hscopes sc hsc)).mono (Nat.le_refl _) fun a ha b hb hab => ?_
    change (e.store.closeScope _ _).find a.cell = (e.store.closeScope _ _).find b.cell
    rw [Store.find_closeScope hs.valid.wide e.depth (hheld.slots_lt sc hsc a ha),
      Store.find_closeScope hs.valid.wide e.depth (hheld.slots_lt sc hsc b hb), hab]
  · exact fun sc hsc => h.apart sc (hscopes sc hsc)

theorem Coherent.addLiteral (h : e.Coherent) (hs : e.Sound) {ty : Ty} {v : Value} {slot : Slot}
    (hok : e.addLiteral ty v = .ok (slot, e')) : e'.Coherent := by
  obtain ⟨a, -, -, -, -, rfl⟩ := addLiteral_eq hok
  exact h.grow hs rfl (e.store.grows_allocateFor a e.depth) (Nat.le_succ _)

theorem Coherent.additions (h : e.Coherent) (hs : e.Sound) (hn : n ≤ e.serial)
    (hadds : Additions (Param.Given n) Q e e') : e'.Coherent ∧ e'.Sound ∧ e.serial ≤ e'.serial := by
  induction hadds with
  | refl => exact ⟨h, hs, Nat.le_refl _⟩
  | @tail e₁ e₂ _ hstep ih =>
      obtain ⟨h₁, hs₁, hserial⟩ := ih
      cases hstep with
      | @introduced a hp hnone =>
          have ha : a.id.Given e₁.serial := ActualId.Given.mono hp (Nat.le_trans hn hserial)
          exact ⟨h₁.addLocal hs₁ ha hnone, (Inside.addLocal e₁ a).sound hs₁, hserial⟩
      | passed _ hok =>
          have hsound := (addLiteral_ok hok).1.toInside.sound hs₁
          refine ⟨h₁.addLiteral hs₁ hok, hsound, ?_⟩
          obtain ⟨a, -, -, -, -, rfl⟩ := addLiteral_eq hok
          exact Nat.le_succ_of_le hserial

/-- Literals are passed but do not become local. -/
theorem Additions.given {N : Nat} (hn : n ≤ N) (h : ∀ slot ∈ e.scope.slots, slot.parameter.id.Given N)
    (hadds : Additions (Param.Given n) Q e e') : ∀ slot ∈ e'.scope.slots, slot.parameter.id.Given N := by
  induction hadds with
  | refl => exact h
  | tail _ hstep ih =>
      cases hstep with
      | introduced hp _ =>
          intro slot hslot
          rcases mem_slots_addLocal.mp hslot with hslot | rfl
          · exact ih slot hslot
          · exact ActualId.Given.mono hp hn
      | passed _ hok =>
          obtain ⟨a, -, -, -, -, rfl⟩ := addLiteral_eq hok
          exact ih

/-- A slot that is passed stands in the scope, or has got a literal's identity from this serial on. -/
def Hands (e e' : Env) (slot : Slot) : Prop :=
  slot ∈ e'.scope.slots ∨ ∃ m, slot.parameter.id = .literal m ∧ e.serial ≤ m ∧ m < e'.serial

theorem pass_hands {t : Term σ} {slot : Slot} (h : e.Coherent) (hs : e.Sound) (hn : n ≤ e.serial)
    (ht : ∀ p ∈ t.reads, p.Given n) (hpass : (e.pass t).Runs (slot, e')) : e.Hands e' slot := by
  obtain ⟨-, hslot⟩ := pass_adds (Q := fun _ => True) ht trivial hpass
  rcases hslot with ⟨p, -, hslot⟩ | ⟨v, e₁, hv, hok⟩
  · exact .inl (Scope.mem_slots_of_slot? hslot)
  · obtain ⟨-, -, hserial⟩ := h.additions hs hn (evaluate_adds (Q := fun _ => True) ht hv)
    obtain ⟨a, hid, -, -, rfl, rfl⟩ := addLiteral_eq hok
    exact .inr ⟨e₁.serial, hid, hserial, Nat.lt_succ_self _⟩

section Hands

variable {e₁ : Env} {a b slot : Slot} {N : Nat}

theorem Hands.earlier (h : e₁.Hands e' slot) (hserial : e.serial ≤ e₁.serial) : e.Hands e' slot :=
  h.imp_right fun ⟨m, hm, hle, hlt⟩ => ⟨m, hm, Nat.le_trans hserial hle, hlt⟩

theorem Hands.kept (h : e.Hands e₁ slot) (hslots : ∀ slot ∈ e₁.scope.slots, slot ∈ e'.scope.slots)
    (hserial : e₁.serial ≤ e'.serial) : e.Hands e' slot :=
  h.imp (hslots slot) fun ⟨m, hm, hle, hlt⟩ => ⟨m, hm, hle, Nat.lt_of_lt_of_le hlt hserial⟩

theorem Hands.given (h : e.Hands e' slot) (hlocal : e'.Coheres e'.scope.slots) :
    slot.parameter.id.Given e'.serial := by
  rcases h with hin | ⟨m, hm, -, hlt⟩
  · exact hlocal.given slot hin
  · rw [hm]
    exact hlt

/-- A literal that is passed clashes with no slot of the scope. -/
theorem not_literal_of_given (hgiven : ∀ slot ∈ e.scope.slots, slot.parameter.id.Given N) (ha : a ∈ e.scope.slots)
    {m : Nat} (hm : N ≤ m) : a.parameter.id ≠ .literal m := by
  intro hid
  have hlt := hgiven a ha
  rw [hid] at hlt
  exact Nat.not_lt_of_le hm hlt

/-- Slots that are passed one after the other denote one variable if they have a parameter in common. -/
theorem Hands.one (ha : e.Hands e₁ a) (hb : e₁.Hands e' b) (hlocal : e'.Coheres e'.scope.slots)
    (hgiven : ∀ slot ∈ e'.scope.slots, slot.parameter.id.Given N) (hN : N ≤ e.serial) (hserial : e.serial ≤ e₁.serial)
    (hslots : ∀ slot ∈ e₁.scope.slots, slot ∈ e'.scope.slots) (hid : a.parameter.id = b.parameter.id) :
    e'.store.find a.cell = e'.store.find b.cell := by
  rcases ha with hin | ⟨m, hm, hle, hlt⟩
  · rcases hb with hin' | ⟨m', hm', hle', -⟩
    · exact hlocal.one a (hslots a hin) b hin' hid
    · have hnot := not_literal_of_given hgiven (hslots a hin) (Nat.le_trans (Nat.le_trans hN hserial) hle')
      exact absurd (hid.trans hm') hnot
  · rcases hb with hin' | ⟨m', hm', hle', -⟩
    · exact absurd (hid.symm.trans hm) (not_literal_of_given hgiven hin' (Nat.le_trans hN hle))
    · have hsame : m = m' := ActualId.literal.inj (hm.symm.trans (hid.trans hm'))
      exact absurd (hsame ▸ hle') (Nat.not_le_of_lt hlt)

end Hands

/-- Arguments are passed coherently. A parameter that is passed twice is passed as the slots that the scope has for
it, and a literal has an identity of its own. -/
theorem Coherent.passAll {ts : List (Term σ)} {N : Nat} (h : e.Coherent) (hs : e.Sound) (hn : n ≤ N) (hN : N ≤ e.serial)
    (hgiven : ∀ slot ∈ e.scope.slots, slot.parameter.id.Given N) (hts : ∀ t ∈ ts, ∀ p ∈ t.reads, p.Given n)
    (hpass : (e.passAll ts).Runs (slots, e')) : e'.Coheres slots ∧ ∀ slot ∈ slots, e.Hands e' slot := by
  induction ts generalizing e slots with
  | nil =>
      cases hpass.of_pure
      exact ⟨⟨fun _ ha => absurd ha List.not_mem_nil, fun _ ha => absurd ha List.not_mem_nil⟩,
        fun _ ha => absurd ha List.not_mem_nil⟩
  | cons t ts ih =>
      obtain ⟨⟨slot, e₁⟩, hfirst, hpass⟩ := hpass.of_bind
      obtain ⟨⟨rest, e₂⟩, hrest, hpass⟩ := hpass.of_bind
      cases hpass.of_pure
      have ht := hts t List.mem_cons_self
      have hts' : ∀ t ∈ ts, ∀ p ∈ t.reads, p.Given n := fun t' h' => hts t' (List.mem_cons_of_mem t h')
      have hadds := (pass_adds (Q := fun _ => True) ht trivial hfirst).1
      have hadds' := passAll_adds (Q := fun _ => True) hts' (fun _ _ => trivial) hrest
      obtain ⟨h₁, hs₁, hserial⟩ := h.additions hs (Nat.le_trans hn hN) hadds
      obtain ⟨hcoheres, hhands⟩ := ih h₁ hs₁ (Nat.le_trans hN hserial) (hadds.given hn hgiven) hts' hrest
      obtain ⟨h₂, -, hserial'⟩ := h₁.additions hs₁ (Nat.le_trans hn (Nat.le_trans hN hserial)) hadds'
      have hlocal := h₂.slots e'.scope List.mem_cons_self
      have hgiven₂ := hadds'.given hn (hadds.given hn hgiven)
      have hslots := hadds'.widens.slots
      have hslot := pass_hands h hs (Nat.le_trans hn hN) ht hfirst
      have hhanded : e.Hands e' slot := hslot.kept hslots hserial'
      constructor
      · exact hcoheres.cons (hhanded.given hlocal) fun b hb =>
          hslot.one (hhands b hb) hlocal hgiven₂ hN hserial hslots
      · exact List.forall_mem_cons.mpr ⟨hhanded, fun b hb => (hhands b hb).earlier hserial⟩

end Env
end Clausal
