import Clausal.Proofs.Answers
import Clausal.Proofs.Edits
import Clausal.Proofs.Regions

/-! The footprint of a callee. While its scope is open, only cells are written to that share a class with an
argument, or that are younger than the call. Main statement: when the scope closes, the caller's
environment differs from that at the call in the classes of the arguments at most. -/
namespace Clausal

variable {σ : Type}

namespace Store

variable {s t : Store} {depth : Nat}

theorem Shallow.mono {d : Nat} (h : s.Shallow depth) (hle : depth ≤ d) : s.Shallow d :=
  fun c a ha => Nat.le_trans (h c a ha) hle

theorem Shallow.allocateFor (h : s.Shallow depth) (a : Actual) : (s.allocateFor a depth).2.Shallow depth := by
  intro c b hb
  rw [listed_allocateFor] at hb
  split at hb
  · obtain rfl := List.mem_singleton.mp hb
    exact Nat.le_refl _
  · exact h c b hb

theorem Shallow.bindOrCheck (h : s.Shallow depth) {c : Nat} {v : Value} (hbind : s.bindOrCheck c v = (.ok true, t)) :
    t.Shallow depth := by
  rcases bindOrCheck_ok hbind with rfl | ⟨-, -, rfl⟩
  · exact h
  · intro i a ha
    rw [listed_bind] at ha
    exact h i a ha

theorem Shallow.unify (h : s.Shallow depth) {a b : Nat} (hla : a < s.cells.size) (hlb : b < s.cells.size)
    (hunify : s.unify a b = (.ok true, t)) : t.Shallow depth := by
  rcases unify_ok hla hlb hunify with ⟨rfl, -⟩ | ⟨older, younger, ty, hm⟩
  · exact h
  · intro i x hx
    rw [hm.listed_eq] at hx
    by_cases ho : i = older
    · rw [if_pos ho] at hx
      rcases Alias.mem_of_mem_join hx with hx | hx
      · exact h older x hx
      · exact h younger x hx
    · rw [if_neg ho] at hx
      split at hx
      · cases hx
      · exact h i x hx

theorem Shallow.compressAll (h : s.Shallow depth) (slots : List Slot) :
    (slots.foldl (fun s slot => s.compress slot.cell) s).Shallow depth := by
  intro c a ha
  rw [listed_compressAll] at ha
  exact h c a ha

theorem shallow_closeScope (hs : s.Valid) {m : Mark} (hsize : m.cells ≤ s.cells.size) :
    (s.closeScope (depth + 1) m).Shallow depth := by
  intro c a ha
  by_cases hc : c < m.cells
  · rw [listed_closeScope hs.wide (depth + 1) hc] at ha
    exact Nat.le_of_lt_succ (of_decide_eq_true (List.mem_filter.mp ha).2)
  · rw [listed_of_ge] at ha
    · cases ha
    · rw [size_closeScope (depth + 1) hsize]
      exact Nat.le_of_not_lt hc

end Store

namespace Env

/-- No alias stands deeper than the innermost scope. -/
def Shallow (e : Env) : Prop := e.store.Shallow e.depth

theorem Edit.shallow {e e' : Env} (h : e.Edit e') (hb : e.Bounded) (hs : e.Shallow) : e'.Shallow := by
  cases h with
  | numbered => exact hs
  | allocated a => exact Store.Shallow.allocateFor hs a
  | added a => exact Store.Shallow.allocateFor hs a
  | bound hslot hbind => exact Store.Shallow.bindOrCheck hs hbind
  | unified ht hsource hu => exact Store.Shallow.unify hs (hb _ ht) (hb _ hsource) hu
  | redirected => exact Store.Shallow.compressAll hs e.scope.slots

theorem Edits.shallow {e e' : Env} (h : e.Edits e') (hb : e.Bounded) (hs : e.Shallow) : e'.Shallow := by
  induction h with
  | refl => exact hs
  | tail hpre hedit ih => exact hedit.shallow ((Edits.inside hpre hb).bounded hb) ih

theorem dropScope_shallow {e : Env} (hs : e.Sound) {outer : Scope} {rest : List Scope}
    (henc : e.enclosing = outer :: rest) : (e.dropScope outer rest).Shallow := by
  have hdepth : e.depth = rest.length + 1 := by
    rw [depth, henc]
    rfl
  unfold Shallow dropScope
  rw [hdepth]
  exact Store.shallow_closeScope hs.valid hs.held.2.1

theorem seat_shallow (actuals : List Actual) {placed : List Slot × Store} (h : placed.2.Shallow 0) :
    (actuals.foldl seat placed).2.Shallow 0 := by
  induction actuals generalizing placed with
  | nil => exact h
  | cons a rest ih =>
      apply ih
      unfold seat
      split
      · exact h
      · exact h.allocateFor a

theorem ofQuery_shallow {formals : List Formal} {actuals : List Actual} {e : Env}
    (h : ofQuery formals actuals = .ok e) : e.Shallow := by
  unfold ofQuery at h
  split at h
  · cases h
    apply seat_shallow
    intro c a ha
    rw [Store.listed_of_ge (Nat.zero_le c)] at ha
    cases ha
  · cases h

end Env

theorem Goal.closeScope_runs {e e' : Env} (h : e.closeScope = .ok e') (w : World σ) :
    ((.closeScope : Goal σ).step e).Runs (.next e') := by
  refine ⟨w, w.record (.event (.closed e.depth)), ?_⟩
  simp only [Goal.step, Env.leave, Engine.run_bind, Engine.run_lift, h]
  rfl

namespace Resolvent

theorem Move.shallow {r r' : Resolvent σ} (h : r.Move r') (hs : r.env.Sound) (hshallow : r.env.Shallow) :
    r'.env.Shallow := by
  cases h with
  | edits hedits _ => exact hedits.shallow hs.bounded hshallow
  | calls _ hedits _ _ => exact hedits.shallow hs.bounded hshallow
  | opens arguments _ henv _ =>
      rw [henv]
      exact Store.Shallow.mono hshallow (Nat.le_succ _)
  | closes hclose _ =>
      obtain ⟨outer, rest, henc, heq⟩ := Env.closeScope_eq_ok.mp hclose
      rw [heq]
      exact Store.Shallow.compressAll (Env.dropScope_shallow hs henc) _

theorem Trail.shallow {r r' : Resolvent σ} (h : r.Trail r') (hr : r.Shaped) (hs : r.env.Shallow) : r'.env.Shallow := by
  induction h with
  | refl => exact hs
  | tail hpre hstep ih =>
      have hshaped := Trail.shaped hpre hr
      exact (hstep.move hshaped.sound.bounded).shallow hshaped.sound ih

theorem Starts.shallow {actuals : List Actual} {c : Clause σ} {r : Resolvent σ} (h : Starts actuals c r) :
    r.env.Shallow := by
  obtain ⟨e, he, hr⟩ := h.2.2.of_bind
  obtain ⟨body, -, hr⟩ := hr.of_bind
  cases hr.of_pure
  have hshallow : e.Shallow := Env.ofQuery_shallow he.of_lift
  exact hshallow

end Resolvent
namespace Env

variable {F e e' : Env} {V : Nat → Prop} {inner : List Scope}

/-- The environment of a call as it is while the callee's scope is open. Inside that there are these scopes and
the innermost one. None of them has a slot outside the region, and the store was not written to there. -/
structure Confined (F : Env) (V : Nat → Prop) (inner : List Scope) (e : Env) : Prop where
  enclosing_eq : e.enclosing = inner ++ F.scope :: F.enclosing
  spares : F.store.Spares V F.depth e.store
  marks : ∃ upper, (e.scope :: inner).map Scope.mark = upper ++ [F.store.mark] ∧
    ∀ m ∈ upper, F.store.cells.size ≤ m.cells ∧ F.store.narrowings.length ≤ m.narrowings
  slots : ∀ sc ∈ e.scope :: inner, ∀ slot ∈ sc.slots, V slot.cell

theorem Confined.depth_eq (h : F.Confined V inner e) : e.depth = inner.length + (F.depth + 1) := by
  rw [depth, h.enclosing_eq, List.length_append, List.length_cons]
  rfl

theorem Confined.depth_lt (h : F.Confined V inner e) : F.depth < e.depth := by
  have hdepth := h.depth_eq
  omega

/-- Where the callee's scope is the innermost one, it has the mark that was set when it was opened. -/
theorem Confined.innermost (h : F.Confined V inner e) (hdepth : e.depth = F.depth + 1) :
    inner = [] ∧ e.scope.mark = F.store.mark := by
  have hlen := h.depth_eq
  obtain rfl : inner = [] := List.length_eq_zero_iff.mp (by omega)
  obtain ⟨upper, hmarks, -⟩ := h.marks
  cases upper with
  | nil => exact ⟨rfl, (List.cons.inj hmarks).1⟩
  | cons m upper => exact absurd (congrArg List.length hmarks) (by simp)

theorem Confined.mark_le (h : F.Confined V inner e) :
    F.store.cells.size ≤ e.scope.mark.cells ∧ F.store.narrowings.length ≤ e.scope.mark.narrowings := by
  obtain ⟨upper, heq, hall⟩ := h.marks
  cases upper with
  | nil =>
      obtain ⟨hmark, -⟩ := List.cons.inj heq
      rw [hmark]
      exact ⟨Nat.le_refl _, Nat.le_refl _⟩
  | cons m upper =>
      obtain ⟨hmark, -⟩ := List.cons.inj heq
      rw [hmark]
      exact hall m List.mem_cons_self

theorem Confined.of_edit (h : F.Confined V inner e) (hedit : e.Edit e') (hspares : F.store.Spares V F.depth e'.store)
    (hslots : ∀ slot ∈ e'.scope.slots, V slot.cell) : F.Confined V inner e' where
  enclosing_eq := hedit.enclosing_eq.trans h.enclosing_eq
  spares := hspares
  marks := by
    obtain ⟨upper, heq, hall⟩ := h.marks
    refine ⟨upper, ?_, hall⟩
    rw [List.map_cons, hedit.mark_eq, ← List.map_cons]
    exact heq
  slots := fun sc hsc => by
    rcases List.mem_cons.mp hsc with rfl | hsc
    · exact hslots
    · exact h.slots sc (List.mem_cons_of_mem _ hsc)

theorem Confined.edit (h : F.Confined V inner e) (hV : F.store.Region V) (hb : e.Bounded) (hedit : e.Edit e') :
    F.Confined V inner e' := by
  have hmine := h.slots e.scope List.mem_cons_self
  cases hedit with
  | numbered => exact h.of_edit (.numbered e) h.spares hmine
  | allocated a => exact h.of_edit (.allocated e a) (h.spares.allocateFor hV a h.depth_lt) hmine
  | added a =>
      apply h.of_edit (.added e a) (h.spares.allocateFor hV a h.depth_lt)
      intro slot hslot
      rcases mem_slots_addLocal.mp hslot with hslot | rfl
      · exact hmine slot hslot
      · exact hV.new _ h.spares.size_le
  | bound hslot hbind => exact h.of_edit (.bound hslot hbind) (h.spares.bindOrCheck (hmine _ hslot) hbind) hmine
  | unified ht hs hu =>
      exact h.of_edit (.unified ht hs hu) (h.spares.unify (hmine _ ht) (hmine _ hs) (hb _ ht) (hb _ hs) hu) hmine
  | redirected =>
      apply h.of_edit (.redirected e) (h.spares.compressAll hmine)
      intro slot hslot
      rw [slots_redirect] at hslot
      obtain ⟨old, hold, rfl⟩ := List.mem_map.mp hslot
      exact h.spares.closed _ (hmine old hold)

theorem Confined.edits (h : F.Confined V inner e) (hV : F.store.Region V) (hb : e.Bounded) (hedits : e.Edits e') :
    F.Confined V inner e' := by
  induction hedits with
  | refl => exact h
  | tail hpre hedit ih => exact ih.edit hV ((Edits.inside hpre hb).bounded hb) hedit

theorem Confined.opened (h : F.Confined V inner e) {arguments : List (Formal × Slot)}
    (ha : ∀ a ∈ arguments, V a.2.cell) : F.Confined V (e.scope :: inner) (e.openScope arguments) where
  enclosing_eq := congrArg (List.cons e.scope) h.enclosing_eq
  spares := h.spares
  marks := by
    obtain ⟨upper, heq, hall⟩ := h.marks
    refine ⟨e.store.mark :: upper, congrArg (List.cons e.store.mark) heq, fun m hm => ?_⟩
    rcases List.mem_cons.mp hm with rfl | hm
    · obtain ⟨recent, hlog, -⟩ := h.spares.log
      refine ⟨h.spares.size_le, ?_⟩
      change F.store.narrowings.length ≤ e.store.narrowings.length
      rw [hlog, List.length_append]
      exact Nat.le_add_left _ _
    · exact hall m hm
  slots := fun sc hsc => by
    rcases List.mem_cons.mp hsc with rfl | hsc
    · intro slot hslot
      obtain ⟨a, hpair, rfl⟩ := mem_slots_openScope.mp hslot
      exact ha a hpair
    · exact h.slots sc hsc

/-- The store after the innermost scope has been dropped was not written to outside the region either. -/
theorem Confined.dropped (h : F.Confined V inner e) (hV : F.store.Region V) (hF : F.Shallow) (hs : e.Sound)
    (outer : Scope) (rest : List Scope) : F.store.Spares V F.depth (e.dropScope outer rest).store :=
  h.spares.closeScope hV hF hs.valid h.mark_le.1 hs.held.2.1 h.mark_le.2 h.depth_lt

theorem Confined.closed {i : Scope} (h : F.Confined V (i :: inner) e) (hV : F.store.Region V) (hF : F.Shallow)
    (hs : e.Sound) (hclose : e.closeScope = .ok e') : F.Confined V inner e' := by
  obtain ⟨outer, rest, henc, rfl⟩ := closeScope_eq_ok.mp hclose
  have hstack := h.enclosing_eq
  rw [henc] at hstack
  obtain ⟨rfl, rfl⟩ := List.cons.inj hstack
  have hdropped : F.Confined V inner (e.dropScope outer (inner ++ F.scope :: F.enclosing)) := by
    refine ⟨rfl, h.dropped hV hF hs _ _, ?_, fun sc hsc => h.slots sc (List.mem_cons_of_mem _ hsc)⟩
    obtain ⟨upper, heq, hall⟩ := h.marks
    cases upper with
    | nil => cases (List.cons.inj heq).2
    | cons m upper =>
        exact ⟨upper, (List.cons.inj heq).2, fun m' hm => hall m' (List.mem_cons_of_mem m hm)⟩
  exact hdropped.edit hV (hs.dropScope henc).bounded (.redirected _)

end Env
namespace Resolvent

variable {F : Env} {V : Nat → Prop} {r r' : Resolvent σ}

/-- The callee's scope is open, and what a scope is going to be opened with lies in the region. -/
structure Confined (F : Env) (V : Nat → Prop) (r : Resolvent σ) : Prop where
  env : ∃ inner, F.Confined V inner r.env
  passes : ∀ arguments, .openScope arguments ∈ r.agenda.toList → ∀ a ∈ arguments, V a.2.cell

/-- A step that does not close the callee's scope keeps to the region. -/
theorem Move.confined (h : r.Move r') (hr : Confined F V r) (hV : F.store.Region V) (hF : F.Shallow)
    (hs : r.env.Sound) (hdepth : F.depth < r'.env.depth) : Confined F V r' := by
  obtain ⟨inner, henv⟩ := hr.env
  cases h with
  | edits hedits hgoals =>
      exact ⟨⟨inner, henv.edits hV hs.bounded hedits⟩, fun as hmem => hr.passes as (hgoals _ hmem)⟩
  | calls arguments hedits hpasses hgoals =>
      have henv' := henv.edits hV hs.bounded hedits
      refine ⟨⟨inner, henv'⟩, fun as hmem a ha => ?_⟩
      rcases hgoals _ hmem with heq | hauth | heq | hold
      · obtain rfl := Goal.openScope.inj heq
        rcases hpasses a ha with hslot | hnew
        · exact henv'.slots _ List.mem_cons_self _ hslot
        · exact hV.new _ (Nat.le_trans henv.spares.size_le hnew)
      · exact absurd hauth id
      · cases heq
      · exact hr.passes as hold a ha
  | opens arguments hmem heq hgoals =>
      refine ⟨⟨r.env.scope :: inner, ?_⟩, fun as hmem' => hr.passes as (hgoals _ hmem')⟩
      rw [heq]
      exact henv.opened (hr.passes arguments hmem)
  | closes hclose hgoals =>
      refine ⟨?_, fun as hmem => hr.passes as (hgoals _ hmem)⟩
      cases inner with
      | nil =>
          have hgone := closeScope_depth hclose
          rw [Env.depth, henv.enclosing_eq] at hgone
          have hsame : F.depth + 1 = r'.env.depth + 1 := hgone
          omega
      | cons i inner => exact ⟨inner, henv.closed hV hF hs hclose⟩

theorem Within.confined {b : Resolvent σ} (h : Within (F.depth + 1) b r) (hb : b.Shaped) (hconf : Confined F V b)
    (hV : F.store.Region V) (hF : F.Shallow) : Confined F V r := by
  induction h with
  | refl => exact hconf
  | tail hpre hstep ih =>
      have hshaped := Trail.shaped (Within.trail hpre) hb
      exact (hstep.1.move hshaped.sound.bounded).confined ih hV hF hshaped.sound hstep.2

end Resolvent

namespace Call

variable {stopped : Call σ} {callee : Clause σ} {G : Env}

/-- The call has been answered by the clause: its scope was opened, and has just been closed again. -/
def Returns (stopped : Call σ) (callee : Clause σ) (G : Env) : Prop :=
  ∃ r r₁ r₂ r₃ : Resolvent σ, (stopped.resume callee).Runs r ∧ r.Step r₁ ∧
    Resolvent.Within (stopped.env.depth + 1) r₁ r₂ ∧ r₂.Step r₃ ∧ r₃.env.depth = stopped.env.depth ∧ r₃.env = G

/-- A cell of the caller that shares its class with an argument. -/
def Reaches (stopped : Call σ) (c : Nat) : Prop :=
  ∃ slot ∈ stopped.arguments, stopped.env.store.find slot.cell = stopped.env.store.find c

def region (stopped : Call σ) (c : Nat) : Prop := stopped.env.store.cells.size ≤ c ∨ stopped.Reaches c

theorem region_spec (stopped : Call σ) : stopped.env.store.Region stopped.region where
  new := fun _ hc => .inl hc
  class_mem := fun c d hcd hc => by
    rcases hc with hc | ⟨slot, hslot, hfind⟩
    · left
      rw [Store.find_of_ge hc] at hcd
      rw [hcd] at hc
      exact Nat.le_trans hc (stopped.env.store.find_le d)
    · exact .inr ⟨slot, hslot, hfind.trans hcd⟩

/-- The environment of a call that a branch stops at is sound, no alias in it stands deeper than its innermost scope,
and what it passes denotes cells. -/
theorem reached_sound {actuals : List Actual} (hreached : Pending.Reached actuals (.call stopped)) :
    stopped.env.Sound ∧ stopped.env.Shallow ∧ ∀ slot ∈ stopped.arguments, slot.cell < stopped.env.store.cells.size := by
  obtain ⟨c, r₀, e, a, g, hstart, htrail, hnext, hcall⟩ := hreached
  have hcaller := htrail.shaped hstart.shaped
  obtain ⟨-, hquiet, hslots⟩ := Goal.step_call hcaller.sound.bounded hcall
  have hedits := (Goal.step_passes hcaller.sound.bounded hcall).1
  have hshallow := hedits.shallow hcaller.sound.bounded (htrail.shallow hstart.shaped hstart.shallow)
  exact ⟨hquiet.sound hcaller.sound, hshallow, hslots⟩

/-- When the callee's clause is entered, its scope has the arguments for slots and nothing else has changed. -/
theorem entered {actuals : List Actual} (hreached : Pending.Reached actuals (.call stopped)) (hauth : callee.Authored)
    {r r₁ : Resolvent σ} (hresume : (stopped.resume callee).Runs r) (hstep : r.Step r₁) :
    stopped.env.Shallow ∧ r₁.Shaped ∧ Resolvent.Confined stopped.env stopped.region r₁ := by
  obtain ⟨-, hshallow, -⟩ := reached_sound hreached
  obtain ⟨c, r₀, e, a, g, hstart, htrail, hnext, hcall⟩ := hreached
  have hcaller := htrail.shaped hstart.shaped
  have hr := (hcaller.call hnext hcall hauth hresume).1
  refine ⟨hshallow, (hstep.shaped hr).1, ?_⟩
  obtain ⟨henv, body, hbody, hagenda⟩ := Resolvent.resume_runs hresume
  have hnone : NoEntry (body ++ .closeScope :: stopped.rest.toList) := by
    rcases hr.balanced with ⟨hset, -⟩ | ⟨arguments, rest, heq, hset, -⟩
    · rw [hagenda] at hset
      exact absurd rfl (hset _ List.mem_cons_self _)
    · rw [hagenda] at heq
      exact (List.cons.inj heq).2 ▸ hset
  cases hstep with
  | @goal e' e'' a' rest g' hnext' hstep' =>
      rw [Agenda.toList_of_next? hnext'] at hagenda
      obtain ⟨rfl, hgoals⟩ := List.cons.inj hagenda
      have hopen : e'' = e'.openScope (callee.formals.zip stopped.arguments) :=
        Goal.step_next hr.sound.bounded hstep'
      refine ⟨⟨[], ?_⟩, fun arguments hmem => absurd rfl (hnone _ (hgoals ▸ hmem) arguments)⟩
      have henv' : e' = stopped.env.nextSerial.2 := henv
      rw [hopen, henv']
      refine ⟨rfl, stopped.region_spec.spares _, ⟨[], rfl, fun _ h => absurd h List.not_mem_nil⟩, ?_⟩
      intro sc hsc slot hslot
      obtain rfl := List.mem_singleton.mp hsc
      obtain ⟨pair, hpair, rfl⟩ := Env.mem_slots_openScope.mp hslot
      exact .inr ⟨pair.2, (List.of_mem_zip hpair).2, rfl⟩
  | @call e' e'' a' rest g' name slots nested r' hnext' hstep' _ _ _ =>
      rw [Agenda.toList_of_next? hnext'] at hagenda
      obtain ⟨⟨terms, rfl⟩, -⟩ := Goal.step_call hr.sound.bounded hstep'
      cases (List.cons.inj hagenda).1

/-- When the callee's scope has been closed, the caller's scopes are back, and its store was written to in the
region alone. -/
theorem returned {actuals : List Actual} (hreached : Pending.Reached actuals (.call stopped)) (hauth : callee.Authored)
    (h : stopped.Returns callee G) : G.enclosing = stopped.env.enclosing ∧
      G.scope = { stopped.env.scope with
        arguments := moveAll G.store.find stopped.env.scope.arguments
        locals := stopped.env.scope.locals.map (Slot.move G.store.find) } ∧
      G.store.cells.size = stopped.env.store.cells.size ∧
        ∃ s, s.Alike G.store ∧ (∀ c, G.store.entries c = s.entries c) ∧ s.Shallow stopped.env.depth ∧
          stopped.env.store.Spares stopped.region stopped.env.depth s := by
  obtain ⟨r, r₁, r₂, r₃, hresume, hopen, hwithin, hclose, hdepth, rfl⟩ := h
  obtain ⟨hshallow, hshaped, hconf⟩ := entered hreached hauth hresume hopen
  have hV := stopped.region_spec
  obtain ⟨inner, henv⟩ := (hwithin.confined hshaped hconf hV hshallow).env
  have hsound := (Resolvent.Trail.shaped (Resolvent.Within.trail hwithin) hshaped).sound
  have hclosed := (hclose.move hsound.bounded).closes_of_lt hsound.bounded (hdepth.trans_lt henv.depth_lt)
  obtain ⟨rfl, hmark⟩ := henv.innermost ((Resolvent.closeScope_depth hclosed).trans (congrArg Nat.succ hdepth))
  obtain ⟨outer, rest, henc, heq⟩ := Env.closeScope_eq_ok.mp hclosed
  rw [henv.enclosing_eq] at henc
  obtain ⟨rfl, rfl⟩ := List.cons.inj henc
  have halike := (r₂.env.dropScope stopped.env.scope stopped.env.enclosing).alike_redirect
  rw [heq]
  refine ⟨rfl, ?_, ?_, _, halike, fun c => ?_, Env.dropScope_shallow hsound henv.enclosing_eq,
    henv.dropped hV hshallow hsound _ _⟩
  · rw [show (r₂.env.dropScope stopped.env.scope stopped.env.enclosing).redirect.store.find = _ from
      funext halike.find_eq]
    rfl
  · rw [halike.size_eq]
    exact (Store.size_closeScope _ hsound.held.2.1).trans (congrArg Mark.cells hmark)
  · rw [Store.entries_eq, Store.entries_eq, halike.find_eq]
    exact Store.listed_compressAll _ _ _

/-- A callee can only touch what it was passed. When its scope has just been closed, all scopes have the slots that
they had at the call, the innermost ones redirected, and the store has as many cells. A cell that shares no class
with an argument has its representative, value, type and aliases. What has become equal shared classes with
arguments, and no alias has come up but those that were there. -/
theorem touches_only_arguments {actuals : List Actual} (hreached : Pending.Reached actuals (.call stopped))
    (hauth : callee.Authored) (h : stopped.Returns callee G) :
    (G.enclosing = stopped.env.enclosing ∧ G.scope = { stopped.env.scope with
      arguments := moveAll G.store.find stopped.env.scope.arguments
      locals := stopped.env.scope.locals.map (Slot.move G.store.find) }) ∧
    G.store.cells.size = stopped.env.store.cells.size ∧
    (∀ c < stopped.env.store.cells.size, ¬stopped.Reaches c →
      G.store.find c = stopped.env.store.find c ∧ G.store.value c = stopped.env.store.value c ∧
        G.store.ty c = stopped.env.store.ty c ∧ G.store.entries c = stopped.env.store.entries c) ∧
    (∀ x < stopped.env.store.cells.size, ∀ y < stopped.env.store.cells.size, G.store.find x = G.store.find y →
      stopped.env.store.find x = stopped.env.store.find y ∨ (stopped.Reaches x ∧ stopped.Reaches y)) ∧
    ∀ c, ∀ a ∈ G.store.entries c, ∃ d < stopped.env.store.cells.size,
      G.store.find d = G.store.find c ∧ a ∈ stopped.env.store.entries d := by
  obtain ⟨henc, hscope, hsize, s, halike, hentries, hshallow, hspares⟩ := returned hreached hauth h
  have hV := stopped.region_spec
  have hin : ∀ c < stopped.env.store.cells.size, stopped.region c → stopped.Reaches c :=
    fun c hc hr => hr.resolve_left (Nat.not_le_of_lt hc)
  refine ⟨⟨henc, hscope⟩, hsize, fun c hc hout => ?_, fun x hx y hy hxy => ?_, fun c a ha => ?_⟩
  · have hregion : ¬stopped.region c := fun hr => hout (hin c hc hr)
    obtain ⟨hfind, hvalue, hty, hlist⟩ := hspares.class_eq hV hregion
    exact ⟨(halike.find_eq c).trans hfind, (halike.value_eq c).trans hvalue, (halike.ty_eq c).trans hty,
      (hentries c).trans hlist⟩
  · rw [halike.find_eq, halike.find_eq] at hxy
    rcases hspares.find_eq hV hxy with hsame | ⟨hrx, hry⟩
    · exact .inl hsame
    · exact .inr ⟨hin x hx hrx, hin y hy hry⟩
  · rw [hentries] at ha
    obtain ⟨d, hd, hsame, hmem⟩ := hspares.aliases c a ha (hshallow _ a ha)
    refine ⟨d, hd, ?_, hmem⟩
    rw [halike.find_eq, halike.find_eq, hsame]

end Call
def setting : Clause Unit where
  name := "set"
  formals := [⟨0, "p", .any⟩]
  body := .fixed [.bind (.formal ⟨0, "p", .any⟩) (.literal (.int 5))]
  name_ne := by decide
  distinct := by decide

def passing : Clause Unit where
  name := "pass"
  formals := [⟨1, "x", .any⟩, ⟨2, "y", .any⟩]
  body := .fixed [.call "set" [.param (.formal ⟨1, "x", .any⟩)]]
  name_ne := by decide
  distinct := by decide

def passed : List Actual := [.output (.shared 0) none .any none, .output (.shared 1) none .any none]

def Step.next? : Step → Option Env
  | .next e => some e
  | .failed | .call _ _ _ => none

theorem Goal.runs_of_next? {g : Goal σ} {e e' : Env} {w : World σ}
    (h : (ExceptT.run (g.step e) w).1.toOption.bind Step.next? = some e') : (g.step e).Runs (.next e') := by
  obtain ⟨s, hs, hnext⟩ := Option.bind_eq_some_iff.mp h
  cases s with
  | next e =>
      cases hnext
      exact .of_toOption hs
  | failed => cases hnext
  | call name slots e => cases hnext

theorem passing_stops : ∃ stopped : Call Unit, Pending.Reached passed (.call stopped) ∧
    stopped.env.store.cells.size = 2 ∧ ¬stopped.Reaches 1 ∧
      ∃ r r₁ g rest, (stopped.resume setting).Runs r ∧ r.Step r₁ ∧
        r₁.env.enclosing = stopped.env.scope :: stopped.env.enclosing ∧ r₁.agenda.next? = some (g, rest) ∧
          g.Authored ∧ rest.toList = [.closeScope] ∧
            ((ExceptT.run (g.step r₁.env) (World.start ())).1.toOption.bind Step.next?).isSome := by
  have hauth : passing.Authored := Clause.authored_of_fixed rfl (by simp [Goal.Authored])
  refine ⟨⟨_, _, _, _⟩, ⟨passing, _, _, _, _, ⟨hauth, by decide, ⟨World.start (), _, rfl⟩⟩, .refl, rfl,
    ⟨World.start (), _, rfl⟩⟩, rfl, ?_, _, _, _, _, ⟨World.start (), _, rfl⟩, .goal rfl ⟨World.start (), _, rfl⟩,
    rfl, rfl, trivial, rfl, ?_⟩
  · unfold Call.Reaches
    decide +kernel
  · decide +kernel

theorem setting_spares_the_second_cell : ∃ (stopped : Call Unit) (G : Env), stopped.Returns setting G ∧
    G.store.cells.size = 2 ∧ G.store.value 1 = stopped.env.store.value 1 := by
  obtain ⟨stopped, hreached, hsize, hout, r, r₁, g, rest, hresume, hopen, henc, hnext, hauthored, hrest, hleads⟩ :=
    passing_stops
  have hauth : setting.Authored := Clause.authored_of_fixed rfl (by simp [Goal.Authored])
  obtain ⟨-, hshaped, -⟩ := Call.entered hreached hauth hresume hopen
  obtain ⟨e₂, hnext₂⟩ := Option.isSome_iff_exists.mp hleads
  have hbind : (g.step r₁.env).Runs (.next e₂) := Goal.runs_of_next? hnext₂
  have hinside := (Goal.step_edits hbind hauthored).inside hshaped.sound.bounded
  have henc₂ := hinside.enclosing_eq.trans henc
  have hdepth : stopped.env.depth + 1 ≤ e₂.depth := by
    rw [Env.depth, Env.depth, henc₂]
    exact Nat.le_refl _
  obtain ⟨last, hlast, -⟩ := Agenda.next?_of_cons hrest
  have hclose := Env.closeScope_eq_ok.mpr ⟨_, _, henc₂, rfl⟩
  have hreturns : stopped.Returns setting _ :=
    ⟨r, r₁, ⟨e₂, rest⟩, ⟨_, last⟩, hresume, hopen, .single ⟨.goal hnext hbind, hdepth⟩,
      .goal hlast (Goal.closeScope_runs hclose (World.start ())), rfl, rfl⟩
  obtain ⟨-, hcells, hkept, -⟩ := Call.touches_only_arguments hreached hauth hreturns
  refine ⟨stopped, _, hreturns, hcells.trans hsize, ?_⟩
  obtain ⟨-, hvalue, -⟩ := hkept 1 (by omega) hout
  exact hvalue

end Clausal
