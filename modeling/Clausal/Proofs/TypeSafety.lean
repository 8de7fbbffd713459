import Clausal.Proofs.TypedBranches

/-! Type safety. Main statement: a typed source and a typed query go wrong on types only where a callback raises the
error itself, or where a map's callback answers with a value that is not of the map's type. -/
namespace Clausal

variable {σ : Type} {T : Typing}

namespace Store

variable {s t : Store}

/-- All cells of a class have one type. -/
def OneType (s : Store) : Prop :=
  ∀ i j, i < s.cells.size → j < s.cells.size → s.find i = s.find j → s.own i = s.own j

theorem Uniform.oneType (h : s.Uniform) : s.OneType := by
  intro i j _ _ hij
  rw [← h.own_find i, hij, h.own_find]

theorem Uniform.ty_eq (h : s.Uniform) (c : Nat) : s.ty c = s.own c := h.own_find c

theorem Uniform.unify_never_fails (h : s.Uniform) (hs : s.Valid) {a b : Nat} (hsame : s.own a = s.own b)
    (ha : a < s.cells.size) (hb : b < s.cells.size) {err : Error} (hu : s.unify a b = (.error err, t)) : False := by
  have hmeet : (s.ty a).meet (s.ty b) = some (s.own a) := by
    rw [h.ty_eq, h.ty_eq, ← hsame]
    cases s.own a <;> rfl
  have hfits : ∀ v, s.value a = some v ∨ s.value b = some v → (s.own a).Accepts v.ty := by
    rintro v (hv | hv)
    · exact .inr (h.value_ty hs ha hv).symm
    · exact .inr (hsame.trans (h.value_ty hs hb hv).symm)
  by_cases hvalues : ∀ v w, s.value a = some v → s.value b = some w → v = w
  · obtain ⟨u, hok⟩ := unify_succeeds hvalues hmeet hfits
    rw [hok] at hu
    cases hu
  · push Not at hvalues
    obtain ⟨v, w, hv, hw, -⟩ := hvalues
    unfold Store.unify at hu
    split at hu
    · cases hu
    · rw [hv, hw] at hu
      cases hu

theorem Uniform.bindOrCheck_never_fails (h : s.Uniform) {c : Nat} {v : Value} (hty : s.own c = v.ty) {err : Error}
    (hbind : s.bindOrCheck c v = (.error err, t)) : False := by
  unfold Store.bindOrCheck bindValue at hbind
  cases hw : s.value c with
  | some w =>
      rw [hw] at hbind
      cases hbind
  | none =>
      have hacc : (s.ty c).Accepts v.ty := by
        rw [h.ty_eq]
        exact .inr hty
      simp only [hw, if_pos hacc] at hbind
      cases hbind

end Store

namespace Env

variable {e e' : Env}

theorem Typed.checkDeclared (h : e.Typed T) (hs : e.Sound) {r : Resolved} (hr : e.Denotes r) :
    e.checkDeclared r = .ok () := by
  unfold Env.checkDeclared
  cases hv : e.store.value r.slot.cell with
  | none => rfl
  | some v =>
      have hty : r.ty = v.ty := hr.own_eq.symm.trans (h.uniform.value_ty hs.valid hr.lt hv).symm
      exact if_pos (.inr hty)

theorem Typed.equate_never_fails (h : e.Typed T) (hs : e.Sound) {target source : Resolved} (ht : e.Denotes target)
    (hsource : e.Denotes source) (hty : target.ty = source.ty) {err : Error}
    (herr : e.equate target source = .error err) : False := by
  unfold equate at herr
  rcases hu : e.store.unify target.slot.cell source.slot.cell with ⟨r, s⟩
  rw [hu] at herr
  rcases r with err' | b
  · exact h.uniform.unify_never_fails hs.valid (by rw [ht.own_eq, hsource.own_eq, hty]) ht.lt hsource.lt hu
  cases b with
  | false => cases herr
  | true =>
      obtain ⟨h', hs', ht', hsource'⟩ := h.unify hs ht hsource hty hu
      simp only [h'.checkDeclared hs' ht', h'.checkDeclared hs' hsource'] at herr
      cases herr

theorem Typed.assign_never_fails (h : e.Typed T) (hs : e.Sound) {target : Resolved} (ht : e.Denotes target)
    {v : Value} (hty : target.ty = v.ty) {err : Error} (herr : e.assign target v = .error err) : False := by
  unfold assign at herr
  rcases hbind : e.store.bindOrCheck target.slot.cell v with ⟨r, s⟩
  rw [hbind] at herr
  rcases r with err' | b
  · exact h.uniform.bindOrCheck_never_fails (ht.own_eq.trans hty) hbind
  cases b with
  | false => cases herr
  | true =>
      obtain ⟨h', hs', ht'⟩ := h.bindOrCheck hs ht hbind
      simp only [h'.checkDeclared hs' ht'] at herr
      cases herr

theorem resolve_no_mismatch {p : Param} {x y : Ty} : e.resolve p ≠ .error (.typeMismatch x y) := by
  intro h
  unfold Env.resolve at h
  split at h <;> cases h

theorem read_no_mismatch {p : Param} {x y : Ty} : e.read p ≠ .error (.typeMismatch x y) := by
  intro h
  rcases Except.bind_eq_error h with h | ⟨⟨r, e₁⟩, -, h⟩
  · exact resolve_no_mismatch h
  · simp only at h
    cases hv : e₁.store.value r.slot.cell with
    | none =>
        rw [hv] at h
        cases h
    | some v =>
        rw [hv] at h
        cases h

end Env

namespace Term

/-- In this world the callback raises the mismatch, or answers with a value that is not of the map's type. -/
def Blames (t : Term σ) (e : Env) (w : World σ) (x y : Ty) : Prop :=
  ∃ ty act, t.callback? e = some (ty, act) ∧
    ((act w.host).result = .error (.error (.typeMismatch x y)) ∨
      ∃ v, (act w.host).result = .ok v ∧ ¬ty.Accepts v.ty ∧ x = ty ∧ y = v.ty)

end Term

/-- In this world the goal raises the mismatch through a callback: that of its term, that of an argument after the
ones before have been passed, or its own. -/
def Goal.Blames (e : Env) (w : World σ) (x y : Ty) : Goal σ → Prop
  | .bind p t => ∃ target e', e.resolve p = .ok (target, e') ∧ t.Blames e' w x y
  | .call _ arguments => ∃ before t after slots e' w', arguments = before ++ t :: after ∧
      ExceptT.run (e.passAll before) w = (.ok (slots, e'), w') ∧ t.Blames e' w' x y
  | .check f => (f e.view w.host).result = .error (.error (.typeMismatch x y))
  | .action f => (f e.view w.host).result = .error (.error (.typeMismatch x y))
  | .openScope _ | .closeScope => False

/-- The mismatch comes out of the source, a factory of its clauses, or a callback of a goal that a branch of the
query has come to. -/
def Source.Blames (src : Source σ) (actuals : List Actual) (x y : Ty) : Prop :=
  (∃ name cancelled host, (src.lookup name cancelled host).result = .error (.error (.typeMismatch x y))) ∨
    (∃ c make n host, src.Offers c ∧ c.body = .factory make ∧
      (make n host).result = .error (.error (.typeMismatch x y))) ∨
    ∃ r g rest w, src.Reaches actuals r ∧ r.agenda.next? = some (g, rest) ∧ g.Blames r.env w x y

section Blame

variable {e e' : Env} {w w' : World σ} {x y : Ty}

theorem Engine.lift_no_mismatch {α : Type} {r : Except Error α} (hr : r ≠ .error (.typeMismatch x y))
    (h : ExceptT.run (Engine.lift r : Engine σ α) w = (.error (.error (.typeMismatch x y)), w')) : False := by
  obtain ⟨err, herr, heq⟩ := Engine.lift_fails h
  cases heq
  exact hr herr

theorem Term.Fails.blames {t : Term σ} {f : Failure} (h : t.Fails e w f) (hf : f = .error (.typeMismatch x y)) :
    t.Blames e w x y := by
  cases h with
  | read h =>
      cases hf
      exact absurd h Env.read_no_mismatch
  | callback hcallback h =>
      cases hf
      exact ⟨_, _, hcallback, .inl h⟩
  | mistyped hcallback hv h =>
      cases hf
      unfold Ty.ensure at h
      split at h
      · cases h
      · rename_i hacc
        cases h
        exact ⟨_, _, hcallback, .inr ⟨_, hv, hacc, rfl, rfl⟩⟩

theorem Term.Typed.evaluate_ty {t : Term σ} (ht : t.Typed T) (hp : ∀ p, t ≠ .param p) {v : Value}
    (h : (t.evaluate e).Runs (v, e')) : t.ty = v.ty := by
  have hensure {ty : Ty} {u : Value} (hty : ty ≠ .any) (h : ty.ensure u = .ok v) : ty = v.ty := by
    unfold Ty.ensure at h
    split at h
    · rename_i hacc
      cases h
      exact hacc.eq_of_ne hty
    · cases h
  cases t with
  | constant ty u =>
      cases h.of_pure
      exact (Term.ty_of_constant? ht.2).eq_of_ne ht.1
  | param p => exact absurd rfl (hp p)
  | map ty s =>
      cases s with
      | scope f =>
          obtain ⟨u, -, h⟩ := h.of_bind
          obtain ⟨u', hu, h⟩ := h.of_bind
          cases h.of_pure
          exact hensure ht hu.of_lift
      | source p f =>
          obtain ⟨_, -, h⟩ := h.of_bind
          obtain ⟨u, -, h⟩ := h.of_bind
          obtain ⟨u', hu, h⟩ := h.of_bind
          cases h.of_pure
          exact hensure ht.1 hu.of_lift

theorem Term.Typed.pass_blames {t : Term σ} (ht : t.Typed T)
    (h : ExceptT.run (e.pass t) w = (.error (.error (.typeMismatch x y)), w')) : t.Blames e w x y := by
  have hvalue (hp : ∀ p, t ≠ .param p)
      (h : ExceptT.run (t.evaluate e >>= fun q => Engine.lift (q.2.addLiteral t.ty q.1)) w =
        (.error (.error (.typeMismatch x y)), w')) : t.Blames e w x y := by
    rcases Engine.bind_fails h with h | ⟨⟨v, e₁⟩, w₁, hv, h⟩
    · exact (Term.evaluate_fails h).blames rfl
    · obtain ⟨err, herr, -⟩ := Engine.lift_fails h
      have hty : t.ty = v.ty := ht.evaluate_ty hp ⟨_, _, hv⟩
      unfold Env.addLiteral Actual.input? at herr
      simp only [dif_pos (show t.ty.Accepts v.ty from .inr hty)] at herr
      cases herr
  cases t with
  | param p =>
      have hlift := Engine.first_fails (fun _ => Engine.neverFails_pure _) h
      exact (Engine.lift_no_mismatch Env.resolve_no_mismatch hlift).elim
  | constant ty v => exact hvalue (fun _ hp => by cases hp) h
  | map ty s => exact hvalue (fun _ hp => by cases hp) h

theorem Goal.Typed.bind_blames {p : Param} {t : Term σ} (hg : (Goal.bind p t).Typed T) (ht : e.Typed T)
    (hs : e.Sound) {f : Failure} (h : e.BindFails p t w f) (hf : f = .error (.typeMismatch x y)) :
    (Goal.bind p t).Blames e w x y := by
  cases h with
  | resolve h =>
      cases hf
      exact absurd h Env.resolve_no_mismatch
  | term hok h => exact ⟨_, _, hok, h.blames hf⟩
  | equate hok hparam hq h =>
      subst hparam
      obtain ⟨h₁, hs₁, htarget, hty⟩ := ht.resolve hs hg.1 hok
      obtain ⟨h₂, hs₂, hsource, hty₂⟩ := h₁.resolve hs₁ hg.2.1 hq
      have htarget₂ := h₁.denotes hs₁ (Env.resolve_adds hg.2.1 hq).1 htarget
      have hsame := (hty.trans hg.bind_ty_eq).trans hty₂.symm
      exact (h₂.equate_never_fails hs₂ htarget₂ hsource hsame h).elim
  | assign hok hne hv h =>
      obtain ⟨h₁, hs₁, htarget, hty⟩ := ht.resolve hs hg.1 hok
      have hadds := Env.evaluate_adds (Q := (· ≠ Ty.any)) hg.2.1.reads hv
      obtain ⟨h₂, hs₂, -⟩ := h₁.additions hs₁ hadds
      have hsame := (hty.trans hg.bind_ty_eq).trans (hg.2.1.evaluate_ty hne hv)
      exact (h₂.assign_never_fails hs₂ (h₁.denotes hs₁ hadds htarget) hsame h).elim

/-- A typed goal raises a mismatch through callbacks alone. -/
theorem Goal.TypedIn.blames {g : Goal σ} (hg : g.TypedIn T e) (ht : e.Typed T) (hs : e.Sound)
    (h : ExceptT.run (g.step e) w = (.error (.error (.typeMismatch x y)), w')) : g.Blames e w x y := by
  have hfails := Goal.step_fails h
  cases g with
  | bind p t => exact Goal.Typed.bind_blames hg ht hs (Env.solveBind_fails hfails) rfl
  | call name arguments =>
      obtain ⟨before, t, after, slots, e', w₁, rfl, hbefore, hpass⟩ := Env.passAll_fails hfails
      exact ⟨before, t, after, slots, e', w₁, rfl, hbefore, (hg t (by simp)).pass_blames hpass⟩
  | check f => exact hfails
  | action f => exact hfails
  | openScope arguments => exact hfails
  | closeScope =>
      obtain ⟨err, herr, heq⟩ := hfails
      cases heq
      unfold Env.closeScope at herr
      split at herr <;> cases herr

end Blame

/-- A slot of the query holds nothing but values of its parameter's type. -/
theorem Env.Typed.answer_ty {e : Env} (h : e.Typed T) (hs : e.Sound) {entry : Answer.Entry}
    (hentry : entry ∈ (Answer.ofEnv e).entries) {v : Value} (hv : entry.value = some v) :
    v.ty = entry.parameter.ty := by
  obtain ⟨slot, hslot, rfl⟩ := List.mem_map.mp hentry
  have houtermost : e.outermost ∈ e.scopes := by
    unfold Env.outermost
    cases hlast : e.enclosing.getLast? with
    | none => exact List.mem_cons_self
    | some sc => exact List.mem_cons_of_mem _ (List.mem_of_getLast? hlast)
  have hmem : slot ∈ e.outermost.slots := List.mem_append_left _ hslot
  have hlt := hs.held.slots_lt _ houtermost slot hmem
  exact (h.uniform.value_ty hs.valid hlt hv).trans (h.slots _ houtermost slot hmem).own_eq

/-- With a typed source and typed actuals, the cells of a class have one type wherever a branch stands or stops; a
goal raises a mismatch through callbacks alone, and so does the search; and what an answer binds is of the type of
its parameter. -/
theorem Search.typed_goes_wrong_in_callbacks {src : Source σ} (hsrc : src.Typed T) {actuals : List Actual}
    (hactuals : ∀ a ∈ actuals, (Param.actual a).Typed T) {name : String} {t : Token} {s s' : Search σ}
    (hstart : start src name actuals t = .ok s) {w w' : World σ} {items : List Item} (hcalls : Calls s w items s' w') :
    (∀ r, src.Reaches actuals r → r.env.store.OneType ∧
      (∀ stopped, r.StopsAt stopped → stopped.env.store.OneType) ∧
        ∀ g rest, r.agenda.next? = some (g, rest) → ∀ w₁ w₂ x y,
          ExceptT.run (g.step r.env) w₁ = (.error (.error (.typeMismatch x y)), w₂) → g.Blames r.env w₁ x y) ∧
    (∀ x y, .failed (.typeMismatch x y) ∈ items → src.Blames actuals x y) ∧
    ∀ a, .answer a ∈ items → ∀ entry ∈ a.entries, ∀ v, entry.value = some v → v.ty = entry.parameter.ty := by
  have hblames {r : Resolvent σ} (hr : src.Reaches actuals r) {g : Goal σ} {rest : Agenda σ}
      (hnext : r.agenda.next? = some (g, rest)) {w₁ w₂ : World σ} {x y : Ty}
      (hfails : ExceptT.run (g.step r.env) w₁ = (.error (.error (.typeMismatch x y)), w₂)) :
      g.Blames r.env w₁ x y := by
    obtain ⟨T', -, htyped, hshaped⟩ := hr.typed hsrc hactuals
    have hg := htyped.goals g (by rw [Agenda.toList_of_next? hnext]; exact List.mem_cons_self)
    exact hg.blames htyped.env hshaped.sound hfails
  have hitems := items_from hstart hcalls
  refine ⟨fun r hr => ?_, fun x y hmem => ?_, fun a hmem entry hentry v hv => ?_⟩
  · obtain ⟨T', -, htyped, hshaped⟩ := hr.typed hsrc hactuals
    refine ⟨htyped.env.uniform.oneType, fun stopped hstops => ?_, fun g rest hnext w₁ w₂ x y => hblames hr hnext⟩
    exact (htyped.stopsAt hshaped hstops).1.uniform.oneType
  · have hfails : src.Fails actuals (.error (.typeMismatch x y)) := hitems _ hmem
    cases hfails with
    | lookup h => exact .inl ⟨_, _, _, h⟩
    | factory hc hbody h => exact .inr (.inl ⟨_, _, _, _, hc, hbody, h⟩)
    | goal hr hnext h => exact .inr (.inr ⟨_, _, _, _, hr, hnext, hblames hr hnext h⟩)
  · obtain ⟨r, hr, -, rfl⟩ := hitems _ hmem
    obtain ⟨T', -, htyped, hshaped⟩ := hr.typed hsrc hactuals
    exact htyped.env.answer_ty hshaped.sound hentry hv

/-- A clause makes an actual of its own, gives it a value and calls another one. That one unifies its formals, or
maps one of them to a value of another type. -/
def mismapping : Database Unit where
  clauses :=
    [⟨"make", [⟨0, "x", .int⟩],
      .factory fun n => .answer (.ok
        [.bind (.actual (.output (.own n 0) none .int none)) (.literal (.int 5)),
          .call "fill" [.param (.formal ⟨0, "x", .int⟩), .param (.actual (.output (.own n 0) none .int none))]]),
      by decide, by decide⟩,
     ⟨"fill", [⟨1, "a", .int⟩, ⟨2, "b", .int⟩],
      .fixed [.bind (.formal ⟨1, "a", .int⟩) (.param (.formal ⟨2, "b", .int⟩))], by decide, by decide⟩,
     ⟨"fill", [⟨1, "a", .int⟩, ⟨2, "b", .int⟩],
      .fixed [.bind (.formal ⟨1, "a", .int⟩) (.map .int (.source (.formal ⟨2, "b", .int⟩)
        fun _ => .answer (.ok (.str "s"))))], by decide, by decide⟩]

def integers : Typing where
  formal _ := some .int
  actual
    | .shared 0 => some .int
    | _ => none
  formal_ne := fun _ h => nomatch h
  actual_ne := fun id h => by split at h <;> cases h

def mismapped : List Actual := [.output (.shared 0) none .int none]

theorem mismapping_typed : mismapping.source.Typed integers where
  shared := by
    intro id ty hty
    unfold integers at hty
    simp only at hty
    split at hty
    · exact ⟨0, rfl⟩
    · cases hty
  clauses := by
    have hnone : ∀ n index, integers.actual (.own n index) = none := fun _ _ => rfl
    intro c hc
    have hmem : c ∈ mismapping.clauses := Database.mem_of_offers hc
    rcases List.mem_cons.mp hmem with rfl | hmem
    · refine ⟨by simp [integers], fun n goals hruns => ⟨fun _ => ⟨.int, by decide⟩, ?_⟩⟩
      obtain ⟨host, hgoals⟩ := Engine.Runs.of_perform hruns
      cases hgoals
      simp [Goal.Typed, Term.Typed, Param.Typed, Typing.extend, integers, Term.literal, Actual.output, Goal.bind?,
        Term.constant?, Ty.ensure, Ty.Accepts, Param.ty, Term.ty, Value.ty]
    rcases List.mem_cons.mp hmem with rfl | hmem
    · refine Clause.typed_of_fixed hnone rfl (by simp [integers]) ?_
      simp [Goal.Typed, Term.Typed, Param.Typed, integers, Goal.bind?, Ty.Accepts, Param.ty, Term.ty]
    · obtain rfl := List.mem_singleton.mp hmem
      refine Clause.typed_of_fixed hnone rfl (by simp [integers]) ?_
      simp [Goal.Typed, Term.Typed, Param.Typed, integers, Goal.bind?, Ty.Accepts, Param.ty, Term.ty]

/-- The search yields the value, and then the mismatch that the map's callback is to blame for. -/
theorem mismapping_blames_the_map : ∃ s a s' w', Search.start mismapping.source "make" mismapped "t" = .ok s ∧
    Search.Calls s (World.start ()) [.answer a, .failed (.typeMismatch .int .str)] s' w' ∧
      mismapping.source.Blames mismapped .int .str ∧
        ∃ entry ∈ a.entries, entry.value = some (.int 5) ∧ entry.parameter.ty = .int := by
  have hitems : (match Search.next 10 ⟨mismapping.source, "make", "t", [.query "make" mismapped], none, false⟩
      (World.start ()) with
    | ((.answer a, s), w) => (a.entries[0]?.map Answer.Entry.value, match (Search.next 10 s w).1.1 with
      | .failed e => some e
      | _ => none)
    | _ => (none, none)) = (some (some (.int 5)), some (.typeMismatch .int .str)) := by decide +kernel
  split at hitems
  · rename_i a s₁ w₁ hfirst
    obtain ⟨hvalue, hsecond⟩ := Prod.mk.inj hitems
    obtain ⟨entry, hentry, hvalue⟩ := Option.map_eq_some_iff.mp hvalue
    split at hsecond
    · rename_i e hfailed
      cases hsecond
      have hcalls : Search.Calls _ (World.start ()) [.answer a, .failed (.typeMismatch .int .str)] _ _ :=
        .cons 10 hfirst (by simp) (.cons 10 (Prod.ext (Prod.ext hfailed rfl) rfl) (by simp) .nil)
      have hactuals : ∀ a ∈ mismapped, (Param.actual a).Typed integers := by
        simp [mismapped, Param.Typed, integers, Actual.output]
      have hstart : Search.start mismapping.source "make" mismapped "t" = .ok _ := rfl
      obtain ⟨-, hblames, hanswers⟩ := Search.typed_goes_wrong_in_callbacks mismapping_typed hactuals hstart hcalls
      have hmem := List.mem_of_getElem? hentry
      refine ⟨_, a, _, _, rfl, hcalls, hblames _ _ (by simp), entry, hmem, hvalue, ?_⟩
      exact (hanswers a (by simp) entry hmem _ hvalue).symm
    · cases hsecond
  · cases hitems

end Clausal
