import Clausal.Proofs.Answers

/-! Declared types while a clause's scope is open. A declared type is compared with a value when a
binding refers to the parameter, and never again. Main statement: at any time when the scope is the
innermost one, an argument fits its formal exactly if it did when the scope opened and no binding since
has given its class a value behind the formal's back. -/
namespace Clausal

variable {σ : Type}

namespace Resolvent

/-- The clause's scope is open, and none of its goals has run. -/
inductive Entered (actuals : List Actual) : Clause σ → Resolvent σ → Prop where
  | query {c : Clause σ} {r : Resolvent σ} : Starts actuals c r → Entered actuals c r
  | callee {caller callee : Clause σ} {r₀ r : Resolvent σ} {e e' e'' : Env} {a rest rest' : Agenda σ}
      {g g' : Goal σ} {name : String} {slots : List Slot} :
      Starts actuals caller r₀ → r₀.Trail ⟨e, a⟩ → a.next? = some (g, rest) →
        (g.step e).Runs (.call name slots e') → callee.Authored →
          callee.Matches (slots.map Slot.parameter) →
            ((⟨name, slots, e', rest⟩ : Call σ).resume callee).Runs r →
              r.agenda.next? = some (g', rest') → (g'.step r.env).Runs (.next e'') →
                Entered actuals callee ⟨e'', rest'⟩

/-- While the scope of `b` is open, a binding gives the class of a cell a value that the type does not
admit. Neither what the binding refers to in that class nor the class itself has a type that would have
ruled it out. -/
structure Leak (b r₁ r₂ r : Resolvent σ) (c : Nat) (ty : Ty) : Prop where
  before : Within b.env.depth b r₁
  step : r₁.Step r₂
  inside : b.env.depth ≤ r₂.env.depth
  after : Within b.env.depth r₂ r
  unbound : r₁.env.store.value c = none
  bound : ∃ v, r₂.env.store.value c = some v ∧ ¬ty.Accepts v.ty
  wide : ¬ty.Accepts (r₂.env.store.ty c)
  unchecked : ∃ p t rest, r₁.agenda.next? = some (.bind p t, rest) ∧
    ∀ q slot, q ∈ (Goal.bind p t).operands → r₁.env.scope.slot? q = some slot →
      r₂.env.store.find slot.cell = r₂.env.store.find c → ¬ty.Accepts q.ty

/-- A step leaves the value of a cell alone that the scope started with, or it is a binding. -/
theorem Step.value_eq_or_binds {b : Env} {r r' : Resolvent σ} (h : r.Step r') (hr : r.Shaped)
    {inner : List Scope} {sc : Scope} (habove : b.Above inner sc r.env) (hdepth : b.depth ≤ r'.env.depth)
    {c : Nat} (hc : c < b.store.cells.size) :
    r'.env.store.value c = r.env.store.value c ∨ ∃ p t rest, r.agenda.next? = some (.bind p t, rest) ∧
      ((Goal.bind p t).step r.env).Runs (.next r'.env) := by
  have hlt : c < r.env.store.cells.size := Nat.lt_of_lt_of_le hc habove.size_le
  cases h with
  | @goal e e' a rest g hn hstep =>
      have hnext := Goal.step_next hr.sound.bounded hstep
      cases g with
      | bind p t => exact .inr ⟨p, t, rest, hn, hstep⟩
      | call name arguments => exact .inl (hnext.values c hlt)
      | check f => exact .inl (hnext.values c hlt)
      | action f => exact .inl (hnext.values c hlt)
      | openScope arguments =>
          left
          have hopen : e' = e.openScope arguments := hnext
          subst hopen
          rfl
      | closeScope => exact .inl (habove.value_closed hr.sound hnext hdepth hc)
  | @call e e' a rest g name slots callee _ hn hstep hauth _ hresume =>
      left
      obtain ⟨-, hquiet, -⟩ := Goal.step_call hr.sound.bounded hstep
      obtain ⟨henv, -⟩ := resume_runs hresume
      rw [henv]
      exact hquiet.values c hlt

theorem Within.value {b r₁ r : Resolvent σ} (hb : b.Shaped) (h₁ : Within b.env.depth b r₁)
    (h : Within b.env.depth r₁ r) {c : Nat} (hc : c < b.env.store.cells.size) {v : Value}
    (hv : r₁.env.store.value c = some v) : r.env.store.value c = some v := by
  induction h with
  | refl => exact hv
  | @tail r r' hpre hstep ih =>
      have hwithin : Within b.env.depth b r := Relation.ReflTransGen.trans h₁ hpre
      have hr := (Within.trail hwithin).shaped hb
      obtain ⟨inner, sc, habove⟩ := hwithin.above hb rfl
      obtain ⟨-, hchange⟩ := hstep.1.shaped hr
      exact habove.value_change hr.sound hchange hstep.2 hc ih

theorem leak_of_misfit {b r₁ r₂ r : Resolvent σ} (hb : b.Shaped) (hbefore : Within b.env.depth b r₁)
    (hstep : r₁.Step r₂) (hdepth : b.env.depth ≤ r₂.env.depth) (hafter : Within b.env.depth r₂ r) {c : Nat}
    (hc : c < b.env.store.cells.size) (hnone : r₁.env.store.value c = none) {v : Value}
    (hv : r₂.env.store.value c = some v) {ty : Ty} (hmisfit : ¬ty.Accepts v.ty) : Leak b r₁ r₂ r c ty := by
  have hr₁ := (Within.trail hbefore).shaped hb
  obtain ⟨hr₂, -⟩ := hstep.shaped hr₁
  obtain ⟨inner, sc, habove⟩ := hbefore.above hb rfl
  refine ⟨hbefore, hstep, hdepth, hafter, hnone, ⟨v, hv, hmisfit⟩, ?_, ?_⟩
  · intro hacc
    exact hmisfit (hacc.trans (hr₂.sound.valid.value_fits hv))
  · rcases hstep.value_eq_or_binds hr₁ habove hdepth hc with heq | ⟨p, t, rest, hnext, hruns⟩
    · rw [hv, hnone] at heq
      cases heq
    · refine ⟨p, t, rest, hnext, fun q slot hq hslot hsame hacc => ?_⟩
      have hfits := Goal.step_vouches hr₁.sound.bounded hruns hq hslot
      have hvalue : r₂.env.store.value slot.cell = some v := by
        rw [Store.value_eq, hsame, ← Store.value_eq, hv]
      exact hmisfit (hacc.trans (hfits v hvalue))

/-- Within a scope, what the class of a cell holds is of a type exactly if it was when the scope opened
and no binding has leaked. -/
theorem holds_iff_no_leak {b r : Resolvent σ} (hb : b.Shaped) (hwithin : Within b.env.depth b r) {c : Nat}
    (hc : c < b.env.store.cells.size) (ty : Ty) :
    (∀ v, r.env.store.value c = some v → ty.Accepts v.ty) ↔
      (∀ v, b.env.store.value c = some v → ty.Accepts v.ty) ∧ ¬∃ r₁ r₂, Leak b r₁ r₂ r c ty := by
  constructor
  · intro hend
    refine ⟨fun v hv => hend v (Within.value hb .refl hwithin hc hv), ?_⟩
    rintro ⟨r₁, r₂, hleak⟩
    obtain ⟨v, hv, hmisfit⟩ := hleak.bound
    have hbefore : Within b.env.depth b r₂ := hleak.before.tail ⟨hleak.step, hleak.inside⟩
    exact hmisfit (hend v (Within.value hb hbefore hleak.after hc hv))
  · rintro ⟨hstart, hnoleak⟩
    have hall : ∀ r', Within b.env.depth b r' → Within b.env.depth r' r →
        ∀ v, r'.env.store.value c = some v → ty.Accepts v.ty := by
      intro r' hbefore
      induction hbefore with
      | refl => exact fun _ => hstart
      | @tail r₁ r₂ hbefore hstep ih =>
          intro hafter v hv
          have hrest : Within b.env.depth r₁ r := .head hstep hafter
          cases hv₁ : r₁.env.store.value c with
          | some w =>
              have hkept := Within.value hb hbefore (.single hstep) hc hv₁
              rw [hv] at hkept
              cases hkept
              exact ih hrest v hv₁
          | none =>
              by_contra hmisfit
              exact hnoleak ⟨r₁, r₂, leak_of_misfit hb hbefore hstep.1 hstep.2 hafter hc hv₁ hv hmisfit⟩
    exact hall r hwithin .refl

variable {actuals : List Actual} {c : Clause σ}

theorem Entered.opened {b : Resolvent σ} (h : Entered actuals c b) :
    b.Shaped ∧ b.env.scope.arguments.map Prod.fst = c.formals := by
  cases h with
  | query hstart =>
      obtain ⟨slots, n, body, hseated, hlen, hscope, -⟩ := ofQuery_runs hstart.2.2
      refine ⟨hstart.shaped, ?_⟩
      rw [hscope]
      apply List.map_fst_zip
      rw [hlen, ← hseated.parameters, List.length_map]
  | @callee caller c r₀ r e e' e'' a rest rest' g g' name slots hstart htrail hn hstep hauth hmatch hresume hn'
      hstep' =>
      have hr : r₀.Trail r := htrail.tail (.call hn hstep hauth hmatch hresume)
      have hshaped := Trail.shaped hr hstart.shaped
      refine ⟨Trail.shaped (hr.tail (.goal hn' hstep')) hstart.shaped, ?_⟩
      obtain ⟨-, body, -, hagenda⟩ := resume_runs hresume
      rw [Agenda.toList_of_next? hn'] at hagenda
      obtain ⟨rfl, -⟩ := List.cons.inj hagenda
      have hopen : e'' = r.env.openScope (c.formals.zip slots) := Goal.step_next hshaped.sound.bounded hstep'
      rw [hopen]
      apply List.map_fst_zip
      rw [hmatch.1, List.length_map]

theorem Starts.fits {r : Resolvent σ} (h : Starts actuals c r)
    (hids : ∀ a ∈ actuals, ∀ a' ∈ actuals, a.id = a'.id → a = a') {f : Formal} {slot : Slot}
    (hmem : (f, slot) ∈ r.env.scope.arguments) : r.env.Fits ⟨slot, f.ty⟩ := by
  obtain ⟨slots, n, body, hseated, hlen, hscope, -⟩ := ofQuery_runs h.2.2
  rw [hscope] at hmem
  have hmatches : slot.parameter.Matches f := by
    have hzip : (f, slot.parameter) ∈ c.formals.zip actuals := by
      rw [← hseated.parameters, List.zip_map_right]
      exact List.mem_map.mpr ⟨(f, slot), hmem, rfl⟩
    exact h.2.1.2 _ hzip
  obtain ⟨first, hfirst, hid, -, -, hheld⟩ := hseated.shared slot (List.of_mem_zip hmem).2
  have hactual {s : Slot} (hs : s ∈ slots) : s.parameter ∈ actuals :=
    hseated.parameters ▸ List.mem_map_of_mem hs
  have hsame := hids _ (hactual hfirst) _ (hactual (List.of_mem_zip hmem).2) hid
  intro v hv
  have hvalue : slot.parameter.value = some v := by
    rw [← hsame, ← hheld, ← hseated.value_eq]
    exact hv
  unfold Actual.Matches at hmatches
  rw [hvalue] at hmatches
  exact hmatches.trans (slot.parameter.fits v hvalue)

theorem Starts.within {r₀ r : Resolvent σ} (h : Starts actuals c r₀) (htrail : r₀.Trail r)
    (hnil : r.agenda.toList = []) : Within r₀.env.depth r₀ r ∧ r.env.depth = r₀.env.depth := by
  have hdepth := (htrail.shaped h.shaped).depth_eq_zero hnil
  obtain ⟨slots, g, -, hdepth₀, -⟩ := h.arguments htrail hdepth
  rw [hdepth₀]
  exact ⟨Trail.within htrail, hdepth⟩

/-- Whenever the scope of a clause is the innermost one, in particular when its body is done, it has an
argument for each formal. The argument fits the formal exactly if it did when the scope was opened and no
binding has leaked since. -/
theorem declared_type_holds_iff {b r : Resolvent σ} (h : Entered actuals c b)
    (hwithin : Within b.env.depth b r) (hdepth : r.env.depth = b.env.depth) {i : Nat} {f : Formal}
    (hf : c.formals[i]? = some f) :
    ∃ seat slot, b.env.scope.arguments[i]? = some (f, seat) ∧ r.env.scope.arguments[i]? = some (f, slot) ∧
      (r.env.Fits ⟨slot, f.ty⟩ ↔ b.env.Fits ⟨seat, f.ty⟩ ∧ ¬∃ r₁ r₂, Leak b r₁ r₂ r seat.cell f.ty) := by
  obtain ⟨hb, hformals⟩ := h.opened
  obtain ⟨seat, hseat⟩ : ∃ seat, b.env.scope.arguments[i]? = some (f, seat) := by
    rw [← hformals, List.getElem?_map] at hf
    obtain ⟨⟨f', seat⟩, hseat, rfl⟩ := Option.map_eq_some_iff.mp hf
    exact ⟨seat, hseat⟩
  have hcell : seat.cell < b.env.store.cells.size := by
    apply hb.sound.bounded seat
    apply List.mem_append_left
    exact List.mem_map.mpr ⟨(f, seat), List.mem_of_getElem? hseat, rfl⟩
  obtain ⟨inner, sc, habove⟩ := hwithin.above hb rfl
  obtain rfl := habove.eq_nil hdepth
  obtain ⟨hscope, -⟩ := List.cons.inj habove.stack
  obtain ⟨g, hmoved, hmove⟩ := habove.moved
  refine ⟨seat, seat.move g, hseat, ?_, ?_⟩
  · rw [hscope, hmoved, moveAll, List.getElem?_map, hseat]
    rfl
  · have hvalue : r.env.store.value (g seat.cell) = r.env.store.value seat.cell := by
      rw [Store.value_eq, (hmove _ hcell).2, ← Store.value_eq]
    unfold Env.Fits Slot.move
    rw [hvalue]
    exact holds_iff_no_leak hb hwithin hcell f.ty

end Resolvent

/-- A clause unifies a typed formal with an untyped one and then gives the untyped one a value. -/
def narrowing : Clause Unit where
  name := "narrow"
  formals := [⟨0, "x", .int⟩, ⟨1, "y", .any⟩]
  body := .fixed [.bind (.formal ⟨1, "y", .any⟩) (.param (.formal ⟨0, "x", .int⟩)),
    .bind (.formal ⟨1, "y", .any⟩) (.literal (.str "text"))]
  name_ne := by decide
  distinct := by decide

def untyped : List Actual := [.output (.shared 0) none .any none, .output (.shared 1) none .any none]

theorem narrowing_completes : ∃ r₀ r, Resolvent.Starts untyped narrowing r₀ ∧ r₀.Trail r ∧
    r.agenda.toList = [] ∧ ∃ f slot, r.env.scope.arguments[0]? = some (f, slot) ∧
      r.env.store.value slot.cell = some (.str "text") ∧ ¬f.ty.Accepts (Value.str "text").ty := by
  have hshown : ((ExceptT.run (Resolvent.ofQuery narrowing untyped >>= Resolvent.run) (World.start ())).1.toOption.bind
      fun o => o.env?.bind fun e => e.scope.arguments[0]?.map fun a => (a.1.ty, e.store.value a.2.cell)) =
        some (.int, some (.str "text")) := by decide +kernel
  generalize hruns : ExceptT.run (Resolvent.ofQuery narrowing untyped >>= Resolvent.run) (World.start ()) = x at hshown
  obtain ⟨o, ho, hcomplete⟩ := Option.bind_eq_some_iff.mp hshown
  obtain ⟨e, he, hargument⟩ := Option.bind_eq_some_iff.mp hcomplete
  obtain ⟨result, w⟩ := x
  cases result with
  | error f => cases ho
  | ok o' =>
      cases ho
      obtain ⟨r₀, hquery, hrun⟩ := Engine.Runs.of_bind ⟨_, _, hruns⟩
      have hauth : narrowing.Authored := Clause.authored_of_fixed rfl (by simp [Goal.Authored])
      obtain ⟨a, hnil, htrail⟩ := Resolvent.solve_follows .refl hrun |>.of_env? he
      obtain ⟨⟨f, slot⟩, harg, hfields⟩ := Option.map_eq_some_iff.mp hargument
      obtain ⟨hty, hheld⟩ := Prod.mk.inj hfields
      refine ⟨r₀, ⟨e, a⟩, ⟨hauth, by decide, hquery⟩, htrail, hnil, f, slot, harg, hheld, ?_⟩
      intro hacc
      rw [hty] at hacc
      exact absurd hacc (by decide)

/-- Declared types are not kept to in all branches that complete. -/
theorem declared_types_may_be_broken :
    ¬∀ (c : Clause Unit) (actuals : List Actual) (r₀ r : Resolvent Unit), Resolvent.Starts actuals c r₀ →
        r₀.Trail r → r.agenda.toList = [] → ∀ (i : Nat) (f : Formal) (slot : Slot),
          r.env.scope.arguments[i]? = some (f, slot) → r.env.Fits ⟨slot, f.ty⟩ := by
  intro hall
  obtain ⟨r₀, r, hstarts, htrail, hnil, f, slot, harg, hvalue, hmisfit⟩ := narrowing_completes
  exact hmisfit (hall narrowing untyped r₀ r hstarts htrail hnil 0 f slot harg _ hvalue)

/-- What the query passes fits, and so a binding of the clause leaks. -/
theorem narrowing_leaks : ∃ r₀ r f seat r₁ r₂, Resolvent.Starts untyped narrowing r₀ ∧ r₀.Trail r ∧
    r.agenda.toList = [] ∧ r₀.env.scope.arguments[0]? = some (f, seat) ∧
      Resolvent.Leak r₀ r₁ r₂ r seat.cell f.ty := by
  obtain ⟨r₀, r, hstarts, htrail, hnil, f, slot, harg, hvalue, hmisfit⟩ := narrowing_completes
  obtain ⟨hwithin, hdepth⟩ := hstarts.within htrail hnil
  obtain ⟨seat, slot', hseat, hslot, hiff⟩ := Resolvent.declared_type_holds_iff (.query hstarts) hwithin hdepth
    (show narrowing.formals[0]? = some ⟨0, "x", .int⟩ from rfl)
  rw [harg] at hslot
  cases hslot
  have hids : ∀ a ∈ untyped, ∀ a' ∈ untyped, a.id = a'.id → a = a' := by simp [untyped, Actual.output]
  have hfits := hstarts.fits hids (List.mem_of_getElem? hseat)
  have hend : ¬r.env.Fits ⟨slot, .int⟩ := fun hend => hmisfit (hend _ hvalue)
  rw [hiff, not_and, not_not] at hend
  obtain ⟨r₁, r₂, hleak⟩ := hend hfits
  exact ⟨r₀, r, _, seat, r₁, r₂, hstarts, htrail, hnil, hseat, hleak⟩

end Clausal
