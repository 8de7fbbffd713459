import Clausal.Proofs.Aliases
import Clausal.Proofs.Answers
import Clausal.Proofs.Merging
import Clausal.View

/-! What a name is bound to, and the order in which a scope lists its local variables. Main statement: the order
never decides which variable a name denotes, nor which error is raised instead. It shows in the type of the binding,
and only there, exactly for names of several local variables which have become one but have different types. -/
namespace Clausal

def Slot.reference (slot : Slot) : Resolved := ⟨slot, slot.parameter.ty⟩

namespace Env

variable {e : Env} {name : String} {rs rs' : List Resolved} {locals : List Slot}

def denoted (e : Env) (r : Resolved) : Nat := e.store.find r.slot.cell

/-- All references denote one variable. -/
def Agreed (e : Env) (rs : List Resolved) : Prop := ∀ r ∈ rs, ∀ q ∈ rs, e.denoted r = e.denoted q

instance (e : Env) (rs : List Resolved) : Decidable (e.Agreed rs) :=
  inferInstanceAs (Decidable (∀ r ∈ rs, ∀ q ∈ rs, e.denoted r = e.denoted q))

theorem agreed_cons {r : Resolved} : e.Agreed (r :: rs) ↔ ∀ q ∈ rs, e.denoted q = e.denoted r := by
  constructor
  · exact fun h q hq => h q (List.mem_cons_of_mem r hq) r List.mem_cons_self
  · intro h
    have hall : ∀ q ∈ r :: rs, e.denoted q = e.denoted r := List.forall_mem_cons.mpr ⟨rfl, h⟩
    exact fun p hp q hq => (hall p hp).trans (hall q hq).symm

theorem agreed_perm (h : rs.Perm rs') : e.Agreed rs ↔ e.Agreed rs' := by
  unfold Agreed
  simp only [h.mem_iff]

theorem unique_eq (e : Env) (name : String) (rs : List Resolved) :
    e.unique name rs = if e.Agreed rs then .ok rs.head? else .error (.ambiguousParameter name) := by
  cases rs with
  | nil => exact (if_pos fun r hr => absurd hr List.not_mem_nil).symm
  | cons r rs =>
      have hall : (rs.all fun q => e.store.find q.slot.cell = e.store.find r.slot.cell) = true ↔
          e.Agreed (r :: rs) := by
        rw [agreed_cons, List.all_eq_true]
        simp only [decide_eq_true_eq]
        rfl
      unfold unique
      by_cases h : e.Agreed (r :: rs)
      · rw [if_pos h]
        exact if_pos (hall.mpr h)
      · rw [if_neg h]
        exact if_neg (mt hall.mp h)

/-- The references that count for a name: the body's own, or else the caller's. -/
def matching (e : Env) (name : String) : List Resolved :=
  if e.scope.bodyMatches name = [] then e.scope.callerMatches name else e.scope.bodyMatches name

theorem lookupName_eq (e : Env) (name : String) : e.lookupName name =
    if e.Agreed (e.matching name) then (e.matching name).head?.elim (.error (.unknownParameter name)) .ok
    else .error (.ambiguousParameter name) := by
  have hempty : e.Agreed [] := fun r hr => absurd hr List.not_mem_nil
  unfold lookupName matching
  rw [unique_eq, unique_eq]
  cases hbody : e.scope.bodyMatches name with
  | nil =>
      rw [if_pos hempty, if_pos rfl]
      by_cases h : e.Agreed (e.scope.callerMatches name)
      · rw [if_pos h, if_pos h]
        cases e.scope.callerMatches name <;> rfl
      · rw [if_neg h, if_neg h]
        rfl
  | cons r rs =>
      rw [if_neg (List.cons_ne_nil r rs)]
      by_cases h : e.Agreed (r :: rs)
      · rw [if_pos h, if_pos h]
        rfl
      · rw [if_neg h, if_neg h]
        rfl

theorem named_eq (e : Env) (name : String) : e.view.named name = (e.lookupName name).map (e.binding name) := by
  unfold view
  simp only
  cases e.lookupName name <;> rfl

theorem binding_congr {r r' : Resolved} (hclass : e.denoted r = e.denoted r') (hty : r.ty = r'.ty) :
    e.binding name r = e.binding name r' := by
  unfold binding
  rw [hty, Store.value_congr hclass, Store.aliases_congr hclass]

/-- The environment with the local variables of the innermost scope listed otherwise. -/
def withLocals (e : Env) (locals : List Slot) : Env := { e with scope := { e.scope with locals := locals } }

def called (e : Env) (name : String) : List Slot := e.scope.locals.filter fun slot => slot.parameter.name = some name

def formalMatches (e : Env) (name : String) : List Resolved :=
  (e.scope.arguments.filter fun a => a.1.name = name).map fun a => ⟨a.2, a.1.ty⟩

theorem bodyMatches_eq (e : Env) (name : String) :
    e.scope.bodyMatches name = e.formalMatches name ++ (e.called name).map Slot.reference := rfl

theorem called_perm (h : locals.Perm e.scope.locals) : ((e.withLocals locals).called name).Perm (e.called name) :=
  h.filter _

theorem matching_perm (h : locals.Perm e.scope.locals) :
    ((e.withLocals locals).matching name).Perm (e.matching name) := by
  have hbody : ((e.withLocals locals).scope.bodyMatches name).Perm (e.scope.bodyMatches name) :=
    .append_left _ ((called_perm h).map _)
  unfold matching
  by_cases hnil : e.scope.bodyMatches name = []
  · rw [if_pos hnil, if_pos (hnil ▸ hbody).eq_nil]
    exact .refl _
  · rw [if_neg hnil, if_neg fun hnil' => hnil (hnil' ▸ hbody).nil_eq.symm]
    exact hbody

/-- In whatever order the local variables are listed, the references agree or they do not. -/
theorem lookupName_withLocals (h : locals.Perm e.scope.locals) : (e.withLocals locals).lookupName name =
    if e.Agreed (e.matching name) then
      ((e.withLocals locals).matching name).head?.elim (.error (.unknownParameter name)) .ok
    else .error (.ambiguousParameter name) := by
  have hagreed : (e.withLocals locals).Agreed ((e.withLocals locals).matching name) ↔ e.Agreed (e.matching name) :=
    agreed_perm (e := e) (matching_perm h)
  rw [lookupName_eq]
  exact if_congr hagreed rfl rfl

theorem heads_of_perm (h : rs'.Perm rs) : (rs'.head? = none ∧ rs.head? = none) ∨
    ∃ r' ∈ rs, ∃ r ∈ rs, rs'.head? = some r' ∧ rs.head? = some r := by
  cases rs with
  | nil =>
      rw [h.eq_nil]
      exact .inl ⟨rfl, rfl⟩
  | cons r rs =>
      cases rs' with
      | nil => exact absurd h.symm.eq_nil (List.cons_ne_nil r rs)
      | cons r' rs' => exact .inr ⟨r', h.mem_iff.mp List.mem_cons_self, r, List.mem_cons_self, rfl, rfl⟩

theorem denoted_withLocals (h : locals.Perm e.scope.locals) :
    ((e.withLocals locals).lookupName name).map e.denoted = (e.lookupName name).map e.denoted := by
  rw [lookupName_withLocals h, lookupName_eq]
  by_cases hagreed : e.Agreed (e.matching name)
  · rw [if_pos hagreed, if_pos hagreed]
    have hperm : ((e.withLocals locals).matching name).Perm (e.matching name) := matching_perm h
    rcases heads_of_perm hperm with ⟨hr', hr⟩ | ⟨r', hmem', r, hmem, hr', hr⟩
    · rw [hr', hr]
    · rw [hr', hr]
      exact congrArg Except.ok (hagreed r' hmem' r hmem)
  · rw [if_neg hagreed, if_neg hagreed]

/-- The order shows in nothing but the types of the references that come first. -/
theorem named_withLocals (h : locals.Perm e.scope.locals)
    (hty : e.Agreed (e.matching name) → ∀ r r', (e.matching name).head? = some r →
      ((e.withLocals locals).matching name).head? = some r' → r'.ty = r.ty) :
    (e.withLocals locals).view.named name = e.view.named name := by
  rw [named_eq, named_eq, lookupName_withLocals h, lookupName_eq]
  by_cases hagreed : e.Agreed (e.matching name)
  · rw [if_pos hagreed, if_pos hagreed]
    have hperm : ((e.withLocals locals).matching name).Perm (e.matching name) := matching_perm h
    rcases heads_of_perm hperm with ⟨hr', hr⟩ | ⟨r', hmem', r, hmem, hr', hr⟩
    · rw [hr', hr]
      rfl
    · rw [hr', hr]
      exact congrArg Except.ok (binding_congr (e := e) (hagreed r' hmem' r hmem) (hty hagreed r r' hr hr'))
  · rw [if_neg hagreed, if_neg hagreed]
    rfl

/-- A name of local variables only, which have become one variable but have not all the same type. -/
structure Torn (e : Env) (name : String) : Prop where
  no_formal : ∀ a ∈ e.scope.arguments, a.1.name ≠ name
  one : ∀ p ∈ e.called name, ∀ q ∈ e.called name, e.store.find p.cell = e.store.find q.cell
  torn : ∃ p ∈ e.called name, ∃ q ∈ e.called name, p.parameter.ty ≠ q.parameter.ty

theorem formalMatches_eq_nil : e.formalMatches name = [] ↔ ∀ a ∈ e.scope.arguments, a.1.name ≠ name := by
  unfold formalMatches
  rw [List.map_eq_nil_iff, List.filter_eq_nil_iff]
  simp only [decide_eq_true_eq, ne_eq]

theorem matching_eq_called (hformal : e.formalMatches name = []) (hcalled : e.called name ≠ []) :
    e.matching name = (e.called name).map Slot.reference := by
  have hbody : e.scope.bodyMatches name = (e.called name).map Slot.reference := by
    rw [bodyMatches_eq, hformal, List.nil_append]
  unfold matching
  rw [hbody, if_neg fun hnil => hcalled (List.map_eq_nil_iff.mp hnil)]

theorem head?_matching (hformal : e.formalMatches name ≠ []) :
    (e.matching name).head? = (e.formalMatches name).head? := by
  unfold matching
  rw [bodyMatches_eq, if_neg fun hnil => hformal (List.append_eq_nil_iff.mp hnil).1,
    List.head?_append_of_ne_nil _ hformal]

theorem matching_eq_caller (hformal : e.formalMatches name = []) (hcalled : e.called name = []) :
    e.matching name = e.scope.callerMatches name := by
  unfold matching
  rw [bodyMatches_eq, hformal, hcalled]
  exact if_pos rfl

/-- A name that is not torn is bound to the same in every order. -/
theorem named_of_not_torn (h : locals.Perm e.scope.locals) (hwhole : ¬e.Torn name) :
    (e.withLocals locals).view.named name = e.view.named name := by
  refine named_withLocals h fun hagreed r r' hr hr' => ?_
  have hperm : ((e.withLocals locals).called name).Perm (e.called name) := called_perm h
  by_cases hformal : e.formalMatches name = []
  · by_cases hcalled : e.called name = []
    · rw [matching_eq_caller hformal hcalled] at hr
      rw [matching_eq_caller (e := e.withLocals locals) hformal (hcalled ▸ hperm).eq_nil] at hr'
      rw [Option.some.inj (hr'.symm.trans hr)]
    · rw [matching_eq_called hformal hcalled] at hr hagreed
      rw [matching_eq_called (e := e.withLocals locals) hformal fun hnil => hcalled (hnil ▸ hperm).nil_eq.symm] at hr'
      obtain ⟨p, hp, rfl⟩ := List.mem_map.mp (List.mem_of_mem_head? hr)
      obtain ⟨q, hq, rfl⟩ := List.mem_map.mp (List.mem_of_mem_head? hr')
      by_contra hne
      refine hwhole ⟨formalMatches_eq_nil.mp hformal, fun i hi j hj => ?_, q, hperm.mem_iff.mp hq, p, hp, hne⟩
      exact hagreed _ (List.mem_map_of_mem hi) _ (List.mem_map_of_mem hj)
  · rw [head?_matching hformal] at hr
    rw [head?_matching (e := e.withLocals locals) hformal] at hr'
    rw [Option.some.inj (hr'.symm.trans hr)]

/-- Local variables that are one are found under the type of the one that is listed first. -/
theorem named_of_called (hformal : e.formalMatches name = [])
    (hone : ∀ p ∈ e.called name, ∀ q ∈ e.called name, e.store.find p.cell = e.store.find q.cell) {p : Slot}
    {rest : List Slot} (hp : e.called name = p :: rest) : e.view.named name = .ok (e.binding name p.reference) := by
  have hmatching : e.matching name = (e.called name).map Slot.reference :=
    matching_eq_called hformal (hp ▸ List.cons_ne_nil p rest)
  have hagreed : e.Agreed (e.matching name) := by
    rw [hmatching]
    intro r hr r' hr'
    obtain ⟨q, hq, rfl⟩ := List.mem_map.mp hr
    obtain ⟨q', hq', rfl⟩ := List.mem_map.mp hr'
    exact hone q hq q' hq'
  rw [named_eq, lookupName_eq, if_pos hagreed, hmatching, hp]
  rfl

/-- Another one of the variables may be listed first. -/
theorem Torn.order_shows (h : e.Torn name) :
    ∃ locals, locals.Perm e.scope.locals ∧ (e.withLocals locals).view.named name ≠ e.view.named name := by
  have hformal : e.formalMatches name = [] := formalMatches_eq_nil.mpr h.no_formal
  obtain ⟨p, hp, q, hq, hne⟩ := h.torn
  obtain ⟨first, rest, hfirst⟩ := List.exists_cons_of_ne_nil (List.ne_nil_of_mem hp)
  obtain ⟨d, hd, hdiffers⟩ : ∃ d ∈ e.called name, d.parameter.ty ≠ first.parameter.ty := by
    by_cases hsame : p.parameter.ty = first.parameter.ty
    · exact ⟨q, hq, fun hsame' => hne (hsame.trans hsame'.symm)⟩
    · exact ⟨p, hp, hsame⟩
  obtain ⟨hmem, hname⟩ := List.mem_filter.mp hd
  obtain ⟨before, after, hlocals⟩ := List.append_of_mem hmem
  have hperm : (d :: (before ++ after)).Perm e.scope.locals := hlocals ▸ List.perm_middle.symm
  refine ⟨_, hperm, fun hnamed => hdiffers ?_⟩
  have hmoved : (e.withLocals (d :: (before ++ after))).called name = d :: (before ++ after).filter fun slot =>
      slot.parameter.name = some name := List.filter_cons_of_pos hname
  have hcalled (i : Slot) (hi : i ∈ (e.withLocals (d :: (before ++ after))).called name) : i ∈ e.called name :=
    (called_perm hperm).mem_iff.mp hi
  rw [named_of_called hformal h.one hfirst, named_of_called (e := e.withLocals (d :: (before ++ after))) hformal
    (fun i hi j hj => h.one i (hcalled i hi) j (hcalled j hj)) hmoved] at hnamed
  exact congrArg Binding.ty (Except.ok.inj hnamed)

/-- The order in which the innermost scope lists its local variables never decides which variable a name denotes or
which error is raised. What a callback sees under the name is the same in every order, type and all, unless the
name is torn. -/
theorem order_shows_iff_torn (e : Env) (name : String) :
    (∀ locals, locals.Perm e.scope.locals →
      ((e.withLocals locals).lookupName name).map e.denoted = (e.lookupName name).map e.denoted) ∧
      ((∀ locals, locals.Perm e.scope.locals → (e.withLocals locals).view.named name = e.view.named name) ↔
        ¬e.Torn name) := by
  refine ⟨fun locals h => denoted_withLocals h, ?_, fun hwhole locals h => named_of_not_torn h hwhole⟩
  intro hall htorn
  obtain ⟨locals, hperm, hne⟩ := htorn.order_shows
  exact hne (hall locals hperm)

end Env

def loose : Actual := .output (.shared 0) (some "x") .any none

def strict : Actual := .output (.shared 1) (some "x") .int none

/-- A clause without formals makes one of the two. -/
def tearing : Clause Unit where
  name := "tear"
  formals := []
  body := .fixed [.bind (.actual loose) (.param (.actual strict))]
  name_ne := by decide
  distinct := by decide

theorem tearing_torn : ∃ (c : Clause Unit) (r₀ r : Resolvent Unit), Resolvent.Starts [] c r₀ ∧ r₀.Trail r ∧
    r.env.Torn "x" := by
  have hshown : ((ExceptT.run ((Pending.query "tear" []).solve tearing) (World.start ())).1.toOption.bind fun o =>
      o.env?.map fun e => (e.scope.arguments.isEmpty, decide (∀ p ∈ e.called "x", ∀ q ∈ e.called "x",
        e.store.find p.cell = e.store.find q.cell), (e.called "x").map fun slot => slot.parameter.ty)) =
        some (true, true, [.any, .int]) := by decide +kernel
  obtain ⟨o, hsolve, hshown⟩ := Option.bind_eq_some_iff.mp hshown
  obtain ⟨e, hcomplete, hfields⟩ := Option.map_eq_some_iff.mp hshown
  simp only [Prod.mk.injEq, List.isEmpty_iff, decide_eq_true_eq] at hfields
  obtain ⟨hnone, hone, htypes⟩ := hfields
  have hauth : tearing.Authored := Clause.authored_of_fixed rfl (by simp [Goal.Authored])
  have hquery : (Pending.query "tear" [] : Pending Unit).Reached [] := rfl
  obtain ⟨c, r, hstart, hfollows⟩ := Pending.solve_follows hquery hauth (by decide) (.of_toOption hsolve)
  obtain ⟨agenda, -, htrail⟩ := hfollows.of_env? hcomplete
  obtain ⟨p, hp, hany⟩ : ∃ p ∈ e.called "x", p.parameter.ty = .any :=
    List.mem_map.mp (by rw [htypes]; exact List.mem_cons_self)
  obtain ⟨q, hq, hint⟩ : ∃ q ∈ e.called "x", q.parameter.ty = .int :=
    List.mem_map.mp (by rw [htypes]; exact List.mem_cons_of_mem _ List.mem_cons_self)
  refine ⟨c, r, ⟨e, agenda⟩, hstart, htrail, fun a ha => ?_, hone, p, hp, q, hq, ?_⟩
  · exact absurd (hnone ▸ ha) List.not_mem_nil
  · rw [hany, hint]
    decide

/-- So what a callback sees does depend on the order. -/
theorem order_may_show : ¬∀ (actuals : List Actual) (c : Clause Unit) (r₀ r : Resolvent Unit),
    Resolvent.Starts actuals c r₀ → r₀.Trail r → ∀ (name : String) (locals : List Slot),
      locals.Perm r.env.scope.locals → (r.env.withLocals locals).view.named name = r.env.view.named name := by
  intro hall
  obtain ⟨c, r₀, r, hstart, htrail, htorn⟩ := tearing_torn
  obtain ⟨locals, hperm, hne⟩ := htorn.order_shows
  exact hne (hall [] c r₀ r hstart htrail "x" locals hperm)

end Clausal
