import Clausal.Proofs.BodyOrder
import Clausal.Proofs.Frames
import Mathlib.Data.List.Induction

/-! Answers as snapshots. Main statement: in every frame of a query, the answer has an entry for each argument, with the
state of its class; other arguments of the class are its aliases, each once and in call order, so aliasing is symmetric
and transitive and what is aliased agrees; and a name finds the entry of the one argument that has it. -/
namespace Clausal

namespace Actual

theorem isIn_iff {a : Actual} {as : List Actual} : a.isIn as = true ↔ a.id ∈ as.map Actual.id := by
  simp [isIn]

theorem distinct_concat (as : List Actual) (a : Actual) :
    distinct (as ++ [a]) = if a.isIn (distinct as) then distinct as else distinct as ++ [a] := by
  rw [distinct, List.foldl_append]
  rfl

theorem distinct_sublist (as : List Actual) : (distinct as).Sublist as := by
  induction as using List.reverseRecOn with
  | nil => exact .refl []
  | append_singleton as a ih =>
      rw [distinct_concat]
      split
      · exact ih.trans (List.sublist_append_left as [a])
      · exact ih.append_right [a]

theorem mem_ids_distinct (as : List Actual) (id : ActualId) :
    id ∈ (distinct as).map Actual.id ↔ id ∈ as.map Actual.id := by
  induction as using List.reverseRecOn with
  | nil => exact Iff.rfl
  | append_singleton as a ih =>
      rw [distinct_concat, List.map_append, List.mem_append, ← ih]
      split
      · rename_i h
        refine ⟨.inl, fun hid => hid.elim (fun hid => hid) fun hid => ?_⟩
        rw [List.mem_singleton.mp hid]
        exact isIn_iff.mp h
      · rw [List.map_append, List.mem_append]

theorem distinct_filter {P : Actual → Bool} (hP : ∀ a b : Actual, a.id = b.id → P a = P b) (as : List Actual) :
    distinct (as.filter P) = (distinct as).filter P := by
  induction as using List.reverseRecOn with
  | nil => rfl
  | append_singleton as a ih =>
      have hin (ha : P a = true) : a.isIn ((distinct as).filter P) = a.isIn (distinct as) := by
        rw [Bool.eq_iff_iff, isIn_iff, isIn_iff]
        constructor
        · exact fun h => (List.filter_sublist.map Actual.id).subset h
        · intro h
          obtain ⟨b, hb, hid⟩ := List.mem_map.mp h
          exact List.mem_map.mpr ⟨b, List.mem_filter.mpr ⟨hb, (hP b a hid).trans ha⟩, hid⟩
      rw [List.filter_append, distinct_concat]
      cases ha : P a with
      | false =>
          have hnone : [a].filter P = [] := by
            rw [List.filter_cons_of_neg (by rw [ha]; exact Bool.false_ne_true), List.filter_nil]
          rw [hnone, List.append_nil, ih]
          split
          · rfl
          · rw [List.filter_append, hnone, List.append_nil]
      | true =>
          have hone : [a].filter P = [a] := by rw [List.filter_cons_of_pos ha, List.filter_nil]
          rw [hone, distinct_concat, ih, hin ha]
          split
          · rfl
          · rw [List.filter_append, hone]

variable {as : List Actual}

/-- Nothing but repetitions is dropped. -/
theorem mem_distinct (h : Apart as) {a : Actual} : a ∈ distinct as ↔ a ∈ as := by
  constructor
  · exact fun ha => (distinct_sublist as).subset ha
  · intro ha
    obtain ⟨b, hb, hid⟩ := List.mem_map.mp ((mem_ids_distinct as a.id).mpr (List.mem_map_of_mem ha))
    rw [← h b ((distinct_sublist as).subset hb) a ha hid]
    exact hb

/-- What is kept stands in the order in which it first occurs. -/
theorem ordered_distinct (as : List Actual) : (distinct as).Pairwise fun a b => as.idxOf a < as.idxOf b := by
  induction as using List.reverseRecOn with
  | nil => exact .nil
  | append_singleton as a ih =>
      have hold : (distinct as).Pairwise fun x y => (as ++ [a]).idxOf x < (as ++ [a]).idxOf y := by
        refine ih.imp_of_mem fun hx hy hlt => ?_
        rw [List.idxOf_append_of_mem ((distinct_sublist as).subset hx),
          List.idxOf_append_of_mem ((distinct_sublist as).subset hy)]
        exact hlt
      rw [distinct_concat]
      split
      · exact hold
      · rename_i hnew
        refine List.pairwise_append.mpr ⟨hold, List.pairwise_singleton _ _, fun x hx y hy => ?_⟩
        have hxas := (distinct_sublist as).subset hx
        have hanew : a ∉ as := fun ha =>
          hnew (isIn_iff.mpr ((mem_ids_distinct as a.id).mpr (List.mem_map_of_mem ha)))
        rw [List.mem_singleton.mp hy, List.idxOf_append_of_mem hxas, List.idxOf_append_of_notMem hanew]
        exact Nat.lt_of_lt_of_le (List.idxOf_lt_length_of_mem hxas) (Nat.le_add_right _ _)

end Actual

namespace Answer

variable {e : Env} {slots : List Slot}

def shares (e : Env) (slots : List Slot) (slot : Slot) (a : Actual) : Bool :=
  a.id ≠ slot.parameter.id ∧
    slots.any fun other => other.parameter.id = a.id ∧ e.store.find other.cell = e.store.find slot.cell

section Aliases

variable (htogether : ∀ a ∈ slots, ∀ b ∈ slots, a.parameter.id = b.parameter.id → e.store.find a.cell = e.store.find b.cell)

include htogether

theorem shares_iff {slot other : Slot} (hother : other ∈ slots) : shares e slots slot other.parameter = true ↔
    other.parameter.id ≠ slot.parameter.id ∧ e.store.find other.cell = e.store.find slot.cell := by
  rw [shares, decide_eq_true_iff]
  refine and_congr_right fun _ => ?_
  rw [List.any_eq_true]
  constructor
  · rintro ⟨third, hthird, h⟩
    obtain ⟨hid, hfind⟩ := of_decide_eq_true h
    exact (htogether other hother third hthird hid.symm).trans hfind
  · exact fun hfind => ⟨other, hother, decide_eq_true ⟨rfl, hfind⟩⟩

/-- The aliases are picked from the arguments without their repetitions. -/
theorem aliasesOf_eq (slot : Slot) :
    aliasesOf e slots slot = (Actual.distinct (slots.map Slot.parameter)).filter (shares e slots slot) := by
  have hids (a b : Actual) (hid : a.id = b.id) : shares e slots slot a = shares e slots slot b := by
    rw [shares, shares, hid]
  rw [← Actual.distinct_filter hids, aliasesOf, List.filter_map]
  congr 2
  refine List.filter_congr fun other hother => ?_
  rw [Bool.eq_iff_iff, decide_eq_true_iff]
  exact (shares_iff htogether hother).symm

variable (hapart : Actual.Apart (slots.map Slot.parameter))

include hapart

theorem mem_aliasesOf {slot other : Slot} (hslot : slot ∈ slots) (hother : other ∈ slots) :
    other.parameter ∈ aliasesOf e slots slot ↔
      other.parameter ≠ slot.parameter ∧ e.store.find other.cell = e.store.find slot.cell := by
  have hne : other.parameter.id ≠ slot.parameter.id ↔ other.parameter ≠ slot.parameter :=
    not_congr ⟨hapart _ (List.mem_map_of_mem hother) _ (List.mem_map_of_mem hslot), congrArg Actual.id⟩
  rw [aliasesOf_eq htogether, List.mem_filter, Actual.mem_distinct hapart, shares_iff htogether hother, hne]
  exact and_iff_right (List.mem_map_of_mem hother)

end Aliases

/-- A name finds no entry, entries of different arguments, or entries of one argument. -/
theorem named_cases (a : Answer) (name : String) :
    (a.named name = .error (.unknownParameter name) ∧ ∀ x ∈ a.entries, x.parameter.name ≠ some name) ∨
    (∃ x ∈ a.entries, ∃ y ∈ a.entries, x.parameter.name = some name ∧ y.parameter.name = some name ∧
      y.parameter.id ≠ x.parameter.id ∧ a.named name = .error (.ambiguousParameter name)) ∨
    ∃ x rest, a.named name = .ok x ∧ (a.entries.filter fun e => e.parameter.name = some name) = x :: rest ∧
      ∀ y ∈ a.entries, y.parameter.name = some name → y.parameter.id = x.parameter.id := by
  have hmem (x : Entry) : x ∈ (a.entries.filter fun e => e.parameter.name = some name) ↔
      x ∈ a.entries ∧ x.parameter.name = some name := by
    rw [List.mem_filter, decide_eq_true_iff]
  unfold named
  cases hfilter : a.entries.filter fun e => e.parameter.name = some name with
  | nil =>
      refine .inl ⟨rfl, fun x hx hname => ?_⟩
      have hin := (hmem x).mpr ⟨hx, hname⟩
      rw [hfilter] at hin
      exact absurd hin List.not_mem_nil
  | cons x rest =>
      rw [hfilter] at hmem
      obtain ⟨hx, hxname⟩ := (hmem x).mp List.mem_cons_self
      simp only
      split
      · rename_i hall
        refine .inr (.inr ⟨x, rest, rfl, rfl, fun y hy hyname => ?_⟩)
        rcases List.mem_cons.mp ((hmem y).mpr ⟨hy, hyname⟩) with rfl | hrest
        · rfl
        · exact of_decide_eq_true (List.all_eq_true.mp hall y hrest)
      · rename_i hnot
        rw [List.all_eq_true, not_forall₂] at hnot
        obtain ⟨y, hy, hid⟩ := hnot
        obtain ⟨hyin, hyname⟩ := (hmem y).mp (List.mem_cons_of_mem x hy)
        exact .inr (.inl ⟨x, hx, y, hyin, hxname, hyname, fun h => hid (decide_eq_true h), rfl⟩)

/-- What makes an answer a snapshot of a frame, without anything that contradicts itself. -/
structure Coherent (e : Env) (actuals : List Actual) (a : Answer) : Prop where
  parameters : a.entries.map Entry.parameter = actuals ∧ e.queryArguments.map Slot.parameter = actuals
  state : ∀ (i : Nat) (x : Entry) (slot : Slot), a.entries[i]? = some x → e.queryArguments[i]? = some slot →
    x.ty = e.store.ty slot.cell ∧ x.value = e.store.value slot.cell
  aliases_iff : ∀ (i j : Nat) (x y : Entry) (slot other : Slot), a.entries[i]? = some x → a.entries[j]? = some y →
    e.queryArguments[i]? = some slot → e.queryArguments[j]? = some other →
      (y.parameter ∈ x.aliases ↔ y.parameter ≠ x.parameter ∧ e.store.find other.cell = e.store.find slot.cell)
  other : ∀ x ∈ a.entries, x.parameter ∉ x.aliases ∧ x.aliases ⊆ actuals
  nodup : ∀ x ∈ a.entries, x.aliases.Nodup
  ordered : ∀ x ∈ a.entries, x.aliases.Pairwise fun p q => actuals.idxOf p < actuals.idxOf q
  symm : ∀ x ∈ a.entries, ∀ y ∈ a.entries, x.parameter ≠ y.parameter →
    (y.parameter ∈ x.aliases ↔ x.parameter ∈ y.aliases)
  trans : ∀ x ∈ a.entries, ∀ y ∈ a.entries, ∀ z ∈ a.entries, x.parameter ≠ z.parameter →
    y.parameter ∈ x.aliases → z.parameter ∈ y.aliases → z.parameter ∈ x.aliases
  agree : ∀ x ∈ a.entries, ∀ y ∈ a.entries, x.parameter = y.parameter ∨ y.parameter ∈ x.aliases →
    x.ty = y.ty ∧ x.value = y.value
  named_iff : ∀ name, (∃ x, a.named name = .ok x) ↔ (∃ x ∈ a.entries, x.parameter.name = some name) ∧
    ∀ x ∈ a.entries, ∀ y ∈ a.entries, x.parameter.name = some name → y.parameter.name = some name →
      x.parameter = y.parameter
  ambiguous_iff : ∀ name, a.named name = .error (.ambiguousParameter name) ↔ ∃ x ∈ a.entries, ∃ y ∈ a.entries,
    x.parameter.name = some name ∧ y.parameter.name = some name ∧ x.parameter ≠ y.parameter
  found : ∀ name x, a.named name = .ok x →
    x ∈ a.entries ∧ x.parameter.name = some name ∧ a.ofParameter x.parameter = some x

theorem find?_filter_of_imp {P Q : Entry → Bool} {entries : List Entry} (h : ∀ y ∈ entries, Q y = true → P y = true) :
    (entries.filter P).find? Q = entries.find? Q := by
  induction entries with
  | nil => rfl
  | cons x rest ih =>
      have hrest := ih fun y hy => h y (List.mem_cons_of_mem x hy)
      cases hP : P x with
      | true =>
          rw [List.filter_cons_of_pos hP, List.find?_cons, List.find?_cons, hrest]
      | false =>
          have hQ : ¬Q x = true := fun hQ => by
            rw [h x List.mem_cons_self hQ] at hP
            cases hP
          rw [List.filter_cons_of_neg (by rw [hP]; exact Bool.false_ne_true), List.find?_cons_of_neg hQ, hrest]

section Named

variable {a : Answer} (hapart : Actual.Apart (a.entries.map Entry.parameter)) (name : String)

include hapart

theorem parameter_eq {x y : Entry} (hx : x ∈ a.entries) (hy : y ∈ a.entries) (hid : x.parameter.id = y.parameter.id) :
    x.parameter = y.parameter := hapart _ (List.mem_map_of_mem hx) _ (List.mem_map_of_mem hy) hid

theorem named_ok_iff : (∃ x, a.named name = .ok x) ↔ (∃ x ∈ a.entries, x.parameter.name = some name) ∧
    ∀ x ∈ a.entries, ∀ y ∈ a.entries, x.parameter.name = some name → y.parameter.name = some name →
      x.parameter = y.parameter := by
  rcases a.named_cases name with ⟨herr, hnone⟩ | ⟨x, hx, y, hy, hxname, hyname, hne, herr⟩ | ⟨x, rest, hok, hfilter, hone⟩
  · rw [herr]
    exact iff_of_false (fun ⟨_, h⟩ => by cases h) fun ⟨⟨x, hx, hname⟩, _⟩ => hnone x hx hname
  · rw [herr]
    refine iff_of_false (fun ⟨_, h⟩ => by cases h) fun ⟨_, hsame⟩ => hne ?_
    rw [hsame y hy x hx hyname hxname]
  · have hmem : x ∈ (a.entries.filter fun e => e.parameter.name = some name) := hfilter ▸ List.mem_cons_self
    obtain ⟨hx, hname⟩ := List.mem_filter.mp hmem
    refine iff_of_true ⟨x, hok⟩ ⟨⟨x, hx, of_decide_eq_true hname⟩, fun y hy z hz hyname hzname => ?_⟩
    exact parameter_eq hapart hy hz ((hone y hy hyname).trans (hone z hz hzname).symm)

theorem named_ambiguous_iff : a.named name = .error (.ambiguousParameter name) ↔ ∃ x ∈ a.entries, ∃ y ∈ a.entries,
    x.parameter.name = some name ∧ y.parameter.name = some name ∧ x.parameter ≠ y.parameter := by
  rcases a.named_cases name with ⟨herr, hnone⟩ | ⟨x, hx, y, hy, hxname, hyname, hne, herr⟩ | ⟨x, rest, hok, -, hone⟩
  · rw [herr]
    exact iff_of_false (fun h => by cases h) fun ⟨x, hx, _, _, hname, _⟩ => hnone x hx hname
  · exact iff_of_true herr ⟨x, hx, y, hy, hxname, hyname, fun h => hne (h ▸ rfl)⟩
  · rw [hok]
    refine iff_of_false (fun h => by cases h) fun ⟨y, hy, z, hz, hyname, hzname, hne⟩ => hne ?_
    exact parameter_eq hapart hy hz ((hone y hy hyname).trans (hone z hz hzname).symm)

theorem ofParameter_named {x : Entry} (h : a.named name = .ok x) :
    x ∈ a.entries ∧ x.parameter.name = some name ∧ a.ofParameter x.parameter = some x := by
  rcases a.named_cases name with ⟨herr, -⟩ | ⟨_, _, _, _, _, _, _, herr⟩ | ⟨x', rest, hok, hfilter, -⟩
  · cases herr.symm.trans h
  · cases herr.symm.trans h
  · obtain rfl : x' = x := Except.ok.inj (hok.symm.trans h)
    have hmem : x' ∈ (a.entries.filter fun e => e.parameter.name = some name) := hfilter ▸ List.mem_cons_self
    obtain ⟨hx, hname⟩ := List.mem_filter.mp hmem
    have hname := of_decide_eq_true hname
    refine ⟨hx, hname, ?_⟩
    have hfirst : (x' :: rest).find? (fun y => y.parameter.id = x'.parameter.id) = some x' :=
      List.find?_cons_of_pos (decide_eq_true rfl)
    rw [← hfilter, find?_filter_of_imp] at hfirst
    · exact hfirst
    · intro y hy hid
      rw [parameter_eq hapart hy hx (of_decide_eq_true hid)]
      exact decide_eq_true hname

end Named

def entryOf (e : Env) (slot : Slot) : Entry :=
  ⟨slot.parameter, e.store.ty slot.cell, e.store.value slot.cell, aliasesOf e e.queryArguments slot⟩

theorem ofEnv_entries (e : Env) : (ofEnv e).entries = e.queryArguments.map (entryOf e) := rfl

theorem coherent_of_represents {actuals : List Actual} (hapart : Actual.Apart actuals) (h : e.Represents actuals) :
    (ofEnv e).Coherent e actuals := by
  have hparameters : (ofEnv e).entries.map Entry.parameter = actuals := by
    rw [ofEnv_entries, List.map_map]
    exact h.parameters
  have hslots : Actual.Apart (e.queryArguments.map Slot.parameter) := h.parameters.symm ▸ hapart
  have hentries : Actual.Apart ((ofEnv e).entries.map Entry.parameter) := hparameters.symm ▸ hapart
  have hmem {slot other : Slot} (hs : slot ∈ e.queryArguments) (ho : other ∈ e.queryArguments) :
      other.parameter ∈ (entryOf e slot).aliases ↔
        other.parameter ≠ slot.parameter ∧ e.store.find other.cell = e.store.find slot.cell :=
    mem_aliasesOf h.together hslots hs ho
  have hpicked (slot : Slot) : (entryOf e slot).aliases =
      (Actual.distinct actuals).filter (shares e e.queryArguments slot) := by
    rw [← h.parameters]
    exact aliasesOf_eq h.together slot
  have hentry {x : Entry} (hx : x ∈ (ofEnv e).entries) : ∃ slot ∈ e.queryArguments, entryOf e slot = x :=
    List.mem_map.mp hx
  have hat {i : Nat} {x : Entry} {slot : Slot} (hx : (ofEnv e).entries[i]? = some x)
      (hs : e.queryArguments[i]? = some slot) : slot ∈ e.queryArguments ∧ x = entryOf e slot := by
    rw [ofEnv_entries, List.getElem?_map, hs] at hx
    exact ⟨List.mem_of_getElem? hs, (Option.some.inj hx).symm⟩
  constructor
  case parameters => exact ⟨hparameters, h.parameters⟩
  case named_iff => exact named_ok_iff hentries
  case ambiguous_iff => exact named_ambiguous_iff hentries
  case found => exact fun name x => ofParameter_named hentries name
  case state =>
    intro i x slot hx hs
    obtain ⟨-, rfl⟩ := hat hx hs
    exact ⟨rfl, rfl⟩
  case aliases_iff =>
    intro i j x y slot other hx hy hs ho
    obtain ⟨hslot, rfl⟩ := hat hx hs
    obtain ⟨hother, rfl⟩ := hat hy ho
    exact hmem hslot hother
  case other =>
    intro x hx
    obtain ⟨slot, hslot, rfl⟩ := hentry hx
    refine ⟨fun hown => ((hmem hslot hslot).mp hown).1 rfl, fun p hp => ?_⟩
    rw [hpicked] at hp
    exact (Actual.mem_distinct hapart).mp (List.mem_filter.mp hp).1
  case ordered =>
    intro x hx
    obtain ⟨slot, -, rfl⟩ := hentry hx
    rw [hpicked]
    exact (Actual.ordered_distinct actuals).filter _
  case nodup =>
    intro x hx
    obtain ⟨slot, -, rfl⟩ := hentry hx
    rw [hpicked]
    refine List.Pairwise.imp (fun hlt heq => ?_) ((Actual.ordered_distinct actuals).filter _)
    rw [heq] at hlt
    exact Nat.lt_irrefl _ hlt
  case symm =>
    intro x hx y hy hne
    obtain ⟨slot, hslot, rfl⟩ := hentry hx
    obtain ⟨other, hother, rfl⟩ := hentry hy
    exact (hmem hslot hother).trans ((and_congr ne_comm eq_comm).trans (hmem hother hslot).symm)
  case trans =>
    intro x hx y hy z hz hne hxy hyz
    obtain ⟨slot, hslot, rfl⟩ := hentry hx
    obtain ⟨other, hother, rfl⟩ := hentry hy
    obtain ⟨third, hthird, rfl⟩ := hentry hz
    obtain ⟨-, hfirst⟩ := (hmem hslot hother).mp hxy
    obtain ⟨-, hsecond⟩ := (hmem hother hthird).mp hyz
    exact (hmem hslot hthird).mpr ⟨hne.symm, hsecond.trans hfirst⟩
  case agree =>
    intro x hx y hy hxy
    obtain ⟨slot, hslot, rfl⟩ := hentry hx
    obtain ⟨other, hother, rfl⟩ := hentry hy
    have hfind : e.store.find slot.cell = e.store.find other.cell := by
      rcases hxy with hsame | hlisted
      · exact h.together slot hslot other hother (congrArg Actual.id hsame)
      · exact ((hmem hslot hother).mp hlisted).2.symm
    exact ⟨by rw [entryOf, entryOf, Store.ty_eq, Store.ty_eq, hfind], Store.value_congr hfind⟩

/-- In every frame of a query, and so wherever a branch of the query stands, the answer is a coherent snapshot. -/
theorem snapshots_cohere {actuals : List Actual} (hapart : Actual.Apart actuals) :
    (∀ (formals : List Formal) (e : Env), Env.Arises formals actuals e → (ofEnv e).Coherent e actuals) ∧
    ∀ (σ : Type) (src : Source σ), src.Authored → ∀ r : Resolvent σ, src.Reaches actuals r →
      (ofEnv r.env).Coherent r.env actuals := by
  have hframe (formals : List Formal) (e : Env) (h : Env.Arises formals actuals e) : (ofEnv e).Coherent e actuals :=
    coherent_of_represents hapart h.represents
  refine ⟨hframe, fun σ src hsrc r hr => ?_⟩
  obtain ⟨formals, harises⟩ := hr.arises hsrc
  exact hframe formals r.env harises

end Answer

def namedOutput (n : Nat) (name : String) : Actual := .output (.shared n) (some name) .int none

/-- A query that passes its first argument twice, and another argument of a second name. -/
def repeated : List Actual := [namedOutput 0 "x", namedOutput 1 "y", namedOutput 0 "x"]

/-- The two arguments become one. -/
theorem repeated_coheres : ∃ e, Env.Arises [⟨0, "a", .int⟩, ⟨1, "b", .int⟩, ⟨2, "c", .int⟩] repeated e ∧
    (Answer.ofEnv e).Coherent e repeated ∧
    (Answer.ofEnv e).entries.map Answer.Entry.aliases = [[namedOutput 1 "y"], [namedOutput 0 "x"], [namedOutput 1 "y"]] ∧
    ∃ x, (Answer.ofEnv e).named "x" = .ok x ∧ (Answer.ofEnv e).ofParameter (namedOutput 0 "x") = some x := by
  have hapart : Actual.Apart repeated := by simp [Actual.Apart, repeated, namedOutput, Actual.output]
  have harises : ∃ e, Env.Arises [⟨0, "a", .int⟩, ⟨1, "b", .int⟩, ⟨2, "c", .int⟩] repeated e ∧
      (Answer.ofEnv e).entries.map Answer.Entry.aliases = [[namedOutput 1 "y"], [namedOutput 0 "x"], [namedOutput 1 "y"]] ∧
      ((Answer.ofEnv e).named "x").toOption.map Answer.Entry.parameter = some (namedOutput 0 "x") :=
    ⟨_, .stored (.query rfl) (.unified (a := 0) (b := 1) (by decide +kernel) (by decide +kernel)), by decide +kernel,
      by decide +kernel⟩
  obtain ⟨e, he, haliases, hnamed⟩ := harises
  have hcoherent := (Answer.snapshots_cohere hapart).1 _ e he
  refine ⟨e, he, hcoherent, haliases, ?_⟩
  cases hx : (Answer.ofEnv e).named "x" with
  | error err =>
      rw [hx] at hnamed
      cases hnamed
  | ok x =>
      rw [hx] at hnamed
      obtain ⟨-, -, hfound⟩ := hcoherent.found "x" x hx
      have hparameter : x.parameter = namedOutput 0 "x" := Option.some.inj hnamed
      exact ⟨x, rfl, hparameter ▸ hfound⟩

end Clausal
