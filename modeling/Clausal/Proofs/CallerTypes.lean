import Clausal.Proofs.Answers

/-! What an answer tells the caller about types. A callee's narrowings are undone when its scope closes,
but the classes that it has joined stay joined, under the type of the oldest cell. Main statement: an
entry has its parameter's type or a narrower one exactly if the oldest actual of its class has, or the
query's own body has narrowed the class. -/
namespace Clausal

variable {σ : Type}

/-- What the caller relies on. The entry's type is its parameter's own or narrower, and a value is of
the parameter's own type. -/
def Answer.Entry.Sound (e : Answer.Entry) : Prop :=
  e.parameter.ty.Accepts e.ty ∧ ∀ v, e.value = some v → e.parameter.ty.Accepts v.ty

instance (e : Answer.Entry) : Decidable e.Sound :=
  inferInstanceAs (Decidable (_ ∧ ∀ v ∈ e.value, e.parameter.ty.Accepts v.ty))

namespace Resolvent

/-- The query's own body narrows the class of a cell to a type that this one admits. -/
def Narrows (r₀ r : Resolvent σ) (c : Nat) (ty : Ty) : Prop :=
  ∃ r₁ r₂, r₀.Trail r₁ ∧ r₁.Step r₂ ∧ r₂.Trail r ∧ r₁.env.depth = 0 ∧ r₂.env.depth = 0 ∧
    r₁.env.store.ty c = .any ∧ ty.Accepts (r₂.env.store.ty c)

/-- A step of the query's own body narrows the cell itself from the widest type to this one. -/
def NarrowsCell (r₀ r : Resolvent σ) (c : Nat) (ty : Ty) : Prop :=
  ∃ r₁ r₂, r₀.Trail r₁ ∧ r₁.Step r₂ ∧ r₂.Trail r ∧ r₁.env.depth = 0 ∧ r₂.env.depth = 0 ∧
    r₁.env.store.own c = .any ∧ r₂.env.store.own c = ty

theorem NarrowsCell.tail {b r r' : Resolvent σ} {c : Nat} {ty : Ty} (h : b.NarrowsCell r c ty) (hstep : r.Step r') :
    b.NarrowsCell r' c ty := by
  obtain ⟨r₁, r₂, h₁, h₁₂, h₂, hrest⟩ := h
  exact ⟨r₁, r₂, h₁, h₁₂, h₂.tail hstep, hrest⟩

theorem Trail.baseline {b r : Resolvent σ} (h : b.Trail r) (hb : b.Shaped) (hdepth : b.env.depth = 0) :
    ∃ inner sc, b.env.Above inner sc r.env ∧ ∀ c < b.env.store.cells.size,
      r.env.baseline inner c = b.env.store.own c ∨
        (b.env.store.own c = .any ∧ b.NarrowsCell r c (r.env.baseline inner c)) := by
  induction h with
  | refl => exact ⟨[], _, .refl b.env, fun c _ => .inl (Env.baseline_nil b.env c)⟩
  | @tail r r' htrail hstep ih =>
      obtain ⟨inner, sc, habove, hown⟩ := ih
      have hr := Trail.shaped htrail hb
      obtain ⟨-, hchange⟩ := hstep.shaped hr
      obtain ⟨inner', sc', habove', hbase⟩ := habove.change hr.sound hchange (by rw [hdepth]; exact Nat.zero_le _)
      refine ⟨inner', sc', habove', fun c hc => ?_⟩
      rcases hbase c hc with hsame | ⟨rfl, rfl, hany⟩
      · rw [hsame]
        rcases hown c hc with hown | ⟨hwide, hnarrows⟩
        · exact .inl hown
        · exact .inr ⟨hwide, hnarrows.tail hstep⟩
      · right
        have hwide : b.env.store.own c = .any := by
          rcases hown c hc with hown | ⟨hwide, -⟩
          · rw [← hown, Env.baseline_nil]
            exact hany
          · exact hwide
        have hd : r.env.depth = 0 := by rw [habove.depth_eq, hdepth]; rfl
        have hd' : r'.env.depth = 0 := by rw [habove'.depth_eq, hdepth]; rfl
        exact ⟨hwide, r, r', htrail, hstep, .refl, hd, hd', hany, (Env.baseline_nil r'.env c).symm⟩

theorem Trail.own_eq_or_narrows {b r : Resolvent σ} (h : b.Trail r) (hb : b.Shaped) (hbd : b.env.depth = 0)
    (hdepth : r.env.depth = 0) {c : Nat} (hc : c < b.env.store.cells.size) :
    r.env.store.own c = b.env.store.own c ∨
      (b.env.store.own c = .any ∧ b.NarrowsCell r c (r.env.store.own c)) := by
  obtain ⟨inner, sc, habove, hbase⟩ := h.baseline hb hbd
  obtain rfl := habove.eq_nil (hdepth.trans hbd.symm)
  have hown := hbase c hc
  rw [Env.baseline_nil] at hown
  exact hown

/-- Seen from the end of a trail, a representative has been one since any time when only the query's
scope was open, and has had its own type for its class. -/
theorem Trail.ty_eq_own {b r : Resolvent σ} (h : b.Trail r) (hb : b.Shaped) (hdepth : b.env.depth = 0) {c : Nat}
    (hc : c < b.env.store.cells.size) (hroot : r.env.store.find c = c) :
    b.env.store.ty c = b.env.store.own c := by
  obtain ⟨inner, sc, habove, -⟩ := h.baseline hb hdepth
  rw [Store.ty_eq, habove.root hc hroot]

theorem Trail.accepts_own {b r : Resolvent σ} (h : b.Trail r) (hb : b.Shaped) (hbd : b.env.depth = 0)
    (hdepth : r.env.depth = 0) {c : Nat} (hc : c < b.env.store.cells.size) (hroot : r.env.store.find c = c)
    {ty : Ty} (hacc : ty.Accepts (b.env.store.ty c)) : ty.Accepts (r.env.store.own c) := by
  rw [h.ty_eq_own hb hbd hc hroot] at hacc
  rcases h.own_eq_or_narrows hb hbd hdepth hc with hsame | ⟨hany, -⟩
  · rw [hsame]
    exact hacc
  · rw [hany] at hacc
    exact .inl (hacc.elim id id)

/-- The type of a class at the end is that of its oldest cell at the start, or one that the query's own
body has narrowed it to. -/
theorem accepts_iff {r₀ r : Resolvent σ} (h₀ : r₀.Shaped) (hdepth₀ : r₀.env.depth = 0) (htrail : r₀.Trail r)
    (hdepth : r.env.depth = 0) {c : Nat} (hc : c < r₀.env.store.cells.size) (hroot : r.env.store.find c = c)
    (ty : Ty) : ty.Accepts (r.env.store.own c) ↔ ty.Accepts (r₀.env.store.ty c) ∨ r₀.Narrows r c ty := by
  have hsize {r₁ : Resolvent σ} (h₁ : r₀.Trail r₁) : c < r₁.env.store.cells.size := by
    obtain ⟨inner, sc, habove, -⟩ := h₁.baseline h₀ hdepth₀
    exact Nat.lt_of_lt_of_le hc habove.size_le
  constructor
  · intro hacc
    rcases htrail.own_eq_or_narrows h₀ hdepth₀ hdepth hc with hsame | ⟨-, r₁, r₂, h₁, h₁₂, h₂, hd₁, hd₂, hany, hown⟩
    · left
      rw [htrail.ty_eq_own h₀ hdepth₀ hc hroot, ← hsame]
      exact hacc
    · right
      have hs₁ := h₁.shaped h₀
      have hs₂ := (h₁₂.shaped hs₁).1
      refine ⟨r₁, r₂, h₁, h₁₂, h₂, hd₁, hd₂, ?_, ?_⟩
      · rw [Trail.ty_eq_own (h₂.head h₁₂) hs₁ hd₁ (hsize h₁) hroot]
        exact hany
      · rw [h₂.ty_eq_own hs₂ hd₂ (hsize (h₁.tail h₁₂)) hroot, hown]
        exact hacc
  · rintro (hacc | ⟨r₁, r₂, h₁, h₁₂, h₂, -, hd₂, -, hacc⟩)
    · exact htrail.accepts_own h₀ hdepth₀ hdepth hc hroot hacc
    · have hs₂ := (h₁₂.shaped (h₁.shaped h₀)).1
      exact h₂.accepts_own hs₂ hd₂ hdepth (hsize (h₁.tail h₁₂)) hroot hacc

theorem Starts.entries_parameter {actuals : List Actual} {c : Clause σ} {r₀ r : Resolvent σ}
    (h : Starts actuals c r₀) (htrail : r₀.Trail r) (hdepth : r.env.depth = 0) :
    (Answer.ofEnv r.env).entries.map Answer.Entry.parameter = actuals := by
  obtain ⟨slots, g, hseated, -, -, -, harguments, -⟩ := h.arguments htrail hdepth
  unfold Answer.ofEnv
  rw [harguments, List.map_map, List.map_map, ← hseated.parameters]
  rfl

theorem Starts.entry_iff {actuals : List Actual} {c : Clause σ} {r₀ r : Resolvent σ}
    (h : Starts actuals c r₀) (htrail : r₀.Trail r) (hdepth : r.env.depth = 0) {i : Nat} {entry : Answer.Entry}
    {slot : Slot} (hentry : (Answer.ofEnv r.env).entries[i]? = some entry)
    (hslot : r.env.queryArguments[i]? = some slot) :
    ∃ seat ∈ r₀.env.queryArguments, seat.cell = r.env.store.find slot.cell ∧
      (entry.Sound ↔ entry.parameter.ty.Accepts seat.parameter.ty ∨
        r₀.Narrows r seat.cell entry.parameter.ty) := by
  have hshaped := h.shaped
  have hend := htrail.shaped hshaped
  obtain ⟨slots, g, hseated, hdepth₀, -, hquery, harguments, -, hmove⟩ := h.arguments htrail hdepth
  have hof : (Answer.ofEnv r.env).entries[i]? = some (⟨slot.parameter, r.env.store.ty slot.cell,
      r.env.store.value slot.cell, Answer.aliasesOf r.env r.env.queryArguments slot⟩ : Answer.Entry) := by
    unfold Answer.ofEnv
    rw [List.getElem?_map, hslot]
    rfl
  rw [hof] at hentry
  cases hentry
  have hmem : slot ∈ slots.map (Slot.move g) := harguments ▸ List.mem_of_getElem? hslot
  obtain ⟨old, hold, rfl⟩ := List.mem_map.mp hmem
  have hcell : r.env.store.find (g old.cell) < r₀.env.store.cells.size :=
    Store.find_lt (Nat.lt_of_le_of_lt (hmove _ (hseated.bounded old hold)).1 (hseated.bounded old hold))
  obtain ⟨seat, hseat, hsc, hown, -⟩ := hseated.backed _ hcell
  refine ⟨seat, hquery ▸ hseat, hsc, ?_⟩
  have hroot : r.env.store.find seat.cell = seat.cell := by
    rw [hsc]
    exact r.env.store.find_find _
  have hty : r₀.env.store.ty seat.cell = seat.parameter.ty := by
    rw [hseated.ty_eq, hsc]
    exact hown
  have haccepts := accepts_iff hshaped hdepth₀ htrail hdepth (hsc ▸ hcell) hroot old.parameter.ty
  rw [hty, hsc] at haccepts
  rw [hsc]
  refine Iff.trans ?_ haccepts
  constructor
  · intro h
    exact h.1
  · intro h
    exact ⟨h, fun v hv => h.trans (hend.sound.valid.value_fits hv)⟩

end Resolvent

/-- Every answer is read off a completed branch and has an entry for each actual. Whatever branch it is
read off, an entry is sound exactly if the actual that its class goes back to has a type that the
parameter's type admits, or the query's own body has narrowed the class to such a type. Unifications in
callees alone never make it so. -/
theorem Search.entry_sound_iff {src : Source σ} (hsrc : src.Authored) {name : String} {actuals : List Actual}
    {t : Token} {s s' : Search σ} (hstart : start src name actuals t = .ok s) {w w' : World σ}
    {items : List Item} (hcalls : Calls s w items s' w') {a : Answer} (ha : .answer a ∈ items) :
    a.Derived σ actuals ∧ a.entries.map Answer.Entry.parameter = actuals ∧
      ∀ (c : Clause σ) (r₀ r : Resolvent σ), Resolvent.Starts actuals c r₀ → r₀.Trail r →
        r.agenda.toList = [] → a = Answer.ofEnv r.env → ∀ (i : Nat) (entry : Answer.Entry) (slot : Slot),
          a.entries[i]? = some entry → r.env.queryArguments[i]? = some slot →
            ∃ seat ∈ r₀.env.queryArguments, seat.cell = r.env.store.find slot.cell ∧
              (entry.Sound ↔ entry.parameter.ty.Accepts seat.parameter.ty ∨
                r₀.Narrows r seat.cell entry.parameter.ty) := by
  have hderived := answers_derived hsrc hstart hcalls ha
  refine ⟨hderived, ?_, ?_⟩
  · obtain ⟨c, r₀, r, hstarts, htrail, hnil, rfl⟩ := hderived
    exact hstarts.entries_parameter htrail ((htrail.shaped hstarts.shaped).depth_eq_zero hnil)
  · intro c r₀ r hstarts htrail hnil hof i entry slot hentry hslot
    subst hof
    have hdepth := (htrail.shaped hstarts.shaped).depth_eq_zero hnil
    exact hstarts.entry_iff htrail hdepth hentry hslot

/-- A clause unifies its formals, of which one is typed; another one calls it with its own formals and
then gives the untyped one a value. -/
def merging : Database Unit where
  clauses :=
    [⟨"eq", [⟨0, "p", .any⟩, ⟨1, "q", .int⟩],
      .fixed [.bind (.formal ⟨0, "p", .any⟩) (.param (.formal ⟨1, "q", .int⟩))], by decide, by decide⟩,
     ⟨"top", [⟨0, "fx", .any⟩, ⟨1, "fy", .int⟩],
      .fixed [.call "eq" [.param (.formal ⟨0, "fx", .any⟩), .param (.formal ⟨1, "fy", .int⟩)],
        .bind (.formal ⟨0, "fx", .any⟩) (.literal (.str "s"))], by decide, by decide⟩]

def merged : List Actual := [.output (.shared 0) (some "x") .any none, .output (.shared 1) (some "y") .int none]

theorem merging_authored : merging.source.Authored := by
  refine Database.source_authored fun c hc => ?_
  rcases List.mem_cons.mp hc with rfl | hc
  · exact Clause.authored_of_fixed rfl (by simp [Goal.Authored])
  · obtain rfl := List.mem_singleton.mp hc
    exact Clause.authored_of_fixed rfl (by simp [Goal.Authored])

theorem merging_answers :
    ∃ s, Search.start merging.source "top" merged "t" = .ok s ∧
      ∃ a s' w', Search.Calls s (World.start ()) [.answer a] s' w' ∧
        ∃ entry, a.entries[1]? = some entry ∧ entry.parameter.ty = .int ∧ entry.ty = .any ∧
          entry.value = some (.str "s") := by
  refine ⟨_, rfl, ?_⟩
  have hitem : (match (Search.next 5 ⟨merging.source, "top", "t", [.query "top" merged], none, false⟩
      (World.start ())).1.1 with
    | .answer a => a.entries[1]?.map fun e => (e.parameter.ty, e.ty, e.value)
    | _ => none) = some (.int, .any, some (.str "s")) := by decide +kernel
  generalize hnext : Search.next 5 _ _ = x at hitem
  obtain ⟨⟨item, s'⟩, w'⟩ := x
  cases item with
  | answer a =>
      obtain ⟨entry, hentry, hfields⟩ := Option.map_eq_some_iff.mp hitem
      simp only [Prod.mk.injEq] at hfields
      exact ⟨a, s', w', .cons 5 hnext (by simp) .nil, entry, hentry, hfields⟩
  | failed e => cases hitem
  | crashed c => cases hitem
  | ended => cases hitem
  | unfinished => cases hitem

theorem not_sound_of_widened {e : Answer.Entry} (hty : e.parameter.ty = .int) (hany : e.ty = .any) : ¬e.Sound := by
  rintro ⟨hacc, -⟩
  rw [hty, hany] at hacc
  exact absurd hacc (by decide)

/-- Entries are not sound for all authored sources. -/
theorem entries_may_be_unsound :
    ¬∀ (src : Source Unit) (name : String) (actuals : List Actual) (t : Token) (s s' : Search Unit)
        (w' : World Unit) (items : List Item) (a : Answer), src.Authored →
          Search.start src name actuals t = .ok s → Search.Calls s (World.start ()) items s' w' →
            .answer a ∈ items → ∀ e ∈ a.entries, e.Sound := by
  intro hall
  obtain ⟨s, hstart, a, s', w', hcalls, entry, hentry, hty, hany, -⟩ := merging_answers
  have hsound := hall _ _ _ _ s s' w' _ a merging_authored hstart hcalls (List.mem_singleton_self _) entry
    (List.mem_of_getElem? hentry)
  exact not_sound_of_widened hty hany hsound

/-- The class goes back to the untyped actual, and only the callee has narrowed it. -/
theorem merging_narrows_in_the_callee :
    ∃ (a : Answer) (r₀ r : Resolvent Unit), r₀.Trail r ∧ a = Answer.ofEnv r.env ∧
      ∃ seat ∈ r₀.env.queryArguments, ¬Ty.int.Accepts seat.parameter.ty ∧ ¬r₀.Narrows r seat.cell .int := by
  obtain ⟨s, hstart, a, s', w', hcalls, entry, hentry, hty, hany, -⟩ := merging_answers
  obtain ⟨⟨c, r₀, r, hstarts, htrail, hnil, ha⟩, -, hiff⟩ :=
    Search.entry_sound_iff merging_authored hstart hcalls (List.mem_singleton_self _)
  obtain ⟨slot, hslot⟩ : ∃ slot, r.env.queryArguments[1]? = some slot := by
    rw [ha] at hentry
    unfold Answer.ofEnv at hentry
    rw [List.getElem?_map] at hentry
    obtain ⟨slot, hslot, -⟩ := Option.map_eq_some_iff.mp hentry
    exact ⟨slot, hslot⟩
  obtain ⟨seat, hseat, -, hsound⟩ := hiff c r₀ r hstarts htrail hnil ha 1 entry slot hentry hslot
  have hunsound := not_sound_of_widened hty hany
  rw [hsound, hty, not_or] at hunsound
  exact ⟨a, r₀, r, htrail, ha, seat, hseat, hunsound⟩

end Clausal
