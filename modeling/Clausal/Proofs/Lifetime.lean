import Clausal.Proofs.Scopes

/-! What lasts as long as a scope is open. Scopes are opened and closed inside it, and the cells that
it started with stay. Main statements: those cells stay in one class and a class keeps its value, the
scope's arguments go on to denote the same variables, and a cell's type, with all narrowings undone
that inner scopes have made, is changed by steps of the scope itself alone. -/
namespace Clausal

namespace Env

/-- The scope that was the innermost one of an environment is still open. Inside it there are these
scopes now, and this is what has become of it. -/
structure Above (b : Env) (inner : List Scope) (sc : Scope) (e : Env) : Prop where
  stack : e.scope :: e.enclosing = inner ++ sc :: b.enclosing
  marks : ∀ i ∈ inner, b.store.cells.size ≤ i.mark.cells
  size_le : b.store.cells.size ≤ e.store.cells.size
  together : ∀ x y, x < b.store.cells.size → y < b.store.cells.size →
    b.store.find x = b.store.find y → e.store.find x = e.store.find y
  keeps : ∀ c < b.store.cells.size, ∀ v, b.store.value c = some v → e.store.value c = some v
  moved : ∃ g, sc.arguments = moveAll g b.scope.arguments ∧
    ∀ c < b.store.cells.size, g c ≤ c ∧ e.store.find (g c) = e.store.find c

theorem Above.refl (b : Env) : b.Above [] b.scope b where
  stack := rfl
  marks := fun _ h => absurd h List.not_mem_nil
  size_le := Nat.le_refl _
  together := fun _ _ _ _ h => h
  keeps := fun _ _ _ h => h
  moved := ⟨id, (moveAll_id _).symm, fun c _ => ⟨Nat.le_refl c, rfl⟩⟩

theorem Above.depth_eq {b e : Env} {inner : List Scope} {sc : Scope} (h : b.Above inner sc e) :
    e.depth = inner.length + b.depth := by
  have hlen := congrArg List.length h.stack
  simp only [List.length_cons, List.length_append] at hlen
  unfold depth
  omega

theorem Above.eq_nil {b e : Env} {inner : List Scope} {sc : Scope} (h : b.Above inner sc e)
    (hdepth : e.depth = b.depth) : inner = [] := by
  have hsum := h.depth_eq
  rw [hdepth] at hsum
  apply List.length_eq_zero_iff.mp
  omega

/-- A cell that is a representative at last has been one all the time. -/
theorem Above.root {b e : Env} {inner : List Scope} {sc : Scope} (h : b.Above inner sc e) {c : Nat}
    (hc : c < b.store.cells.size) (hroot : e.store.find c = c) : b.store.find c = c := by
  have hle := b.store.find_le c
  have hsame := h.together (b.store.find c) c (Nat.lt_of_le_of_lt hle hc) hc (b.store.find_find c)
  have hge := e.store.find_le (b.store.find c)
  rw [hsame, hroot] at hge
  exact Nat.le_antisymm hle hge

theorem Above.inside {b e e' : Env} {inner : List Scope} {sc : Scope} (h : b.Above inner sc e)
    (hin : e.Inside e') : ∃ inner' sc', b.Above inner' sc' e' ∧
      inner'.map Scope.mark = inner.map Scope.mark := by
  have hlt : ∀ {c}, c < b.store.cells.size → c < e.store.cells.size := fun hc => Nat.lt_of_lt_of_le hc h.size_le
  obtain ⟨g, hg, hmove⟩ := h.moved
  have hsize := Nat.le_trans h.size_le hin.grows.size_le
  have htogether : ∀ x y, x < b.store.cells.size → y < b.store.cells.size →
      b.store.find x = b.store.find y → e'.store.find x = e'.store.find y := fun x y hx hy hxy =>
    hin.grows.together x y (hlt hx) (hlt hy) (h.together x y hx hy hxy)
  have hkeeps : ∀ c < b.store.cells.size, ∀ v, b.store.value c = some v → e'.store.value c = some v :=
    fun c hc v hv => hin.grows.keeps c (hlt hc) v (h.keeps c hc v hv)
  have hfind : ∀ c < b.store.cells.size, e'.store.find (g c) = e'.store.find c := fun c hc =>
    hin.grows.together _ _ (Nat.lt_of_le_of_lt (hmove c hc).1 (hlt hc)) (hlt hc) (hmove c hc).2
  have hstack := h.stack
  cases inner with
  | nil =>
      obtain ⟨hscope, henc⟩ := List.cons.inj hstack
      obtain ⟨g', hg', hmove'⟩ := hin.moved
      refine ⟨[], e'.scope, ⟨?_, h.marks, hsize, htogether, hkeeps, g' ∘ g, ?_, fun c hc => ?_⟩, rfl⟩
      · rw [hin.enclosing_eq, henc]
        rfl
      · rw [hg', hscope, hg, moveAll_moveAll]
      · obtain ⟨hle, -⟩ := hmove c hc
        obtain ⟨hle', hfind'⟩ := hmove' (g c) (Nat.lt_of_le_of_lt hle (hlt hc))
        exact ⟨Nat.le_trans hle' hle, hfind'.trans (hfind c hc)⟩
  | cons i rest =>
      obtain ⟨hscope, henc⟩ := List.cons.inj hstack
      refine ⟨e'.scope :: rest, sc, ⟨?_, fun j hj => ?_, hsize, htogether, hkeeps, g, hg, fun c hc => ?_⟩, ?_⟩
      · rw [hin.enclosing_eq, henc]
        rfl
      · rcases List.mem_cons.mp hj with rfl | hj
        · rw [hin.mark_eq, hscope]
          exact h.marks i List.mem_cons_self
        · exact h.marks j (List.mem_cons_of_mem i hj)
      · exact ⟨(hmove c hc).1, hfind c hc⟩
      · rw [List.map_cons, List.map_cons, hin.mark_eq, hscope]

theorem Above.opened {b e : Env} {inner : List Scope} {sc : Scope} (h : b.Above inner sc e)
    (arguments : List (Formal × Slot)) :
    b.Above (⟨arguments, [], e.store.mark⟩ :: inner) sc (e.openScope arguments) where
  stack := congrArg (List.cons _) h.stack
  marks := fun i hi => by
    rcases List.mem_cons.mp hi with rfl | hi
    · exact h.size_le
    · exact h.marks i hi
  size_le := h.size_le
  together := h.together
  keeps := h.keeps
  moved := h.moved

/-- A scope that closes lies inside, if the one that was innermost is still open afterwards. -/
theorem Above.ne_nil {b e : Env} {inner : List Scope} {sc : Scope} (h : b.Above inner sc e) {outer : Scope}
    {rest : List Scope} (henc : e.enclosing = outer :: rest) (hdepth : b.depth ≤ rest.length) : inner ≠ [] := by
  rintro rfl
  have hlen := h.depth_eq
  rw [depth, henc] at hlen
  simp only [List.length_cons, List.length_nil] at hlen
  omega

theorem Above.dropped {b e : Env} {i : Scope} {inner : List Scope} {sc : Scope}
    (h : b.Above (i :: inner) sc e) (hs : e.Sound) {outer : Scope} {rest : List Scope}
    (henc : e.enclosing = outer :: rest) : b.Above inner sc (e.dropScope outer rest) := by
  obtain ⟨hscope, hstack⟩ := List.cons.inj h.stack
  have hmark : b.store.cells.size ≤ e.scope.mark.cells := by
    rw [hscope]
    exact h.marks i List.mem_cons_self
  have hlt : ∀ {c}, c < b.store.cells.size → c < e.scope.mark.cells := fun hc => Nat.lt_of_lt_of_le hc hmark
  have hfind : ∀ c < b.store.cells.size, (e.dropScope outer rest).store.find c = e.store.find c :=
    fun c hc => Store.find_closeScope hs.valid.wide e.depth (hlt hc)
  constructor
  case stack => exact henc.symm.trans hstack
  case marks => exact fun j hj => h.marks j (List.mem_cons_of_mem i hj)
  case size_le =>
    have hsize : (e.dropScope outer rest).store.cells.size = e.scope.mark.cells :=
      Store.size_closeScope e.depth hs.held.2.1
    rw [hsize]
    exact hmark
  case together =>
    intro x y hx hy hxy
    rw [hfind x hx, hfind y hy]
    exact h.together x y hx hy hxy
  case keeps =>
    intro c hc v hv
    exact (Store.value_closeScope hs.valid.wide e.depth (hlt hc)).trans (h.keeps c hc v hv)
  case moved =>
    obtain ⟨g, hg, hmove⟩ := h.moved
    refine ⟨g, hg, fun c hc => ⟨(hmove c hc).1, ?_⟩⟩
    rw [hfind c hc, hfind _ (Nat.lt_of_le_of_lt (hmove c hc).1 hc)]
    exact (hmove c hc).2

/-- A scope that closes inside takes no value from the cells of the one that was innermost, nor gives
them any. -/
theorem Above.value_closed {b e e' : Env} {inner : List Scope} {sc : Scope} (h : b.Above inner sc e) (hs : e.Sound)
    (hclose : e.closeScope = .ok e') (hdepth : b.depth ≤ e'.depth) {c : Nat} (hcell : c < b.store.cells.size) :
    e'.store.value c = e.store.value c := by
  obtain ⟨outer, rest, henc, rfl⟩ := closeScope_eq_ok.mp hclose
  have hinner := h.ne_nil henc hdepth
  cases inner with
  | nil => exact absurd rfl hinner
  | cons i inner =>
      obtain ⟨hscope, -⟩ := List.cons.inj h.stack
      have hmark : c < e.scope.mark.cells := by
        rw [hscope]
        exact Nat.lt_of_lt_of_le hcell (h.marks i List.mem_cons_self)
      have halike := Store.alike_compressAll (e.dropScope outer rest).store (e.dropScope outer rest).scope.slots
      exact (halike.value_eq c).trans (Store.value_closeScope hs.valid.wide e.depth hmark)

/-- A value that a class of such cells has got lasts as well. -/
theorem Above.value_change {b e e' : Env} {inner : List Scope} {sc : Scope} (h : b.Above inner sc e) (hs : e.Sound)
    (hc : Change e e') (hdepth : b.depth ≤ e'.depth) {c : Nat} (hcell : c < b.store.cells.size) {v : Value}
    (hv : e.store.value c = some v) : e'.store.value c = some v := by
  cases hc with
  | inside hin => exact hin.grows.keeps c (Nat.lt_of_lt_of_le hcell h.size_le) v hv
  | opened ha => exact hv
  | closed hclose => exact (h.value_closed hs hclose hdepth hcell).trans hv

/-- How long the log was when the first scope inside opened, or is if there is none. -/
def ownLog : Nat → List Scope → Nat
  | n, [] => n
  | _, i :: inner => ownLog i.mark.narrowings inner

theorem ownLog_le {m : Mark} {inner outer : List Scope} (h : Held m (inner ++ outer)) :
    ownLog m.narrowings inner ≤ m.narrowings := by
  induction inner generalizing m with
  | nil => exact Nat.le_refl _
  | cons i inner ih => exact Nat.le_trans (ih h.2.2.2) h.2.2.1

theorem ownLog_congr {m n : Nat} {inner inner' : List Scope} (h : inner'.map Scope.mark = inner.map Scope.mark)
    (hmn : inner = [] → m = n) : ownLog m inner' = ownLog n inner := by
  induction inner generalizing m n inner' with
  | nil =>
      obtain rfl : inner' = [] := List.map_eq_nil_iff.mp h
      exact hmn rfl
  | cons i inner ih =>
      cases inner' with
      | nil => cases h
      | cons i' inner' =>
          obtain ⟨hi, h⟩ := List.cons.inj h
          change ownLog i'.mark.narrowings inner' = ownLog i.mark.narrowings inner
          exact ih h fun _ => congrArg Mark.narrowings hi

/-- The type of a cell as the scope itself sees it, with the narrowings of the scopes inside undone. -/
def baseline (e : Env) (inner : List Scope) (c : Nat) : Ty :=
  e.store.ownAt (ownLog e.store.narrowings.length inner) c

theorem baseline_nil (e : Env) (c : Nat) : e.baseline [] c = e.store.own c := e.store.ownAt_length c

/-- Within inner scopes the store may grow, and the scope's own view of a type stays. -/
theorem baseline_of_grows {e e' : Env} (hs : e.Sound) (hg : e.store.Grows e'.store) {inner inner' outer : List Scope}
    (hstack : e.scope :: e.enclosing = inner ++ outer) (hne : inner ≠ [])
    (hmarks : inner'.map Scope.mark = inner.map Scope.mark) {c : Nat} (hc : c < e.store.cells.size) :
    e'.baseline inner' c = e.baseline inner c := by
  have hheld := hs.held
  rw [hstack] at hheld
  rw [baseline, ownLog_congr hmarks fun h => absurd h hne]
  exact hg.ownAt_eq (ownLog_le hheld) hc

theorem baseline_redirect (e : Env) {inner inner' : List Scope}
    (hmarks : inner'.map Scope.mark = inner.map Scope.mark) (c : Nat) :
    e.redirect.baseline inner' c = e.baseline inner c := by
  have halike := Store.alike_compressAll e.store e.scope.slots
  have hlog : e.redirect.store.narrowings = e.store.narrowings := halike.narrowings_eq
  have hown : e.redirect.store.own c = e.store.own c := halike.own_eq c
  have hsame : ownLog e.redirect.store.narrowings.length inner' = ownLog e.store.narrowings.length inner :=
    ownLog_congr hmarks fun _ => congrArg List.length hlog
  rw [baseline, hsame, baseline, Store.ownAt, Store.ownAt, hlog, hown]

/-- When a scope closes, the one outside sees the types that it has seen all along. -/
theorem baseline_dropped {e : Env} (hs : e.Sound) {outer : Scope} {rest inner outer' : List Scope}
    (henc : e.enclosing = inner ++ outer') {c : Nat} (hc : c < e.scope.mark.cells) :
    (e.dropScope outer rest).baseline inner c = e.baseline (e.scope :: inner) c := by
  obtain ⟨-, -, hnarrowings, hheld⟩ := hs.held
  rw [henc] at hheld
  have hlog : (e.dropScope outer rest).store.narrowings.length = e.scope.mark.narrowings := by
    change (e.store.narrowings.drop (e.store.narrowings.length - e.scope.mark.narrowings)).length = _
    rw [List.length_drop]
    exact Nat.sub_sub_self hnarrowings
  rw [baseline, hlog]
  exact Store.ownAt_closeScope hs.valid.wide e.depth (ownLog_le hheld) hnarrowings hc

/-- The scope that was innermost is open after a change if it was before, unless it is the one that
closes. Only changes of its own touch the types that it sees. -/
theorem Above.change {b e e' : Env} {inner : List Scope} {sc : Scope} (h : b.Above inner sc e) (hs : e.Sound)
    (hc : Change e e') (hdepth : b.depth ≤ e'.depth) :
    ∃ inner' sc', b.Above inner' sc' e' ∧ ∀ c < b.store.cells.size,
      e'.baseline inner' c = e.baseline inner c ∨ (inner = [] ∧ inner' = [] ∧ e.store.own c = .any) := by
  have hlt : ∀ {c}, c < b.store.cells.size → c < e.store.cells.size := fun hc => Nat.lt_of_lt_of_le hc h.size_le
  cases hc with
  | inside hin =>
      obtain ⟨inner', sc', h', hmarks⟩ := h.inside hin
      refine ⟨inner', sc', h', fun c hc => ?_⟩
      cases inner with
      | nil =>
          obtain rfl : inner' = [] := List.map_eq_nil_iff.mp hmarks
          rw [baseline_nil, baseline_nil]
          obtain ⟨recent, -, hown⟩ := hin.grows.log
          by_cases hmem : c ∈ recent.map Narrowing.cell
          · exact .inr ⟨rfl, rfl, (hown c (hlt hc)).1 hmem⟩
          · exact .inl ((hown c (hlt hc)).2 hmem)
      | cons i rest =>
          exact .inl (baseline_of_grows hs hin.grows h.stack (List.cons_ne_nil i rest) hmarks (hlt hc))
  | opened ha =>
      refine ⟨_, sc, h.opened _, fun c _ => .inl ?_⟩
      rw [baseline, ownLog]
      exact congrArg (fun n => e.store.ownAt n c) (ownLog_congr rfl fun _ => rfl)
  | closed hclose =>
      obtain ⟨outer, rest, henc, rfl⟩ := closeScope_eq_ok.mp hclose
      have hinner := h.ne_nil henc hdepth
      cases inner with
      | nil => exact absurd rfl hinner
      | cons i inner =>
          obtain ⟨inner', sc', h', hmarks⟩ := (h.dropped hs henc).inside (.redirect _)
          refine ⟨inner', sc', h', fun c hc => .inl ?_⟩
          obtain ⟨hscope, hstack⟩ := List.cons.inj h.stack
          have hcell : c < e.scope.mark.cells := by
            rw [hscope]
            exact Nat.lt_of_lt_of_le hc (h.marks i List.mem_cons_self)
          rw [baseline_redirect _ hmarks, baseline_dropped hs hstack hcell, hscope]

end Env
end Clausal
