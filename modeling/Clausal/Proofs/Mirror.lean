import Clausal.Proofs.Aliases
import Mathlib.Order.MinMax

/-! Mirrored stores. Two calls may stand in different surroundings: among other cells, at other depths, with
logs of other lengths. A mirror takes the cells that the one callee can get at to those that the other can
get at, in their order, and new cells to new cells. Main statements: what is done to corresponding cells of
mirrored stores has the same result on both sides, and leaves the stores mirrored. -/
namespace Clausal

namespace Alias

/-- The alias as it is seen from a scope of this depth. What stands no deeper counts as depth 0. -/
def relative (depth : Nat) (a : Alias) : Alias := { a with depth := a.depth - depth }

theorem map_relative_add (depth : Nat) (aliases : List Alias) (a : Alias) :
    (add aliases a).map (relative depth) = add (aliases.map (relative depth)) (a.relative depth) := by
  have hany : ((aliases.map (relative depth)).any fun b => b.parameter.id = (a.relative depth).parameter.id) =
      aliases.any fun b => b.parameter.id = a.parameter.id := by
    rw [List.any_map]
    rfl
  unfold add
  rw [hany]
  split
  · rfl
  · exact List.map_append

theorem map_relative_join (depth : Nat) (older younger : List Alias) :
    (join older younger).map (relative depth) = join (older.map (relative depth)) (younger.map (relative depth)) := by
  induction younger generalizing older with
  | nil => rfl
  | cons a rest ih =>
      have hrest := ih (add older a)
      rw [map_relative_add] at hrest
      exact hrest

theorem map_parameter_relative (depth : Nat) (aliases : List Alias) :
    (aliases.map (relative depth)).map Alias.parameter = aliases.map Alias.parameter := by
  rw [List.map_map]
  rfl

/-- Inside the scope it is one thing to count depths from it and to count them from the outermost one. -/
theorem map_relative_filter (depth k : Nat) (aliases : List Alias) :
    (aliases.filter fun a => a.depth < depth + (k + 1)).map (relative depth) =
      (aliases.map (relative depth)).filter fun a => a.depth < k + 1 := by
  have hsame : (fun a : Alias => decide (a.depth < depth + (k + 1))) =
      (fun a : Alias => decide (a.depth < k + 1)) ∘ relative depth := by
    funext a
    apply decide_eq_decide.mpr
    change a.depth < depth + (k + 1) ↔ a.depth - depth < k + 1
    omega
  rw [List.filter_map, hsame]

end Alias

def Narrowing.move (g : Nat → Nat) (n : Narrowing) : Narrowing := { n with cell := g n.cell }

/-- Where a call stands: how many cells there are, how deep the innermost scope is, how long the log is. -/
structure Site where
  cells : Nat
  depth : Nat
  log : Nat

/-- The cells that the callee on the left can get at, and their images on the right. -/
structure Mirror where
  left : Site
  right : Site
  seen : Set Nat
  cell : Nat → Nat
  seen_new : ∀ k, left.cells + k ∈ seen
  cell_new : ∀ k, cell (left.cells + k) = right.cells + k
  mono : StrictMonoOn cell seen

namespace Store

variable {s : Store}

theorem own_of_ge {c : Nat} (h : s.cells.size ≤ c) : s.own c = .any := by
  rw [own, Array.getElem?_eq_none h]
  rfl

theorem held_of_ge {c : Nat} (h : s.cells.size ≤ c) : s.held c = none := by
  rw [held, Array.getElem?_eq_none h]
  rfl

end Store

namespace Mirror

variable {μ : Mirror} {s s' : Store} {c d k : Nat}

theorem lt_iff (hc : c ∈ μ.seen) (k : Nat) : μ.cell c < μ.right.cells + k ↔ c < μ.left.cells + k := by
  rw [← μ.cell_new k]
  exact μ.mono.lt_iff_lt hc (μ.seen_new k)

theorem eq_iff (hc : c ∈ μ.seen) (hd : d ∈ μ.seen) : μ.cell c = μ.cell d ↔ c = d :=
  ⟨fun heq => μ.mono.injOn hc hd heq, congrArg μ.cell⟩

theorem mem_map_iff {cells : List Nat} (hcells : ∀ d ∈ cells, d ∈ μ.seen) (hc : c ∈ μ.seen) :
    μ.cell c ∈ cells.map μ.cell ↔ c ∈ cells := by
  constructor
  · intro h
    obtain ⟨d, hd, heq⟩ := List.mem_map.mp h
    rwa [← (eq_iff (hcells d hd) hc).mp heq]
  · exact List.mem_map_of_mem

variable (μ)

/-- A cell and its image hold the same, and their aliases were introduced at corresponding depths. -/
structure Twins (s s' : Store) (c : Nat) : Prop where
  own : s'.own (μ.cell c) = s.own c
  held : s'.held (μ.cell c) = s.held c
  listed : (s'.listed (μ.cell c)).map (Alias.relative μ.right.depth) = (s.listed c).map (Alias.relative μ.left.depth)

/-- Both stores have grown by as many cells, and what they have narrowed since corresponds. Representatives
correspond, and hold the same. -/
structure Stores (s s' : Store) : Prop where
  size : ∃ k, s.cells.size = μ.left.cells + k ∧ s'.cells.size = μ.right.cells + k
  find : ∀ c ∈ μ.seen, s.find c ∈ μ.seen ∧ s'.find (μ.cell c) = μ.cell (s.find c)
  twins : ∀ c ∈ μ.seen, s.find c = c → μ.Twins s s' c
  log : ∃ recent old old', s.narrowings = recent ++ old ∧ s'.narrowings = recent.map (Narrowing.move μ.cell) ++ old' ∧
    old.length = μ.left.log ∧ old'.length = μ.right.log ∧ ∀ n ∈ recent, n.cell ∈ μ.seen

structure Roots (s : Store) (older younger : Nat) : Prop where
  older_mem : older ∈ μ.seen
  younger_mem : younger ∈ μ.seen
  lt : older < younger
  younger_lt : younger < s.cells.size
  older_root : s.find older = older
  younger_root : s.find younger = younger

def Marks (m m' : Mark) : Prop :=
  ∃ i j, m = ⟨μ.left.cells + i, μ.left.log + j⟩ ∧ m' = ⟨μ.right.cells + i, μ.right.log + j⟩

variable {μ}

/-- Cells that are not there are twins. -/
theorem Twins.of_ge (h : s.cells.size ≤ c) (h' : s'.cells.size ≤ μ.cell c) : μ.Twins s s' c where
  own := by rw [Store.own_of_ge h, Store.own_of_ge h']
  held := by rw [Store.held_of_ge h, Store.held_of_ge h']
  listed := by
    rw [Store.listed_of_ge h, Store.listed_of_ge h']
    rfl

theorem Roots.older_lt {older younger : Nat} (hr : μ.Roots s older younger) : older < s.cells.size :=
  Nat.lt_trans hr.lt hr.younger_lt

theorem Roots.find_link {older younger : Nat} (hr : μ.Roots s older younger) {ty : Ty} {value : Option Value}
    {aliases : List Alias} (i : Nat) :
    (s.link older younger ty value aliases).find i = if s.find i = younger then older else s.find i :=
  Store.find_link hr.lt hr.younger_lt hr.older_root hr.younger_root i

namespace Stores

theorem root (h : μ.Stores s s') (hc : c ∈ μ.seen) : μ.Twins s s' (s.find c) :=
  h.twins _ (h.find c hc).1 (s.find_find c)

theorem ty (h : μ.Stores s s') (hc : c ∈ μ.seen) : s'.ty (μ.cell c) = s.ty c := by
  rw [Store.ty_eq, Store.ty_eq, (h.find c hc).2]
  exact (h.root hc).own

theorem value (h : μ.Stores s s') (hc : c ∈ μ.seen) : s'.value (μ.cell c) = s.value c := by
  rw [Store.value_eq, Store.value_eq, (h.find c hc).2]
  exact (h.root hc).held

theorem entries (h : μ.Stores s s') (hc : c ∈ μ.seen) : (s'.entries (μ.cell c)).map (Alias.relative μ.right.depth) =
    (s.entries c).map (Alias.relative μ.left.depth) := by
  rw [Store.entries_eq, Store.entries_eq, (h.find c hc).2]
  exact (h.root hc).listed

theorem aliases (h : μ.Stores s s') (hc : c ∈ μ.seen) : s'.aliases (μ.cell c) = s.aliases c := by
  have hmap := congrArg (List.map Alias.parameter) (h.entries hc)
  rw [Alias.map_parameter_relative, Alias.map_parameter_relative] at hmap
  exact hmap

theorem find_eq_iff (h : μ.Stores s s') (hc : c ∈ μ.seen) (hd : d ∈ μ.seen) :
    s'.find (μ.cell c) = s'.find (μ.cell d) ↔ s.find c = s.find d := by
  rw [(h.find c hc).2, (h.find d hd).2]
  exact eq_iff (h.find c hc).1 (h.find d hd).1

theorem size_mem (h : μ.Stores s s') : s.cells.size ∈ μ.seen ∧ s'.cells.size = μ.cell s.cells.size := by
  obtain ⟨k, hk, hk'⟩ := h.size
  rw [hk, hk', μ.cell_new]
  exact ⟨μ.seen_new k, rfl⟩

theorem lt_size (h : μ.Stores s s') (hc : c ∈ μ.seen) : μ.cell c < s'.cells.size ↔ c < s.cells.size := by
  obtain ⟨k, hk, hk'⟩ := h.size
  rw [hk, hk']
  exact lt_iff hc k

theorem mark (h : μ.Stores s s') : μ.Marks s.mark s'.mark := by
  obtain ⟨k, hk, hk'⟩ := h.size
  obtain ⟨recent, old, old', hlog, hlog', hold, hold', -⟩ := h.log
  refine ⟨k, recent.length, ?_, ?_⟩
  · rw [Store.mark, hk, hlog, List.length_append, hold, Nat.add_comm recent.length]
  · rw [Store.mark, hk', hlog', List.length_append, List.length_map, hold', Nat.add_comm recent.length]

/-- Links may be shortened on both sides. -/
theorem of_alike (h : μ.Stores s s') {t t' : Store} (ht : s.Alike t) (ht' : s'.Alike t')
    (hlisted : ∀ i, t.listed i = s.listed i) (hlisted' : ∀ i, t'.listed i = s'.listed i) : μ.Stores t t' where
  size := by
    rw [ht.size_eq, ht'.size_eq]
    exact h.size
  find := fun c hc => by
    rw [ht.find_eq, ht'.find_eq]
    exact h.find c hc
  twins := fun c hc hroot => by
    rw [ht.find_eq] at hroot
    have htwins := h.twins c hc hroot
    constructor
    · rw [ht.own_eq, ht'.own_eq]
      exact htwins.own
    · rw [ht.held_eq, ht'.held_eq]
      exact htwins.held
    · rw [hlisted, hlisted']
      exact htwins.listed
  log := by
    rw [ht.narrowings_eq, ht'.narrowings_eq]
    exact h.log

theorem compressAll (h : μ.Stores s s') (slots slots' : List Slot) :
    μ.Stores (slots.foldl (fun s slot => s.compress slot.cell) s)
      (slots'.foldl (fun s slot => s.compress slot.cell) s') :=
  h.of_alike (Store.alike_compressAll s slots) (Store.alike_compressAll s' slots')
    (Store.listed_compressAll s slots) (Store.listed_compressAll s' slots')

theorem allocateFor (h : μ.Stores s s') (a : Actual) (k : Nat) :
    μ.Stores (s.allocateFor a (μ.left.depth + k)).2 (s'.allocateFor a (μ.right.depth + k)).2 where
  size := by
    obtain ⟨n, hn, hn'⟩ := h.size
    exact ⟨n + 1, by simp [hn, Nat.add_assoc], by simp [hn', Nat.add_assoc]⟩
  find := fun c hc => by simpa using h.find c hc
  twins := fun c hc hroot => by
    rw [Store.find_allocateFor] at hroot
    have htwins := h.twins c hc hroot
    have hnew : μ.cell c = s'.cells.size ↔ c = s.cells.size := by
      rw [h.size_mem.2]
      exact eq_iff hc h.size_mem.1
    constructor
    · simp only [Store.own_allocateFor, hnew, htwins.own]
    · simp only [Store.held_allocateFor, hnew, htwins.held]
    · simp only [Store.listed_allocateFor, hnew]
      split
      · simp [Alias.relative]
      · exact htwins.listed
  log := h.log

theorem bind (h : μ.Stores s s') (hc : c ∈ μ.seen) (hroot : s.find c = c) (hsize : c < s.cells.size) (v : Value) :
    μ.Stores (s.modify c fun cell => { cell with value := some v })
      (s'.modify (μ.cell c) fun cell => { cell with value := some v }) where
  size := by simpa using h.size
  find := fun d hd => by simpa using h.find d hd
  twins := fun d hd hdroot => by
    rw [Store.find_bind] at hdroot
    have htwins := h.twins d hd hdroot
    constructor
    · simpa using htwins.own
    · by_cases hdc : d = c
      · subst hdc
        have hsize' := (h.lt_size hd).mpr hsize
        simp only [Store.held, Store.getElem?_modify, if_pos, Array.getElem?_eq_getElem hsize,
          Array.getElem?_eq_getElem hsize']
        rfl
      · rw [Store.held_bind v hdc, Store.held_bind v fun heq => hdc ((eq_iff hd hc).mp heq)]
        exact htwins.held
    · simpa using htwins.listed
  log := h.log

theorem bindOrCheck (h : μ.Stores s s') (hc : c ∈ μ.seen) (hsize : c < s.cells.size) (v : Value) :
    (s'.bindOrCheck (μ.cell c) v).1 = (s.bindOrCheck c v).1 ∧
      μ.Stores (s.bindOrCheck c v).2 (s'.bindOrCheck (μ.cell c) v).2 := by
  unfold Store.bindOrCheck Store.bindValue
  rw [h.value hc, h.ty hc, (h.find c hc).2]
  cases hv : s.value c with
  | some w => exact ⟨rfl, h⟩
  | none =>
      simp only
      by_cases hacc : (s.ty c).Accepts v.ty
      · rw [if_pos hacc, if_pos hacc]
        exact ⟨rfl, h.bind (h.find c hc).1 (s.find_find c) (Store.find_lt hsize) v⟩
      · rw [if_neg hacc, if_neg hacc]
        exact ⟨rfl, h⟩

section Link

variable {older younger : Nat} {aliases aliases' : List Alias} {ty : Ty} {value : Option Value}

theorem find_link (h : μ.Stores s s') (hr : μ.Roots s older younger) (i : Nat) :
    (s'.link (μ.cell older) (μ.cell younger) ty value aliases').find i =
      if s'.find i = μ.cell younger then μ.cell older else s'.find i := by
  apply Store.find_link (μ.mono hr.older_mem hr.younger_mem hr.lt) ((h.lt_size hr.younger_mem).mpr hr.younger_lt)
  · rw [(h.find older hr.older_mem).2, hr.older_root]
  · rw [(h.find younger hr.younger_mem).2, hr.younger_root]

/-- The older representatives hold the same when they have taken over the younger ones. The others still do. -/
theorem twins_link (h : μ.Stores s s') (hr : μ.Roots s older younger)
    (haliases : aliases'.map (Alias.relative μ.right.depth) = aliases.map (Alias.relative μ.left.depth))
    (hc : c ∈ μ.seen) (hroot : (s.link older younger ty value aliases).find c = c) :
    μ.Twins (s.link older younger ty value aliases) (s'.link (μ.cell older) (μ.cell younger) ty value aliases') c := by
  have hsize' := (h.lt_size hr.older_mem).mpr hr.older_lt
  have ho' : μ.cell c = μ.cell older ↔ c = older := eq_iff hc hr.older_mem
  have hy' : μ.cell c = μ.cell younger ↔ c = younger := eq_iff hc hr.younger_mem
  rw [hr.find_link] at hroot
  have hself : c ≠ older → s.find c = c := by
    intro hne
    split at hroot
    · exact absurd hroot.symm hne
    · exact hroot
  have hcy : c ≠ younger := by
    rintro rfl
    rw [if_pos hr.younger_root] at hroot
    exact Nat.ne_of_lt hr.lt hroot
  constructor
  · rw [Store.own_link hr.older_lt, Store.own_link hsize']
    simp only [ho']
    split
    · rfl
    · exact (h.twins c hc (hself ‹_›)).own
  · rw [Store.held_link hr.older_lt, Store.held_link hsize']
    simp only [ho', hy', if_neg hcy]
    split
    · rfl
    · exact (h.twins c hc (hself ‹_›)).held
  · rw [Store.listed_link hr.older_lt, Store.listed_link hsize']
    simp only [ho', hy', if_neg hcy]
    split
    · exact haliases
    · exact (h.twins c hc (hself ‹_›)).listed

theorem link (h : μ.Stores s s') (hr : μ.Roots s older younger) (ty : Ty) (value : Option Value)
    (haliases : aliases'.map (Alias.relative μ.right.depth) = aliases.map (Alias.relative μ.left.depth)) :
    μ.Stores (s.link older younger ty value aliases)
      (s'.link (μ.cell older) (μ.cell younger) ty value aliases') where
  size := by simpa using h.size
  find := fun c hc => by
    obtain ⟨hmem, hfind⟩ := h.find c hc
    rw [hr.find_link, h.find_link hr, hfind]
    simp only [eq_iff hmem hr.younger_mem]
    split
    · exact ⟨hr.older_mem, rfl⟩
    · exact ⟨hmem, rfl⟩
  twins := fun c hc => h.twins_link hr haliases hc
  log := by
    have hroot' : s'.find (μ.cell older) = μ.cell older := by rw [(h.find older hr.older_mem).2, hr.older_root]
    obtain ⟨recent, old, old', hlog, hlog', hold, hold', hrecent⟩ := h.log
    rw [Store.narrowings_link hr.older_root, Store.narrowings_link hroot',
      (h.twins older hr.older_mem hr.older_root).own]
    split
    · exact ⟨recent, old, old', hlog, hlog', hold, hold', hrecent⟩
    · refine ⟨⟨older, s.own older⟩ :: recent, old, old', ?_, ?_, hold, hold', fun n hn => ?_⟩
      · rw [hlog]
        rfl
      · rw [hlog']
        rfl
      · rcases List.mem_cons.mp hn with rfl | hn
        · exact hr.older_mem
        · exact hrecent n hn

theorem merge (h : μ.Stores s s') (hr : μ.Roots s older younger) :
    (s'.merge (μ.cell older) (μ.cell younger)).1 = (s.merge older younger).1 ∧
      μ.Stores (s.merge older younger).2 (s'.merge (μ.cell older) (μ.cell younger)).2 := by
  unfold Store.merge
  rw [h.ty hr.older_mem, h.ty hr.younger_mem, h.value hr.older_mem, h.value hr.younger_mem]
  cases (s.ty older).meet (s.ty younger) with
  | none => exact ⟨rfl, h⟩
  | some ty =>
      have hjoin : (Alias.join (s'.entries (μ.cell older)) (s'.entries (μ.cell younger))).map
          (Alias.relative μ.right.depth) =
            (Alias.join (s.entries older) (s.entries younger)).map (Alias.relative μ.left.depth) := by
        rw [Alias.map_relative_join, Alias.map_relative_join, h.entries hr.older_mem, h.entries hr.younger_mem]
      simp only
      cases (s.value older <|> s.value younger) with
      | none => exact ⟨rfl, h.link hr ty none hjoin⟩
      | some v =>
          simp only
          split
          · exact ⟨rfl, h.link hr ty (some v) hjoin⟩
          · exact ⟨rfl, h.link hr ty (some v) (h.entries hr.older_mem)⟩

end Link

theorem unify (h : μ.Stores s s') (hc : c ∈ μ.seen) (hd : d ∈ μ.seen) (hcsize : c < s.cells.size)
    (hdsize : d < s.cells.size) : (s'.unify (μ.cell c) (μ.cell d)).1 = (s.unify c d).1 ∧
      μ.Stores (s.unify c d).2 (s'.unify (μ.cell c) (μ.cell d)).2 := by
  obtain ⟨hcroot, hcfind⟩ := h.find c hc
  obtain ⟨hdroot, hdfind⟩ := h.find d hd
  have hmerge : s.find c ≠ s.find d →
      (s'.merge (min (μ.cell (s.find c)) (μ.cell (s.find d))) (max (μ.cell (s.find c)) (μ.cell (s.find d)))).1 =
        (s.merge (min (s.find c) (s.find d)) (max (s.find c) (s.find d))).1 ∧
      μ.Stores (s.merge (min (s.find c) (s.find d)) (max (s.find c) (s.find d))).2
        (s'.merge (min (μ.cell (s.find c)) (μ.cell (s.find d)))
          (max (μ.cell (s.find c)) (μ.cell (s.find d)))).2 := by
    intro hne
    rw [← μ.mono.monotoneOn.map_min hcroot hdroot, ← μ.mono.monotoneOn.map_max hcroot hdroot]
    rcases Nat.lt_or_gt_of_ne hne with hlt | hlt
    · rw [Nat.min_eq_left (Nat.le_of_lt hlt), Nat.max_eq_right (Nat.le_of_lt hlt)]
      exact h.merge ⟨hcroot, hdroot, hlt, Store.find_lt hdsize, s.find_find c, s.find_find d⟩
    · rw [Nat.min_eq_right (Nat.le_of_lt hlt), Nat.max_eq_left (Nat.le_of_lt hlt)]
      exact h.merge ⟨hdroot, hcroot, hlt, Store.find_lt hcsize, s.find_find d, s.find_find c⟩
  unfold Store.unify
  rw [hcfind, hdfind, h.value hc, h.value hd]
  simp only [eq_iff hcroot hdroot]
  by_cases hcd : s.find c = s.find d
  · rw [if_pos hcd, if_pos hcd]
    exact ⟨rfl, h⟩
  · rw [if_neg hcd, if_neg hcd]
    cases s.value c with
    | none => exact hmerge hcd
    | some v =>
        cases s.value d with
        | none => exact hmerge hcd
        | some w => exact ⟨rfl, h⟩

/-- Closing corresponding scopes forgets corresponding cells and aliases, and undoes corresponding narrowings. -/
theorem closeScope (h : μ.Stores s s') (hs : s.Valid) (hs' : s'.Valid) {m m' : Mark} (hm : μ.Marks m m')
    (hsize : m.cells ≤ s.cells.size) (k : Nat) :
    μ.Stores (s.closeScope (μ.left.depth + (k + 1)) m) (s'.closeScope (μ.right.depth + (k + 1)) m') := by
  obtain ⟨i, j, rfl, rfl⟩ := hm
  obtain ⟨n, hn, hn'⟩ := h.size
  obtain ⟨recent, old, old', hlog, hlog', hold, hold', hrecent⟩ := h.log
  have hsize' : μ.right.cells + i ≤ s'.cells.size := by
    simp only at hsize
    omega
  have hleft : old.length ≤ μ.left.log + j := hold ▸ Nat.le_add_right ..
  have hright : old'.length ≤ μ.right.log + j := hold' ▸ Nat.le_add_right ..
  have hundone : s.undone ⟨μ.left.cells + i, μ.left.log + j⟩ = recent.take (recent.length - j) := by
    rw [Store.undone_eq hlog hleft, hold, Nat.add_sub_cancel_left]
  have hundone' : (s'.undone ⟨μ.right.cells + i, μ.right.log + j⟩).map Narrowing.cell =
      ((recent.take (recent.length - j)).map Narrowing.cell).map μ.cell := by
    rw [Store.undone_eq hlog' hright, hold', Nat.add_sub_cancel_left, List.length_map, ← List.map_take, List.map_map,
      List.map_map]
    rfl
  have hseen : ∀ d ∈ (recent.take (recent.length - j)).map Narrowing.cell, d ∈ μ.seen := by
    intro d hd
    obtain ⟨x, hx, rfl⟩ := List.mem_map.mp hd
    exact hrecent x (List.mem_of_mem_take hx)
  have hgone : ∀ c ∈ μ.seen, ¬c < μ.left.cells + i →
      (s.closeScope (μ.left.depth + (k + 1)) ⟨μ.left.cells + i, μ.left.log + j⟩).cells.size ≤ c ∧
        (s'.closeScope (μ.right.depth + (k + 1)) ⟨μ.right.cells + i, μ.right.log + j⟩).cells.size ≤ μ.cell c := by
    intro c hc hge
    rw [Store.size_closeScope _ hsize, Store.size_closeScope _ hsize']
    exact ⟨Nat.le_of_not_lt hge, Nat.le_of_not_lt fun hlt => hge ((lt_iff hc i).mp hlt)⟩
  constructor
  · exact ⟨i, Store.size_closeScope _ hsize, Store.size_closeScope _ hsize'⟩
  · intro c hc
    by_cases hlt : c < μ.left.cells + i
    · rw [Store.find_closeScope hs.wide _ hlt, Store.find_closeScope hs'.wide _ ((lt_iff hc i).mpr hlt)]
      exact h.find c hc
    · obtain ⟨hge, hge'⟩ := hgone c hc hlt
      rw [Store.find_of_ge hge, Store.find_of_ge hge']
      exact ⟨hc, rfl⟩
  · intro c hc hroot
    by_cases hlt : c < μ.left.cells + i
    · have hlt' := (lt_iff hc i).mpr hlt
      rw [Store.find_closeScope hs.wide _ hlt] at hroot
      have htwins := h.twins c hc hroot
      constructor
      · rw [Store.own_closeScope hs.wide _ hlt, Store.own_closeScope hs'.wide _ hlt', hundone, hundone', htwins.own]
        simp only [mem_map_iff hseen hc]
      · rw [Store.held_closeScope hs.wide _ hlt, Store.held_closeScope hs'.wide _ hlt']
        exact htwins.held
      · rw [Store.listed_closeScope hs.wide _ hlt, Store.listed_closeScope hs'.wide _ hlt', Alias.map_relative_filter,
          Alias.map_relative_filter, htwins.listed]
    · obtain ⟨hge, hge'⟩ := hgone c hc hlt
      exact .of_ge hge hge'
  · refine ⟨recent.drop (recent.length - j), old, old', ?_, ?_, hold, hold', fun x hx => ?_⟩
    · rw [Store.narrowings_closeScope _ hlog hleft, hold, Nat.add_sub_cancel_left]
    · rw [Store.narrowings_closeScope _ hlog' hright, hold', Nat.add_sub_cancel_left, List.length_map, List.map_drop]
    · exact hrecent x (List.mem_of_mem_drop hx)

end Stores
end Mirror
end Clausal
