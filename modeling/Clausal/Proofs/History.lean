import Clausal.Proofs.Unification
import Clausal.Proofs.Rollback
import Mathlib.Logic.Function.Iterate

/-! The history of a store. Operations follow each other, whatever they come to, and scopes that open on
the way close again. Main statement: when a scope closes, the cells that are left have the classes and
the values that they had just before, and the types that they had when it opened. -/
namespace Clausal.Store

variable {s t u : Store}

/-- One operation on cells that there are. It may be refused, and keeps what it has changed by then. -/
inductive Operation : Store → Store → Prop where
  | allocated (s : Store) (ty : Ty) : Operation s (s.allocate ty).2
  | allocatedFor (s : Store) (a : Actual) (depth : Nat) : Operation s (s.allocateFor a depth).2
  | aliased {s : Store} {c : Nat} (a : Actual) (depth : Nat) : c < s.cells.size → Operation s (s.addAlias c a depth)
  | compressed {s : Store} {c : Nat} : c < s.cells.size → Operation s (s.compress c)
  | bound {s : Store} {c : Nat} (v : Value) : c < s.cells.size → Operation s (s.bindValue c v).2
  | checked {s : Store} {c : Nat} (v : Value) : c < s.cells.size → Operation s (s.bindOrCheck c v).2
  | unified {s : Store} {a b : Nat} : a < s.cells.size → b < s.cells.size → Operation s (s.unify a b).2

/-- Operations one after the other. A scope that opens on the way closes with the mark taken when it opened,
and forgets aliases of any depth. -/
inductive History : Store → Store → Prop where
  | refl (s : Store) : History s s
  | tail {s t u : Store} : History s t → Operation t u → History s u
  | scope {s t u : Store} (depth : Nat) : History s t → History t u → History s (u.closeScope depth t.mark)

/-- Links never lead to younger cells, and narrowings are all from the widest type. -/
structure Regular (s : Store) : Prop where
  parent_le : ∀ c, s.parent c ≤ c
  wide : s.Wide

theorem Regular.empty : Regular .empty where
  parent_le := fun c => Nat.le_refl c
  wide := fun _ h => absurd h List.not_mem_nil

/-- Following links leads to older cells only. -/
theorem Regular.iterate_le (h : s.Regular) (n c : Nat) : s.parent^[n] c ≤ c := by
  induction n generalizing c with
  | zero => exact Nat.le_refl c
  | succ n ih => exact Nat.le_trans (ih (s.parent c)) (h.parent_le c)

theorem Regular.of_parent (h : s.Regular) (hparent : ∀ c, t.parent c = s.parent c)
    (hlog : t.narrowings = s.narrowings) : t.Regular where
  parent_le := fun c => hparent c ▸ h.parent_le c
  wide := fun n hn => h.wide n (hlog ▸ hn)

section Bind

variable {c : Nat} {v : Value}

theorem bindValue_cases (s : Store) (c : Nat) (v : Value) : (s.bindValue c v).2 = s ∨
    (s.bindValue c v).2 = s.modify (s.find c) fun cell => { cell with value := some v } := by
  unfold bindValue
  split
  · exact .inl rfl
  · split
    · exact .inr rfl
    · exact .inl rfl

theorem bindOrCheck_store (s : Store) (c : Nat) (v : Value) :
    (s.bindOrCheck c v).2 = s ∨ (s.bindOrCheck c v).2 = (s.bindValue c v).2 := by
  unfold bindOrCheck
  split
  · exact .inl rfl
  · rcases s.bindValue c v with ⟨r, t⟩
    cases r <;> exact .inr rfl

/-- What holds before a binding and after it holds after a check. -/
theorem of_bindOrCheck {P : Store → Prop} (h : P s) (hbind : P (s.bindValue c v).2) : P (s.bindOrCheck c v).2 := by
  rcases bindOrCheck_store s c v with heq | heq
  · rw [heq]
    exact h
  · rw [heq]
    exact hbind

theorem size_bindValue (s : Store) (c : Nat) (v : Value) : (s.bindValue c v).2.cells.size = s.cells.size := by
  rcases bindValue_cases s c v with h | h
  · rw [h]
  · rw [h, size_modify]

theorem size_bindOrCheck (s : Store) (c : Nat) (v : Value) : (s.bindOrCheck c v).2.cells.size = s.cells.size :=
  of_bindOrCheck (P := fun t => t.cells.size = s.cells.size) rfl (size_bindValue s c v)

theorem find_bindValue (s : Store) (c : Nat) (v : Value) (i : Nat) : (s.bindValue c v).2.find i = s.find i := by
  rcases bindValue_cases s c v with h | h
  · rw [h]
  · rw [h, find_bind]

theorem find_bindOrCheck (s : Store) (c : Nat) (v : Value) (i : Nat) : (s.bindOrCheck c v).2.find i = s.find i :=
  of_bindOrCheck (P := fun t => t.find i = s.find i) rfl (find_bindValue s c v i)

theorem logged_bindValue : s.Logged (s.bindValue c v).2 := by
  rcases bindValue_cases s c v with h | h
  · rw [h]
    exact .refl s
  · rw [h]
    exact logged_bind v _

theorem Regular.bindValue (h : s.Regular) : (s.bindValue c v).2.Regular := by
  rcases bindValue_cases s c v with h' | h'
  · rw [h']
    exact h
  · rw [h']
    exact h.of_parent (parent_bind v _) rfl

end Bind

section Unify

variable {a b : Nat}

/-- A merge links the representatives, and the older one gets a type where both meet, or it changes nothing.
It links them also if it is refused because of a value, and then the aliases of the younger one are lost. -/
theorem merge_cases {older younger : Nat} (hro : s.find older = older) (hry : s.find younger = younger) :
    (s.merge older younger).2 = s ∨ ∃ ty value aliases, (s.own older).meet (s.own younger) = some ty ∧
      (aliases = s.entries older ∨ aliases = Alias.join (s.entries older) (s.entries younger)) ∧
      (s.merge older younger).2 = s.link older younger ty value aliases := by
  unfold merge
  rw [ty_eq, ty_eq, hro, hry]
  cases hmeet : (s.own older).meet (s.own younger) with
  | none => exact .inl rfl
  | some ty =>
      right
      simp only
      split
      · exact ⟨ty, _, _, rfl, .inr rfl, rfl⟩
      · split
        · exact ⟨ty, _, _, rfl, .inr rfl, rfl⟩
        · exact ⟨ty, _, _, rfl, .inl rfl, rfl⟩

theorem find_min_max (s : Store) (a b : Nat) : s.find (min (s.find a) (s.find b)) = min (s.find a) (s.find b) ∧
    s.find (max (s.find a) (s.find b)) = max (s.find a) (s.find b) := by
  rcases Nat.le_total (s.find a) (s.find b) with hle | hle
  · rw [Nat.min_eq_left hle, Nat.max_eq_right hle]
    exact ⟨find_find s a, find_find s b⟩
  · rw [Nat.min_eq_right hle, Nat.max_eq_left hle]
    exact ⟨find_find s b, find_find s a⟩

theorem unify_cases (ha : a < s.cells.size) (hb : b < s.cells.size) : (s.unify a b).2 = s ∨
    ∃ older younger ty value aliases, older < younger ∧ younger < s.cells.size ∧ s.find older = older ∧
      s.find younger = younger ∧ (s.own older).meet (s.own younger) = some ty ∧
      (aliases = s.entries older ∨ aliases = Alias.join (s.entries older) (s.entries younger)) ∧
      (s.unify a b).2 = s.link older younger ty value aliases := by
  unfold unify
  by_cases hab : s.find a = s.find b
  · rw [if_pos hab]
    exact .inl rfl
  rw [if_neg hab]
  have hlt : min (s.find a) (s.find b) < max (s.find a) (s.find b) := by omega
  have hsize : max (s.find a) (s.find b) < s.cells.size := Nat.max_lt.mpr ⟨find_lt ha, find_lt hb⟩
  obtain ⟨hro, hry⟩ := find_min_max s a b
  have hmerge := merge_cases hro hry
  split
  · exact .inl rfl
  · exact hmerge.imp_right fun ⟨ty, value, aliases, hmeet, hlist, heq⟩ =>
      ⟨_, _, ty, value, aliases, hlt, hsize, hro, hry, hmeet, hlist, heq⟩

theorem logged_unify (ha : a < s.cells.size) (hb : b < s.cells.size) : s.Logged (s.unify a b).2 := by
  rcases unify_cases ha hb with h | ⟨older, younger, ty, value, aliases, hlt, hsize, hroot, -, hmeet, -, h⟩
  · rw [h]
    exact .refl s
  · rw [h]
    exact logged_link (Nat.lt_trans hlt hsize) hroot (Ty.meet_eq_some hmeet).1.resolve_left

theorem Regular.unify (hs : s.Regular) (ha : a < s.cells.size) (hb : b < s.cells.size) :
    (s.unify a b).2.Regular := by
  rcases unify_cases ha hb with h | ⟨older, younger, ty, value, aliases, hlt, hsize, hroot, -, hmeet, -, h⟩
  · rw [h]
    exact hs
  rw [h]
  constructor
  · intro i
    by_cases hi : i = younger
    · rw [hi, parent_link_younger hsize]
      exact Nat.le_of_lt hlt
    · rw [parent_link_other hi]
      exact hs.parent_le i
  · intro n hn
    rw [narrowings_link hroot] at hn
    split at hn
    · exact hs.wide n hn
    · rename_i hne
      rcases List.mem_cons.mp hn with rfl | hn
      · exact (Ty.meet_eq_some hmeet).1.resolve_left hne
      · exact hs.wide n hn

end Unify

theorem Operation.logged (h : Operation s t) : s.Logged t := by
  cases h with
  | allocated ty =>
      refine .of_own ?_ rfl fun c hc => ?_
      · exact Nat.le_of_lt (Nat.lt_of_lt_of_eq (Nat.lt_succ_self _) (Array.size_push _).symm)
      · rw [own_allocate, if_neg (Nat.ne_of_lt hc)]
  | allocatedFor a depth => exact logged_allocateFor s a depth
  | aliased a depth hc =>
      refine .of_own (Nat.le_of_eq (size_modify ..).symm) rfl fun i _ => ?_
      exact own_modify (by intro cell; rfl) _ i
  | compressed hc => exact (alike_compress s _).logged
  | bound v hc => exact logged_bindValue
  | checked v hc => exact of_bindOrCheck (.refl s) logged_bindValue
  | unified ha hb => exact logged_unify ha hb

theorem Operation.regular (h : Operation s t) (hs : s.Regular) : t.Regular := by
  cases h with
  | allocated ty => exact hs.of_parent (parent_allocate ty) rfl
  | allocatedFor a depth => exact hs.of_parent (parent_allocateFor a depth) rfl
  | aliased a depth hc => exact hs.of_parent (parent_modify (by intro cell; rfl) _) rfl
  | @compressed c hc =>
      refine ⟨fun i => ?_, hs.wide⟩
      rcases parent_compress s c i with h | h
      · exact h ▸ hs.parent_le i
      · exact h ▸ s.find_le i
  | bound v hc => exact hs.bindValue
  | checked v hc => exact of_bindOrCheck hs hs.bindValue
  | unified ha hb => exact hs.unify ha hb

section Close

variable (h : s.Logged t) (ht : t.Wide) (depth : Nat)

include h in
theorem Logged.undone_eq : ∃ recent, t.undone s.mark = recent ∧ t.narrowings = recent ++ s.narrowings := by
  obtain ⟨recent, hlog, -⟩ := h.log
  refine ⟨recent, ?_, hlog⟩
  rw [Store.undone_eq hlog (Nat.le_refl _), mark, Nat.sub_self, Nat.sub_zero, List.take_length]

include h in
theorem Logged.size_closed : (t.closeScope depth s.mark).cells.size = s.cells.size := size_closeScope depth h.size_le

include h ht in
/-- The log takes every type back to what it was at the mark, whatever has been narrowed since. -/
theorem Logged.own_closed {c : Nat} (hc : c < s.cells.size) : (t.closeScope depth s.mark).own c = s.own c := by
  obtain ⟨recent, hundone, hlog⟩ := h.undone_eq
  obtain ⟨recent', hlog', hown⟩ := h.log
  obtain rfl : recent = recent' := List.append_cancel_right (hlog.symm.trans hlog')
  rw [own_closeScope ht depth hc, hundone]
  by_cases hmem : c ∈ recent.map Narrowing.cell
  · rw [if_pos hmem, (hown c hc).1 hmem]
  · rw [if_neg hmem, (hown c hc).2 hmem]

include h ht in
theorem Logged.closed : s.Logged (t.closeScope depth s.mark) := by
  obtain ⟨recent, -, hlog⟩ := h.undone_eq
  refine .of_own (Nat.le_of_eq (h.size_closed depth).symm) ?_ fun c hc => h.own_closed ht depth hc
  rw [narrowings_closeScope depth hlog (Nat.le_refl _), mark, Nat.sub_self, Nat.sub_zero, List.drop_length]
  rfl

end Close

theorem Regular.closeScope (h : s.Regular) (depth : Nat) {m : Mark} (hm : m.cells ≤ s.cells.size) :
    (s.closeScope depth m).Regular where
  parent_le := fun c => by
    by_cases hc : c < m.cells
    · rw [parent_closeScope h.wide depth hc]
      exact h.parent_le c
    · rw [parent, Array.getElem?_eq_none (by rw [size_closeScope depth hm]; exact Nat.le_of_not_lt hc)]
      exact Nat.le_refl c
  wide := Wide.closeScope h.wide depth

theorem History.logged_regular (h : History s t) (hs : s.Regular) : s.Logged t ∧ t.Regular := by
  induction h with
  | refl => exact ⟨.refl _, hs⟩
  | tail _ hop ih =>
      obtain ⟨hlogged, hregular⟩ := ih hs
      exact ⟨hlogged.trans hop.logged, hop.regular hregular⟩
  | scope depth _ _ ih ih' =>
      obtain ⟨hlogged, hregular⟩ := ih hs
      obtain ⟨hlogged', hregular'⟩ := ih' hregular
      exact ⟨hlogged.trans (hlogged'.closed hregular'.wide depth), hregular'.closeScope depth hlogged'.size_le⟩

/-- When a scope closes, no cell is left but those that there were when it opened. Each has the representative
and the value that it had just before, although cells through which it got them are gone, and the type that
stood in it when the scope opened; and links lead nowhere else. -/
theorem closing_spares_survivors (hs : History .empty s) (h : History s t) (depth : Nat) :
    (t.closeScope depth s.mark).cells.size = s.cells.size ∧ ∀ c < s.cells.size,
      (t.closeScope depth s.mark).find c = t.find c ∧
      (t.closeScope depth s.mark).value c = t.value c ∧
      (∀ n, (t.closeScope depth s.mark).parent^[n] c < s.cells.size) ∧
      (t.closeScope depth s.mark).own c = s.own c := by
  obtain ⟨-, hregular⟩ := hs.logged_regular .empty
  obtain ⟨hlogged, hregular'⟩ := h.logged_regular hregular
  refine ⟨hlogged.size_closed depth, fun c hc => ⟨?_, ?_, fun n => ?_, ?_⟩⟩
  · exact find_closeScope hregular'.wide depth hc
  · exact value_closeScope hregular'.wide depth hc
  · exact Nat.lt_of_le_of_lt ((hregular'.closeScope depth hlogged.size_le).iterate_le n c) hc
  · exact hlogged.own_closed hregular'.wide depth hc

def twoOuter : Store := ((Store.empty.allocate .any).2.allocate .any).2

def firstNarrowed : Store := ((twoOuter.allocate .int).2.unify 0 2).2

def secondNarrowed : Store := ((firstNarrowed.allocate .str).2.unify 1 3).2

/-- When that scope has closed, the inner cell joins the two outer ones and gets a value. -/
def joinedInside : Store :=
  (((secondNarrowed.closeScope 2 firstNarrowed.mark).unify 1 2).2.bindOrCheck 2 (.int 5)).2

theorem joinedInside_history : History .empty twoOuter ∧ History twoOuter joinedInside := by
  have hfirst : History twoOuter firstNarrowed :=
    .tail (.tail (.refl _) (.allocated _ _)) (.unified (by decide) (by decide))
  have hsecond : History firstNarrowed secondNarrowed :=
    .tail (.tail (.refl _) (.allocated _ _)) (.unified (by decide +kernel) (by decide +kernel))
  refine ⟨.tail (.tail (.refl _) (.allocated _ _)) (.allocated _ _), ?_⟩
  refine .tail (.tail (.scope 2 hfirst hsecond) (.unified ?_ ?_)) (.checked _ ?_) <;> decide +kernel

/-- The two cells stay one and keep the value when the cell that joined them is gone, and admit everything again. -/
theorem joinedInside_closed : (joinedInside.closeScope 1 twoOuter.mark).cells.size = 2 ∧
    (joinedInside.closeScope 1 twoOuter.mark).find 1 = 0 ∧
    (joinedInside.closeScope 1 twoOuter.mark).value 1 = some (.int 5) ∧
    (joinedInside.closeScope 1 twoOuter.mark).own 0 = .any := by
  obtain ⟨hsize, hcells⟩ := closing_spares_survivors joinedInside_history.1 joinedInside_history.2 1
  obtain ⟨-, -, -, hown⟩ := hcells 0 (by decide)
  obtain ⟨hfind, hvalue, -⟩ := hcells 1 (by decide)
  refine ⟨hsize, hfind.trans ?_, hvalue.trans ?_, hown⟩
  · decide +kernel
  · decide +kernel

end Clausal.Store
