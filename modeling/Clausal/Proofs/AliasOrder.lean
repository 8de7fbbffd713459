import Clausal.Proofs.OneVariable
import Mathlib.Data.List.Sort

/-! The order of an alias list. While no scope closes, each cell stands for the parameter that it was made for, and cells
are numbered by age. Main statement: the parameters of a class are listed oldest first if and only if no unification
that made the class was refused, and each of them found all of one class older than all of the other. -/
namespace Clausal

namespace Alias

theorem join_eq_append {older younger : List Alias} (hyounger : (ids younger).Nodup)
    (hnew : ∀ a ∈ younger, a.parameter.id ∉ ids older) : join older younger = older ++ younger := by
  induction younger generalizing older with
  | nil => rw [List.append_nil]; rfl
  | cons a rest ih =>
      obtain ⟨ha, hrest⟩ := List.nodup_cons.mp hyounger
      have hadd : add older a = older ++ [a] := by
        have hany : ¬(older.any fun b => b.parameter.id = a.parameter.id) = true := by
          intro h
          obtain ⟨b, hb, hid⟩ := List.any_eq_true.mp h
          exact hnew a List.mem_cons_self (of_decide_eq_true hid ▸ List.mem_map_of_mem hb)
        rw [add, if_neg hany]
      have hnew' : ∀ b ∈ rest, b.parameter.id ∉ ids (older ++ [a]) := by
        intro b hb hmem
        rw [ids, List.map_append] at hmem
        rcases List.mem_append.mp hmem with hmem | hmem
        · exact hnew b (List.mem_cons_of_mem a hb) hmem
        · obtain hsame := List.mem_singleton.mp hmem
          exact ha (hsame ▸ List.mem_map_of_mem hb)
      calc join older (a :: rest) = join (older ++ [a]) rest := by rw [← hadd]; rfl
        _ = older ++ (a :: rest) := by rw [ih hrest hnew', List.append_assoc]; rfl

end Alias

namespace Store

variable {s : Store} {a b : Nat}

inductive Action where
  | introduce (p : Actual) (depth : Nat)
  | bind (c : Nat) (v : Value)
  | check (c : Nat) (v : Value)
  | unify (a b : Nat)
deriving DecidableEq

/-- The store that an action leaves, also if it is refused. -/
def Action.apply (s : Store) : Action → Store
  | .introduce p depth => (s.allocateFor p depth).2
  | .bind c v => (s.bindValue c v).2
  | .check c v => (s.bindOrCheck c v).2
  | .unify a b => (s.unify a b).2

def Action.InRange (s : Store) : Action → Prop
  | .introduce _ _ => True
  | .bind c _ | .check c _ => c < s.cells.size
  | .unify a b => a < s.cells.size ∧ b < s.cells.size

instance (s : Store) : (x : Action) → Decidable (x.InRange s)
  | .introduce _ _ => inferInstanceAs (Decidable True)
  | .bind c _ | .check c _ => inferInstanceAs (Decidable (c < s.cells.size))
  | .unify a b => inferInstanceAs (Decidable (a < s.cells.size ∧ b < s.cells.size))

/-- The store after actions, of which the newest stands first. -/
def after : List Action → Store
  | [] => .empty
  | x :: earlier => x.apply (after earlier)

/-- The parameters in the order in which they were introduced. Each has got the cell of its position. -/
def introduced : List Action → List Actual
  | [] => []
  | .introduce p _ :: earlier => introduced earlier ++ [p]
  | .bind _ _ :: earlier | .check _ _ :: earlier | .unify _ _ :: earlier => introduced earlier

def Ranged : List Action → Prop
  | [] => True
  | x :: earlier => x.InRange (after earlier) ∧ Ranged earlier

instance instDecidableRanged : (actions : List Action) → Decidable (Ranged actions)
  | [] => inferInstanceAs (Decidable True)
  | _ :: earlier =>
    have := instDecidableRanged earlier
    inferInstanceAs (Decidable (_ ∧ _))

/-- The cells of a class, oldest first. -/
def classOf (s : Store) (c : Nat) : List Nat := (List.range s.cells.size).filter fun i => s.find i = s.find c

def oldestFirst (actions : List Action) (c : Nat) : List Actual :=
  ((after actions).classOf c).filterMap fun i => (introduced actions)[i]?

/-- A unification makes one class of two, even if it is refused. -/
def Joins (s : Store) (a b : Nat) : Prop := s.find a ≠ s.find b ∧ (s.unify a b).2.find a = (s.unify a b).2.find b

/-- The one class has no cell that is younger than one of the other. -/
def Apart (s : Store) (a b : Nat) : Prop :=
  ∀ i j, s.find i = min (s.find a) (s.find b) → s.find j = max (s.find a) (s.find b) → i < j

/-- Whenever a unification made one class of two, of which this class is made, the property held. -/
def Along (actions : List Action) (c : Nat) (P : Store → Nat → Nat → Prop) : Prop :=
  ∀ a b earlier, .unify a b :: earlier <:+ actions → (after earlier).Joins a b →
    (after actions).find a = (after actions).find c → P (after earlier) a b

theorem Ranged.suffix {actions earlier : List Action} (h : Ranged actions) (hs : earlier <:+ actions) :
    Ranged earlier := by
  induction actions with
  | nil => rw [List.suffix_nil.mp hs]; exact h
  | cons x actions ih =>
      rcases List.suffix_cons_iff.mp hs with rfl | hs
      · exact h
      · exact ih h.2 hs

theorem Ranged.history {actions : List Action} (h : Ranged actions) : History .empty (after actions) := by
  induction actions with
  | nil => exact .refl _
  | cons x earlier ih =>
      refine .tail (ih h.2) ?_
      cases x with
      | introduce p depth => exact .allocatedFor _ p depth
      | bind c v => exact .bound v h.1
      | check c v => exact .checked v h.1
      | unify a b => exact .unified h.1.1 h.1.2

theorem size_unify (s : Store) (a b : Nat) : (s.unify a b).2.cells.size = s.cells.size := by
  unfold unify merge
  split
  · rfl
  split
  · rfl
  split
  · rfl
  simp only
  split
  · exact size_link
  split
  · exact size_link
  · exact size_link

/-- A cell for each parameter, in the same order. -/
theorem size_after (actions : List Action) : (after actions).cells.size = (introduced actions).length := by
  induction actions with
  | nil => rfl
  | cons x earlier ih =>
      cases x with
      | introduce p depth =>
          rw [after, Action.apply, size_allocateFor, ih, introduced, List.length_append, List.length_singleton]
      | bind c v => exact (size_bindValue _ c v).trans ih
      | check c v => exact (size_bindOrCheck _ c v).trans ih
      | unify a b => exact (size_unify _ a b).trans ih

theorem introduced_grows {earlier actions : List Action} (h : earlier <:+ actions) :
    introduced earlier <+: introduced actions := by
  induction actions with
  | nil =>
      obtain rfl := List.suffix_nil.mp h
      exact List.prefix_rfl
  | cons x actions ih =>
      rcases List.suffix_cons_iff.mp h with rfl | hs
      · exact List.prefix_rfl
      · cases x with
        | introduce p depth => exact (ih hs).trans (List.prefix_append _ [p])
        | bind c v => exact ih hs
        | check c v => exact ih hs
        | unify a b => exact ih hs

/-- A merge does nothing, or it links the two representatives, and then the aliases of the younger one are joined on
unless it is refused. -/
theorem merge_links {older younger : Nat} (ho : s.find older = older) (hy : s.find younger = younger) :
    (s.merge older younger).2 = s ∨ ∃ ty value,
      (s.merge older younger =
        (.ok true, s.link older younger ty value (Alias.join (s.listed older) (s.listed younger))) ∨
      ∃ err, s.merge older younger = (.error err, s.link older younger ty value (s.listed older))) := by
  unfold merge
  rw [entries_eq, entries_eq, ho, hy]
  cases (s.ty older).meet (s.ty younger) with
  | none => exact .inl rfl
  | some ty =>
      refine .inr ⟨ty, s.value older <|> s.value younger, ?_⟩
      simp only
      split
      · rename_i hnone
        exact .inl (by rw [hnone])
      · rename_i v hv
        split
        · exact .inl (by rw [hv])
        · exact .inr ⟨_, by rw [hv]⟩

theorem unify_links (s : Store) (a b : Nat) : (s.unify a b).2 = s ∨
    s.find a ≠ s.find b ∧ ∃ ty value,
      (s.unify a b = (.ok true, s.link (min (s.find a) (s.find b)) (max (s.find a) (s.find b)) ty value
        (Alias.join (s.listed (min (s.find a) (s.find b))) (s.listed (max (s.find a) (s.find b))))) ∨
      ∃ err, s.unify a b = (.error err, s.link (min (s.find a) (s.find b)) (max (s.find a) (s.find b)) ty value
        (s.listed (min (s.find a) (s.find b))))) := by
  unfold unify
  by_cases hab : s.find a = s.find b
  · rw [if_pos hab]
    exact .inl rfl
  rw [if_neg hab]
  obtain ⟨hro, hry⟩ := find_min_max s a b
  split
  · exact .inl rfl
  · exact (merge_links hro hry).imp_right fun h => ⟨hab, h⟩

/-- Some cells of a class, in the order in which the class lists their parameters. -/
structure Lists (actions : List Action) (r : Nat) (cells : List Nat) : Prop where
  listed : ((after actions).listed r).map Alias.parameter = cells.filterMap fun i => (introduced actions)[i]?
  nodup : cells.Nodup
  first : cells.head? = some r
  within : ∀ i ∈ cells, i < (after actions).cells.size ∧ (after actions).find i = r

/-- No cell of the class is left out. -/
def Full (actions : List Action) (r : Nat) (cells : List Nat) : Prop :=
  ∀ i < (after actions).cells.size, (after actions).find i = r → i ∈ cells

def Went (s : Store) (a b : Nat) : Prop := (s.unify a b).1 = .ok true

/-- What the list of a class amounts to follows from how the class was made. -/
structure Account (actions : List Action) (r : Nat) (cells : List Nat) : Prop extends Lists actions r cells where
  full_iff : Full actions r cells ↔ Along actions r Went
  ordered_iff : Full actions r cells ∧ cells.Pairwise (· < ·) ↔ Along actions r fun s a b => s.Went a b ∧ s.Apart a b

section Steps

variable {x : Action} {earlier : List Action} {r c : Nat} {cells : List Nat} {P : Store → Nat → Nat → Prop}

theorem along_keep (hfind : ∀ i, (after (x :: earlier)).find i = (after earlier).find i)
    (hx : ∀ a b, x = .unify a b → ¬(after earlier).Joins a b) : Along (x :: earlier) c P ↔ Along earlier c P := by
  constructor
  · intro h a b before hs hj hc
    exact h a b before (hs.trans (List.suffix_cons x earlier)) hj (by rw [hfind, hfind]; exact hc)
  · intro h a b before hs hj hc
    rw [hfind, hfind] at hc
    rcases List.suffix_cons_iff.mp hs with heq | hs
    · obtain ⟨rfl, rfl⟩ := List.cons.inj heq
      exact absurd hj (hx a b rfl)
    · exact h a b before hs hj hc

theorem Account.keep (h : Account earlier r cells)
    (hsize : (after (x :: earlier)).cells.size = (after earlier).cells.size)
    (hfind : ∀ i, (after (x :: earlier)).find i = (after earlier).find i)
    (hlist : (after (x :: earlier)).listed r = (after earlier).listed r)
    (hintro : introduced (x :: earlier) = introduced earlier)
    (hx : ∀ a b, x = .unify a b → ¬(after earlier).Joins a b) : Account (x :: earlier) r cells := by
  have hfull : Full (x :: earlier) r cells ↔ Full earlier r cells := by
    simp only [Full, hsize, hfind]
  refine ⟨⟨?_, h.nodup, h.first, ?_⟩, ?_, ?_⟩
  · rw [hlist, hintro]
    exact h.listed
  · simp only [hsize, hfind]
    exact h.within
  · rw [hfull, along_keep hfind hx]
    exact h.full_iff
  · rw [hfull, along_keep hfind hx]
    exact h.ordered_iff

theorem filterMap_introduced {p : Actual} (hcells : ∀ i ∈ cells, i < (introduced earlier).length) :
    cells.filterMap (fun i => (introduced earlier ++ [p])[i]?) = cells.filterMap fun i => (introduced earlier)[i]? :=
  List.filterMap_congr fun i hi => List.getElem?_append_left (hcells i hi)

theorem Account.introduce (h : Account earlier r cells) {p : Actual} {depth : Nat}
    (hr : r < (after earlier).cells.size) :
    Account (.introduce p depth :: earlier) r cells := by
  have hfind (i : Nat) : (after (.introduce p depth :: earlier)).find i = (after earlier).find i :=
    find_allocateFor p depth i
  have hsize : (after (.introduce p depth :: earlier)).cells.size = (after earlier).cells.size + 1 :=
    size_allocateFor p depth
  have hfull : Full (.introduce p depth :: earlier) r cells ↔ Full earlier r cells := by
    constructor
    · intro hf i hi hri
      exact hf i (hsize ▸ Nat.lt_succ_of_lt hi) ((hfind i).trans hri)
    · intro hf i hi hri
      rw [hfind] at hri
      have hne : i ≠ (after earlier).cells.size := by
        intro heq
        rw [find_of_ge (Nat.le_of_eq heq.symm)] at hri
        omega
      exact hf i (by omega) hri
  have hx : ∀ a b, Action.introduce p depth = .unify a b → ¬(after earlier).Joins a b := fun _ _ h => by cases h
  refine ⟨⟨?_, h.nodup, h.first, fun i hi => ?_⟩, ?_, ?_⟩
  · have hlist : (after (.introduce p depth :: earlier)).listed r = (after earlier).listed r := by
      rw [after, Action.apply, listed_allocateFor, if_neg (Nat.ne_of_lt hr)]
    rw [hlist, introduced, filterMap_introduced fun i hi => size_after earlier ▸ (h.within i hi).1]
    exact h.listed
  · obtain ⟨hlt, hri⟩ := h.within i hi
    exact ⟨hsize ▸ Nat.lt_succ_of_lt hlt, (hfind i).trans hri⟩
  · rw [hfull, along_keep hfind hx]
    exact h.full_iff
  · rw [hfull, along_keep hfind hx]
    exact h.ordered_iff

/-- The class of a new cell was made of nothing. -/
theorem account_new (hranged : Ranged earlier) (p : Actual) (depth : Nat) :
    Account (.introduce p depth :: earlier) (after earlier).cells.size [(after earlier).cells.size] := by
  have hfind (i : Nat) : (after (.introduce p depth :: earlier)).find i = (after earlier).find i :=
    find_allocateFor p depth i
  have hsize : (after (.introduce p depth :: earlier)).cells.size = (after earlier).cells.size + 1 :=
    size_allocateFor p depth
  have hself : (after earlier).find (after earlier).cells.size = (after earlier).cells.size := find_of_ge (Nat.le_refl _)
  have hfull : Full (.introduce p depth :: earlier) (after earlier).cells.size [(after earlier).cells.size] := by
    intro i hi hri
    rw [hfind] at hri
    have hle := (after earlier).find_le i
    exact List.mem_singleton.mpr (by omega)
  have hx : ∀ a b, Action.introduce p depth = .unify a b → ¬(after earlier).Joins a b := fun _ _ h => by cases h
  have halong (P : Store → Nat → Nat → Prop) : Along (.introduce p depth :: earlier) (after earlier).cells.size P := by
    rw [along_keep hfind hx]
    intro a b before hs _ hc
    obtain ⟨⟨ha, -⟩, hbefore⟩ := hranged.suffix hs
    have hgrown : (after before).cells.size ≤ (after earlier).cells.size := by
      rw [size_after, size_after]
      exact (introduced_grows ((List.suffix_cons _ before).trans hs)).length_le
    have hle := (after earlier).find_le a
    rw [hself] at hc
    omega
  refine ⟨⟨?_, List.nodup_singleton _, rfl, fun i hi => ?_⟩, ?_, ?_⟩
  · rw [after, Action.apply, listed_allocateFor, if_pos rfl, introduced, size_after]
    simp
  · rw [List.mem_singleton.mp hi]
    exact ⟨by omega, (hfind _).trans hself⟩
  · exact iff_of_true hfull (halong _)
  · exact iff_of_true ⟨hfull, List.pairwise_singleton _ _⟩ (halong _)

/-- A unification that has linked two representatives. -/
structure Linked (earlier : List Action) (a b older younger : Nat) : Prop where
  lt : older < younger
  older_eq : older = min ((after earlier).find a) ((after earlier).find b)
  younger_eq : younger = max ((after earlier).find a) ((after earlier).find b)
  older_root : (after earlier).find older = older
  younger_root : (after earlier).find younger = younger
  younger_lt : younger < (after earlier).cells.size
  find_eq : ∀ i, (after (.unify a b :: earlier)).find i =
    if (after earlier).find i = younger then older else (after earlier).find i
  listed_eq : ∀ i, i ≠ older → i ≠ younger → (after (.unify a b :: earlier)).listed i = (after earlier).listed i

namespace Linked

variable {a b older younger : Nat} {olders youngers : List Nat}

theorem of_link {ty : Ty} {value : Option Value} {aliases : List Alias} (ha : a < (after earlier).cells.size)
    (hb : b < (after earlier).cells.size) (hne : (after earlier).find a ≠ (after earlier).find b)
    (h : after (.unify a b :: earlier) =
      (after earlier).link (min ((after earlier).find a) ((after earlier).find b))
        (max ((after earlier).find a) ((after earlier).find b)) ty value aliases) :
    Linked earlier a b (min ((after earlier).find a) ((after earlier).find b))
      (max ((after earlier).find a) ((after earlier).find b)) := by
  have hlt : min ((after earlier).find a) ((after earlier).find b) <
      max ((after earlier).find a) ((after earlier).find b) := by omega
  have hsize : max ((after earlier).find a) ((after earlier).find b) < (after earlier).cells.size :=
    Nat.max_lt.mpr ⟨find_lt ha, find_lt hb⟩
  obtain ⟨hro, hry⟩ := find_min_max (after earlier) a b
  refine ⟨hlt, rfl, rfl, hro, hry, hsize, fun i => ?_, fun i ho hy => ?_⟩
  · rw [h, find_link hlt hsize hro hry]
  · rw [h, listed_link (Nat.lt_trans hlt hsize), if_neg ho, if_neg hy]

theorem size_eq (earlier : List Action) (a b : Nat) :
    (after (.unify a b :: earlier)).cells.size = (after earlier).cells.size := size_unify (after earlier) a b

theorem ends (h : Linked earlier a b older younger) :
    ((after earlier).find a = older ∧ (after earlier).find b = younger) ∨
    ((after earlier).find a = younger ∧ (after earlier).find b = older) := by
  have ho := h.older_eq
  have hy := h.younger_eq
  have hlt := h.lt
  omega

theorem find_older (h : Linked earlier a b older younger) (i : Nat) :
    (after (.unify a b :: earlier)).find i = older ↔ (after earlier).find i = older ∨ (after earlier).find i = younger := by
  have hlt := h.lt
  rw [h.find_eq]
  split <;> omega

theorem find_other (h : Linked earlier a b older younger) (hro : r ≠ older) (hry : r ≠ younger) (i : Nat) :
    (after (.unify a b :: earlier)).find i = r ↔ (after earlier).find i = r := by
  rw [h.find_eq]
  split <;> omega

theorem joins (h : Linked earlier a b older younger) : (after earlier).Joins a b := by
  have hlt := h.lt
  have hfind {i : Nat} (hi : (after earlier).find i = older ∨ (after earlier).find i = younger) :
      ((after earlier).unify a b).2.find i = older := (h.find_older i).mpr hi
  rcases h.ends with ⟨ha, hb⟩ | ⟨ha, hb⟩
  · exact ⟨by omega, (hfind (.inl ha)).trans (hfind (.inr hb)).symm⟩
  · exact ⟨by omega, (hfind (.inr ha)).trans (hfind (.inl hb)).symm⟩

theorem root (h : Linked earlier a b older younger) : (after (.unify a b :: earlier)).find older = older :=
  (h.find_older older).mpr (.inl h.older_root)

/-- The class was made by this unification and by those that had made the two. -/
theorem along_iff (h : Linked earlier a b older younger) : Along (.unify a b :: earlier) older P ↔
    P (after earlier) a b ∧ Along earlier older P ∧ Along earlier younger P := by
  have hclass (i : Nat) : (after (.unify a b :: earlier)).find i = (after (.unify a b :: earlier)).find older ↔
      (after earlier).find i = (after earlier).find older ∨ (after earlier).find i = (after earlier).find younger := by
    rw [h.root, h.older_root, h.younger_root]
    exact h.find_older i
  constructor
  · intro hall
    refine ⟨hall a b earlier List.suffix_rfl h.joins ?_, ?_, ?_⟩
    · rw [h.root]
      exact (h.find_older a).mpr (h.ends.imp And.left And.left)
    · intro a' b' before hs hj hc
      exact hall a' b' before (hs.trans (List.suffix_cons _ earlier)) hj ((hclass a').mpr (.inl hc))
    · intro a' b' before hs hj hc
      exact hall a' b' before (hs.trans (List.suffix_cons _ earlier)) hj ((hclass a').mpr (.inr hc))
  · rintro ⟨hnew, holder, hyounger⟩ a' b' before hs hj hc
    rcases List.suffix_cons_iff.mp hs with heq | hs
    · obtain ⟨hact, rfl⟩ := List.cons.inj heq
      obtain ⟨rfl, rfl⟩ := Action.unify.inj hact
      exact hnew
    · rcases (hclass a').mp hc with hc | hc
      · exact holder a' b' before hs hj hc
      · exact hyounger a' b' before hs hj hc

theorem along_other (h : Linked earlier a b older younger) (hro : r ≠ older) (hry : r ≠ younger)
    (hroot : (after earlier).find r = r) : Along (.unify a b :: earlier) r P ↔ Along earlier r P := by
  have hclass (i : Nat) : (after (.unify a b :: earlier)).find i = (after (.unify a b :: earlier)).find r ↔
      (after earlier).find i = (after earlier).find r := by
    rw [(h.find_other hro hry r).mpr hroot, hroot]
    exact h.find_other hro hry i
  constructor
  · intro hall a' b' before hs hj hc
    exact hall a' b' before (hs.trans (List.suffix_cons _ earlier)) hj ((hclass a').mpr hc)
  · intro hall a' b' before hs hj hc
    rcases List.suffix_cons_iff.mp hs with heq | hs
    · obtain ⟨hact, rfl⟩ := List.cons.inj heq
      obtain ⟨rfl, rfl⟩ := Action.unify.inj hact
      have ha := (hclass a').mp hc
      rw [hroot] at ha
      rcases h.ends with ⟨he, -⟩ | ⟨he, -⟩
      · exact absurd (ha.symm.trans he) hro
      · exact absurd (ha.symm.trans he) hry
    · exact hall a' b' before hs hj ((hclass a').mp hc)

theorem account_other (h : Linked earlier a b older younger) (hro : r ≠ older) (hry : r ≠ younger)
    (hroot : (after earlier).find r = r) (hcells : Account earlier r cells) : Account (.unify a b :: earlier) r cells := by
  have hfull : Full (.unify a b :: earlier) r cells ↔ Full earlier r cells := by
    simp only [Full, size_eq, h.find_other hro hry]
  refine ⟨⟨?_, hcells.nodup, hcells.first, fun i hi => ?_⟩, ?_, ?_⟩
  · rw [h.listed_eq r hro hry]
    exact hcells.listed
  · obtain ⟨hlt, hri⟩ := hcells.within i hi
    exact ⟨(size_eq earlier a b).symm ▸ hlt, (h.find_other hro hry i).mpr hri⟩
  · rw [hfull, h.along_other hro hry hroot]
    exact hcells.full_iff
  · rw [hfull, h.along_other hro hry hroot]
    exact hcells.ordered_iff

theorem full_append (h : Linked earlier a b older younger) (holders : Lists earlier older olders)
    (hyoungers : Lists earlier younger youngers) : Full (.unify a b :: earlier) older (olders ++ youngers) ↔
      Full earlier older olders ∧ Full earlier younger youngers := by
  have hlt := h.lt
  constructor
  · intro hf
    constructor
    · intro i hi hri
      have hmem := hf i ((size_eq earlier a b).symm ▸ hi) ((h.find_older i).mpr (.inl hri))
      refine (List.mem_append.mp hmem).resolve_right fun hy => ?_
      have hry := (hyoungers.within i hy).2
      omega
    · intro i hi hri
      have hmem := hf i ((size_eq earlier a b).symm ▸ hi) ((h.find_older i).mpr (.inr hri))
      refine (List.mem_append.mp hmem).resolve_left fun ho => ?_
      have hro := (holders.within i ho).2
      omega
  · rintro ⟨hfo, hfy⟩ i hi hri
    rw [size_eq] at hi
    rcases (h.find_older i).mp hri with hri | hri
    · exact List.mem_append_left _ (hfo i hi hri)
    · exact List.mem_append_right _ (hfy i hi hri)

/-- Two classes listed in order are listed in order one after the other when they are apart. -/
theorem ordered_append (h : Linked earlier a b older younger) (holders : Lists earlier older olders)
    (hyoungers : Lists earlier younger youngers) (hfo : Full earlier older olders) (hfy : Full earlier younger youngers) :
    (olders ++ youngers).Pairwise (· < ·) ↔
      olders.Pairwise (· < ·) ∧ youngers.Pairwise (· < ·) ∧ (after earlier).Apart a b := by
  have hsize {i k : Nat} (hk : k < (after earlier).cells.size) (hi : (after earlier).find i = k) :
      i < (after earlier).cells.size := by
    by_contra hge
    have := (find_of_ge (Nat.le_of_not_lt hge)).symm.trans hi
    omega
  rw [List.pairwise_append, Apart, ← h.older_eq, ← h.younger_eq]
  refine and_congr_right fun _ => and_congr_right fun _ => ⟨fun hall i j hi hj => ?_, fun hall i hi j hj => ?_⟩
  · exact hall i (hfo i (hsize (Nat.lt_trans h.lt h.younger_lt) hi) hi) j (hfy j (hsize h.younger_lt hj) hj)
  · exact hall i j (holders.within i hi).2 (hyoungers.within j hj).2

/-- Aliases of different classes are of different parameters. -/
theorem ids_apart (h : Linked earlier a b older younger) (hd : ((introduced earlier).map Actual.id).Nodup)
    (holders : Lists earlier older olders) (hyoungers : Lists earlier younger youngers) :
    ∀ x ∈ (after earlier).listed younger, x.parameter.id ∉ Alias.ids ((after earlier).listed older) := by
  intro x hx hmem
  obtain ⟨z, hz, hid⟩ := List.mem_map.mp hmem
  have hpx : x.parameter ∈ youngers.filterMap fun i => (introduced earlier)[i]? :=
    hyoungers.listed ▸ List.mem_map_of_mem hx
  have hpz : z.parameter ∈ olders.filterMap fun i => (introduced earlier)[i]? :=
    holders.listed ▸ List.mem_map_of_mem hz
  obtain ⟨j, hj, hxj⟩ := List.mem_filterMap.mp hpx
  obtain ⟨i, hi, hzi⟩ := List.mem_filterMap.mp hpz
  have hlength : i < ((introduced earlier).map Actual.id).length := by
    rw [List.length_map, ← size_after]
    exact (holders.within i hi).1
  have hsame : i = j := by
    refine (List.getElem?_inj hlength hd).mp ?_
    rw [List.getElem?_map, List.getElem?_map, hzi, hxj, Option.map_some, Option.map_some, hid]
  have hro := (holders.within i hi).2
  have hry := (hyoungers.within j hj).2
  have hlt := h.lt
  rw [hsame] at hro
  omega

/-- A unification that is not refused lists the one class after the other. -/
theorem account_went (h : Linked earlier a b older younger) (hd : ((introduced earlier).map Actual.id).Nodup)
    (honce : (after earlier).Once) (holders : Account earlier older olders) (hyoungers : Account earlier younger youngers)
    (hwent : (after earlier).Went a b) (hlist : (after (.unify a b :: earlier)).listed older =
      Alias.join ((after earlier).listed older) ((after earlier).listed younger)) :
    Account (.unify a b :: earlier) older (olders ++ youngers) := by
  have hlt := h.lt
  have hfull := h.full_append holders.toLists hyoungers.toLists
  refine ⟨⟨?_, ?_, ?_, fun i hi => ?_⟩, ?_, ?_⟩
  · rw [hlist, Alias.join_eq_append (honce younger) (h.ids_apart hd holders.toLists hyoungers.toLists), List.map_append,
      holders.listed, hyoungers.listed, ← List.filterMap_append]
    rfl
  · refine List.nodup_append.mpr ⟨holders.nodup, hyoungers.nodup, fun i hi j hj hij => ?_⟩
    have hro := (holders.within i hi).2
    have hry := (hyoungers.within j hj).2
    rw [hij] at hro
    omega
  · rw [List.head?_append, holders.first]
    rfl
  · rw [size_eq]
    rcases List.mem_append.mp hi with hi | hi
    · exact ⟨(holders.within i hi).1, (h.find_older i).mpr (.inl (holders.within i hi).2)⟩
    · exact ⟨(hyoungers.within i hi).1, (h.find_older i).mpr (.inr (hyoungers.within i hi).2)⟩
  · rw [hfull, h.along_iff, holders.full_iff, hyoungers.full_iff]
    exact (and_iff_right hwent).symm
  · rw [h.along_iff, ← holders.ordered_iff, ← hyoungers.ordered_iff, hfull]
    constructor
    · rintro ⟨⟨hfo, hfy⟩, hsorted⟩
      obtain ⟨hso, hsy, hapart⟩ := (h.ordered_append holders.toLists hyoungers.toLists hfo hfy).mp hsorted
      exact ⟨⟨hwent, hapart⟩, ⟨hfo, hso⟩, hfy, hsy⟩
    · rintro ⟨⟨-, hapart⟩, ⟨hfo, hso⟩, hfy, hsy⟩
      exact ⟨⟨hfo, hfy⟩, (h.ordered_append holders.toLists hyoungers.toLists hfo hfy).mpr ⟨hso, hsy, hapart⟩⟩

/-- A unification that is refused after it has linked the classes leaves out the younger one. -/
theorem account_refused (h : Linked earlier a b older younger) (holders : Account earlier older olders)
    (hrefused : ¬(after earlier).Went a b)
    (hlist : (after (.unify a b :: earlier)).listed older = (after earlier).listed older) :
    Account (.unify a b :: earlier) older olders := by
  have hlt := h.lt
  have hnot : ¬Full (.unify a b :: earlier) older olders := by
    intro hf
    have hmem := hf younger ((size_eq earlier a b).symm ▸ h.younger_lt) ((h.find_older younger).mpr (.inr h.younger_root))
    have hroot := (holders.within younger hmem).2
    rw [h.younger_root] at hroot
    omega
  refine ⟨⟨?_, holders.nodup, holders.first, fun i hi => ?_⟩, ?_, ?_⟩
  · rw [hlist]
    exact holders.listed
  · rw [size_eq]
    exact ⟨(holders.within i hi).1, (h.find_older i).mpr (.inl (holders.within i hi).2)⟩
  · exact iff_of_false hnot fun hall => hrefused (h.along_iff.mp hall).1
  · exact iff_of_false (fun hf => hnot hf.1) fun hall => hrefused (h.along_iff.mp hall).1.1

/-- Whatever class the store has now, it is the older one that was joined, or it is as before. -/
theorem exists_account (h : Linked earlier a b older younger) (hd : ((introduced earlier).map Actual.id).Nodup)
    (honce : (after earlier).Once)
    (hlist : (after earlier).Went a b ∧ (after (.unify a b :: earlier)).listed older =
        Alias.join ((after earlier).listed older) ((after earlier).listed younger) ∨
      ¬(after earlier).Went a b ∧ (after (.unify a b :: earlier)).listed older = (after earlier).listed older)
    (hbefore : ∀ {r : Nat}, r < (after earlier).cells.size → (after earlier).find r = r → ∃ cells, Account earlier r cells)
    (hr : r < (after (.unify a b :: earlier)).cells.size) (hroot : (after (.unify a b :: earlier)).find r = r) :
    ∃ cells, Account (.unify a b :: earlier) r cells := by
  by_cases hro : r = older
  · rw [hro]
    obtain ⟨olders, holders⟩ := hbefore (Nat.lt_trans h.lt h.younger_lt) h.older_root
    rcases hlist with ⟨hwent, hlist⟩ | ⟨hrefused, hlist⟩
    · obtain ⟨youngers, hyoungers⟩ := hbefore h.younger_lt h.younger_root
      exact ⟨_, h.account_went hd honce holders hyoungers hwent hlist⟩
    · exact ⟨_, h.account_refused holders hrefused hlist⟩
  · have hry : r ≠ younger := by
      rintro rfl
      exact hro (hroot.symm.trans ((h.find_older r).mpr (.inr h.younger_root)))
    have hroot' : (after earlier).find r = r := (h.find_other hro hry r).mp hroot
    obtain ⟨cells, hcells⟩ := hbefore (size_eq earlier a b ▸ hr) hroot'
    exact ⟨cells, h.account_other hro hry hroot' hcells⟩

end Linked

/-- A unification changes nothing, or it links two classes, whose lists it joins unless it is refused. -/
theorem unify_effect {a b : Nat} (ha : a < (after earlier).cells.size) (hb : b < (after earlier).cells.size) :
    after (.unify a b :: earlier) = after earlier ∨ ∃ older younger, Linked earlier a b older younger ∧
      ((after earlier).Went a b ∧ (after (.unify a b :: earlier)).listed older =
        Alias.join ((after earlier).listed older) ((after earlier).listed younger) ∨
      ¬(after earlier).Went a b ∧ (after (.unify a b :: earlier)).listed older = (after earlier).listed older) := by
  rcases unify_links (after earlier) a b with hsame | ⟨hne, ty, value, hlinks⟩
  · exact .inl hsame
  right
  rcases hlinks with hwent | ⟨err, hrefused⟩
  · have hlinked := Linked.of_link ha hb hne (congrArg Prod.snd hwent)
    refine ⟨_, _, hlinked, .inl ⟨congrArg Prod.fst hwent, ?_⟩⟩
    rw [after, Action.apply, hwent, listed_link (Nat.lt_trans hlinked.lt hlinked.younger_lt), if_pos rfl]
  · have hlinked := Linked.of_link ha hb hne (congrArg Prod.snd hrefused)
    refine ⟨_, _, hlinked, .inr ⟨fun hwent => ?_, ?_⟩⟩
    · cases (congrArg Prod.fst hrefused).symm.trans hwent
    · rw [after, Action.apply, hrefused, listed_link (Nat.lt_trans hlinked.lt hlinked.younger_lt), if_pos rfl]

end Steps

theorem exists_account {actions : List Action} (hranged : Ranged actions)
    (hd : ((introduced actions).map Actual.id).Nodup) {r : Nat} (hr : r < (after actions).cells.size)
    (hroot : (after actions).find r = r) : ∃ cells, Account actions r cells := by
  induction actions generalizing r with
  | nil => exact absurd hr (Nat.not_lt_zero r)
  | cons x earlier ih =>
      have hranged' := hranged.2
      cases x with
      | introduce p depth =>
          have hd' : ((introduced earlier).map Actual.id).Nodup := by
            rw [introduced, List.map_append] at hd
            exact (List.nodup_append.mp hd).1
          have hsize : (after (.introduce p depth :: earlier)).cells.size = (after earlier).cells.size + 1 :=
            size_allocateFor p depth
          rcases Nat.lt_or_ge r (after earlier).cells.size with hlt | hge
          · have hroot' : (after earlier).find r = r := (find_allocateFor p depth r).symm.trans hroot
            obtain ⟨cells, hcells⟩ := ih hranged' hd' hlt hroot'
            exact ⟨cells, hcells.introduce hlt⟩
          · obtain rfl : r = (after earlier).cells.size := by omega
            exact ⟨_, account_new hranged' p depth⟩
      | bind c v =>
          have hfind := find_bindValue (after earlier) c v
          have hsize := size_bindValue (after earlier) c v
          obtain ⟨cells, hcells⟩ := ih hranged' hd (hsize ▸ hr) ((hfind r).symm.trans hroot)
          exact ⟨cells, hcells.keep hsize hfind (listed_bindValue c v r) rfl fun _ _ h => by cases h⟩
      | check c v =>
          have hfind := find_bindOrCheck (after earlier) c v
          have hsize := size_bindOrCheck (after earlier) c v
          obtain ⟨cells, hcells⟩ := ih hranged' hd (hsize ▸ hr) ((hfind r).symm.trans hroot)
          exact ⟨cells, hcells.keep hsize hfind (listed_bindOrCheck c v r) rfl fun _ _ h => by cases h⟩
      | unify a b =>
          rcases unify_effect hranged.1.1 hranged.1.2 with hsame | ⟨older, younger, hlinked, hlist⟩
          · rw [hsame] at hr hroot
            obtain ⟨cells, hcells⟩ := ih hranged' hd hr hroot
            refine ⟨cells, hcells.keep (by rw [hsame]) (by simp [hsame]) (by rw [hsame]) rfl fun a' b' h hj => ?_⟩
            obtain ⟨rfl, rfl⟩ := Action.unify.inj h
            exact hj.1 ((congrArg (fun s => s.find a) hsame).symm.trans
              (hj.2.trans (congrArg (fun s => s.find b) hsame)))
          · exact hlinked.exists_account hd (hranged'.history.once .empty .empty) hlist
              (fun hr' hroot' => ih hranged' hd hr' hroot') hr hroot

theorem idxOf_introduced {actions : List Action} (hd : ((introduced actions).map Actual.id).Nodup) {cells : List Nat}
    (hcells : ∀ i ∈ cells, i < (introduced actions).length) :
    (cells.filterMap fun i => (introduced actions)[i]?).map (introduced actions).idxOf = cells := by
  induction cells with
  | nil => rfl
  | cons i cells ih =>
      have hi := hcells i List.mem_cons_self
      rw [List.filterMap_cons_some (List.getElem?_eq_getElem hi), List.map_cons,
        ih fun j hj => hcells j (List.mem_cons_of_mem i hj), (hd.of_map _).idxOf_getElem i hi]

theorem mem_classOf {c i : Nat} : i ∈ s.classOf c ↔ i < s.cells.size ∧ s.find i = s.find c := by
  rw [classOf, List.mem_filter, List.mem_range, decide_eq_true_iff]

theorem sorted_classOf (s : Store) (c : Nat) : (s.classOf c).Pairwise (· < ·) :=
  List.pairwise_lt_range.filter _

theorem head?_classOf {c : Nat} (hc : c < s.cells.size) : (s.classOf c).head? = some (s.find c) := by
  have hmem : s.find c ∈ s.classOf c := mem_classOf.mpr ⟨find_lt hc, find_find s c⟩
  have hsorted := sorted_classOf s c
  cases hcells : s.classOf c with
  | nil =>
      rw [hcells] at hmem
      exact absurd hmem List.not_mem_nil
  | cons i rest =>
      have hi : s.find i = s.find c := (mem_classOf.mp (hcells ▸ List.mem_cons_self)).2
      rw [hcells] at hmem hsorted
      rcases List.mem_cons.mp hmem with heq | hrest
      · rw [heq, List.head?_cons]
      · have hlt := (List.pairwise_cons.mp hsorted).1 _ hrest
        have hle := s.find_le i
        omega

theorem head?_introduced {actions : List Action} {cells : List Nat} {r : Nat} (hfirst : cells.head? = some r)
    (hr : r < (introduced actions).length) :
    (cells.filterMap fun i => (introduced actions)[i]?).head? = (introduced actions)[r]? := by
  obtain ⟨rest, rfl⟩ := List.head?_eq_some_iff.mp hfirst
  rw [List.filterMap_cons_some (List.getElem?_eq_getElem hr), List.head?_cons, List.getElem?_eq_getElem hr]

/-- The parameter listed first is the oldest of its class, always. All parameters of the class are listed just when no
unification that made it was refused, and they are listed oldest first just when, what is more, each of these
unifications found all cells of one class older than all cells of the other. -/
theorem aliases_oldest_first_iff {actions : List Action} (hranged : Ranged actions)
    (hd : ((introduced actions).map Actual.id).Nodup) {c : Nat} (hc : c < (after actions).cells.size) :
    ((after actions).aliases c).head? = (oldestFirst actions c).head? ∧
    (((after actions).aliases c).Perm (oldestFirst actions c) ↔ Along actions c Went) ∧
    ((after actions).aliases c = oldestFirst actions c ↔ Along actions c fun s a b => s.Went a b ∧ s.Apart a b) := by
  obtain ⟨cells, hcells⟩ := exists_account hranged hd (find_lt hc) (find_find _ c)
  have halong (P : Store → Nat → Nat → Prop) : Along actions ((after actions).find c) P ↔ Along actions c P := by
    simp only [Along, find_find]
  have hlength (i : Nat) (hi : i < (after actions).cells.size) : i < (introduced actions).length :=
    size_after actions ▸ hi
  have hlist : (after actions).aliases c = cells.filterMap fun i => (introduced actions)[i]? := hcells.listed
  have hback := idxOf_introduced hd fun i hi => hlength i (hcells.within i hi).1
  have hback' : (((after actions).classOf c).filterMap fun i => (introduced actions)[i]?).map (introduced actions).idxOf =
      (after actions).classOf c := idxOf_introduced hd fun i hi => hlength i (mem_classOf.mp hi).1
  have hmem (hfull : Full actions ((after actions).find c) cells) (i : Nat) : i ∈ cells ↔ i ∈ (after actions).classOf c :=
    ⟨fun hi => mem_classOf.mpr (hcells.within i hi), fun hi => hfull i (mem_classOf.mp hi).1 (mem_classOf.mp hi).2⟩
  have hsorted := sorted_classOf (after actions) c
  refine ⟨?_, ?_, ?_⟩
  · have hroot := hlength ((after actions).find c) (find_lt hc)
    rw [hlist, oldestFirst, head?_introduced hcells.first hroot, head?_introduced (head?_classOf hc) hroot]
  · rw [← halong, ← hcells.full_iff, hlist, oldestFirst]
    constructor
    · intro hperm i hi hri
      have hcellsPerm := hperm.map (introduced actions).idxOf
      rw [hback, hback'] at hcellsPerm
      exact hcellsPerm.mem_iff.mpr (mem_classOf.mpr ⟨hi, hri⟩)
    · intro hfull
      exact ((List.perm_ext_iff_of_nodup hcells.nodup hsorted.nodup).mpr (hmem hfull)).filterMap _
  · rw [← halong, ← hcells.ordered_iff, hlist, oldestFirst]
    constructor
    · intro heq
      have hsame := congrArg (List.map (introduced actions).idxOf) heq
      rw [hback, hback'] at hsame
      rw [hsame]
      exact ⟨fun i hi hri => mem_classOf.mpr ⟨hi, hri⟩, hsorted⟩
    · rintro ⟨hfull, hordered⟩
      rw [hordered.eq_of_mem_iff hsorted (hmem hfull)]

def outputs (n : Nat) : Actual := .output (.shared n) none .int none

def inTurn : List Action :=
  [.unify 1 2, .unify 0 1, .introduce (outputs 2) 0, .introduce (outputs 1) 0, .introduce (outputs 0) 0]

theorem inTurn_in_order : (after inTurn).aliases 2 = [outputs 0, outputs 1, outputs 2] ∧
    Along inTurn 2 fun s a b => s.Went a b ∧ s.Apart a b := by
  have hranged : Ranged inTurn := by decide +kernel
  have hc : 2 < (after inTurn).cells.size := by decide +kernel
  obtain ⟨-, -, hordered⟩ := aliases_oldest_first_iff hranged (by decide +kernel) hc
  have haliases : (after inTurn).aliases 2 = oldestFirst inTurn 2 := by decide +kernel
  exact ⟨haliases.trans (by decide +kernel), hordered.mp haliases⟩

/-- The first of three variables becomes one with the third, and then with the second. -/
def thirdFirst : List Action :=
  [.unify 0 1, .unify 0 2, .introduce (outputs 2) 0, .introduce (outputs 1) 0, .introduce (outputs 0) 0]

theorem thirdFirst_not_in_order : ¬∀ actions : List Action, Ranged actions →
    ((introduced actions).map Actual.id).Nodup → ∀ c < (after actions).cells.size,
      (after actions).aliases c = oldestFirst actions c := by
  intro h
  have horder := h thirdFirst (by decide +kernel) (by decide +kernel) 0 (by decide +kernel)
  have hlisted : (after thirdFirst).aliases 0 = [outputs 0, outputs 2, outputs 1] := by decide +kernel
  have holdest : oldestFirst thirdFirst 0 = [outputs 0, outputs 1, outputs 2] := by decide +kernel
  rw [hlisted, holdest] at horder
  exact absurd horder (by decide)

end Store
end Clausal
