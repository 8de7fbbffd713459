import Clausal.Proofs.Branch
import Mathlib.Data.List.Shortlex

/-! Choice sequences. A branch of a search is told by the positions of the clauses that were chosen
for the query, then for the call that it stopped at, and so on. The branches of a query form a tree,
whose levels are finite lists. Main statements: the levels hold each branch once, and read one after
the other they are in shortlex order. -/
namespace Clausal

variable {σ : Type}

def callOf? : Except Failure (Outcome σ) → Option (Call σ)
  | .ok (.suspended call) => some call
  | .ok (.complete _) | .ok .failed | .error _ => none

namespace Pending

variable (d : Database σ) (host : σ)

def outcome (p : Pending σ) (c : Clause σ) : Except Failure (Outcome σ) := (p.solve c).result host

/-- The clause at a position among those of the name, if it matches the arguments. -/
def clauseAt? (p : Pending σ) (i : Nat) : Option (Clause σ) :=
  (d.named p.name)[i]?.filter fun c => c.Matches p.actuals

def child? (p : Pending σ) (i : Nat) : Option (Pending σ) :=
  (p.clauseAt? d i).bind fun c => (callOf? (p.outcome host c)).map .call

/-- The lookup after a sequence of choices each of which led to a call. -/
def reach? (p : Pending σ) : List Nat → Option (Pending σ)
  | [] => some p
  | i :: rest => (p.child? d host i).bind fun q => q.reach? rest

/-- The branch of a choice sequence: the lookup that its last choice was made for, and the clause. -/
def branch? (p : Pending σ) : List Nat → Option (Pending σ × Clause σ)
  | [] => none
  | [i] => (p.clauseAt? d i).map fun c => (p, c)
  | i :: rest => (p.child? d host i).bind fun q => q.branch? rest

def result? (p : Pending σ) (b : List Nat) : Option (Except Failure (Outcome σ)) :=
  (p.branch? d host b).map fun x => x.1.outcome host x.2

theorem branch?_append (p : Pending σ) (path : List Nat) (i : Nat) :
    p.branch? d host (path ++ [i]) =
      (p.reach? d host path).bind fun q => (q.clauseAt? d i).map fun c => (q, c) := by
  induction path generalizing p with
  | nil => rfl
  | cons j rest ih =>
      have hne : rest ++ [i] ≠ [] := by simp
      obtain ⟨k, ks, hk⟩ := List.exists_cons_of_ne_nil hne
      rw [List.cons_append, hk, branch?, reach?, Option.bind_assoc]
      · exact congrArg _ (funext fun q => hk ▸ ih q)
      · exact fun h => by cases h

theorem reach?_append (p : Pending σ) (path : List Nat) (i : Nat) :
    p.reach? d host (path ++ [i]) = (p.reach? d host path).bind fun q => q.child? d host i := by
  induction path generalizing p with
  | nil =>
      rw [List.nil_append, reach?, reach?, Option.bind_some]
      exact Option.bind_fun_some _
  | cons j rest ih =>
      rw [List.cons_append, reach?, reach?, Option.bind_assoc]
      exact congrArg _ (funext ih)

end Pending

/-- A lookup of the tree and the choices that lead to it. -/
structure Lookup (σ : Type) where
  path : List Nat
  pending : Pending σ

/-- A branch of the tree: its choice sequence, its last lookup and the clause chosen there. -/
structure Attempt (σ : Type) where
  path : List Nat
  origin : Pending σ
  clause : Clause σ

namespace Lookup

variable (d : Database σ)

def attemptsFrom (l : Lookup σ) : Nat → List (Clause σ) → List (Attempt σ)
  | _, [] => []
  | i, c :: rest =>
    if c.Matches l.pending.actuals then ⟨l.path ++ [i], l.pending, c⟩ :: l.attemptsFrom (i + 1) rest
    else l.attemptsFrom (i + 1) rest

/-- The turns that a lookup takes: one for each branch, and a last one that finds no more of them. -/
def turnsFrom (l : Lookup σ) (i : Nat) (clauses : List (Clause σ)) : List (Option (Attempt σ)) :=
  (l.attemptsFrom i clauses).map some ++ [none]

def turns (l : Lookup σ) : List (Option (Attempt σ)) := l.turnsFrom 0 (d.named l.pending.name)

end Lookup

namespace Attempt

variable (host : σ)

def outcome (a : Attempt σ) : Except Failure (Outcome σ) := a.origin.outcome host a.clause

def child? (a : Attempt σ) : Option (Lookup σ) :=
  (callOf? (a.outcome host)).map fun call => ⟨a.path, .call call⟩

end Attempt

def children (host : σ) (ts : List (Option (Attempt σ))) : List (Lookup σ) :=
  ts.filterMap fun t => t.bind fun a => a.child? host

namespace Pending

variable (d : Database σ) (host : σ)

/-- The lookups that take as many choices to reach. -/
def level (q : Pending σ) : Nat → List (Lookup σ)
  | 0 => [⟨[], q⟩]
  | n + 1 => children host ((q.level n).flatMap (Lookup.turns d))

def turnsAbove (q : Pending σ) : Nat → List (Option (Attempt σ))
  | 0 => []
  | n + 1 => q.turnsAbove n ++ (q.level d host n).flatMap (Lookup.turns d)

end Pending

theorem mem_attemptsFrom {l : Lookup σ} {i : Nat} {clauses : List (Clause σ)} {a : Attempt σ} :
    a ∈ l.attemptsFrom i clauses ↔ ∃ j c, clauses[j]? = some c ∧ c.Matches l.pending.actuals ∧
      a = ⟨l.path ++ [i + j], l.pending, c⟩ := by
  induction clauses generalizing i with
  | nil => simp [Lookup.attemptsFrom]
  | cons c rest ih =>
      have hrest : a ∈ l.attemptsFrom (i + 1) rest ↔ ∃ j c', (c :: rest)[j + 1]? = some c' ∧
          c'.Matches l.pending.actuals ∧ a = ⟨l.path ++ [i + (j + 1)], l.pending, c'⟩ := by
        rw [ih]
        simp only [List.getElem?_cons_succ, Nat.add_assoc, Nat.add_comm 1]
      constructor
      · intro h
        rw [Lookup.attemptsFrom] at h
        split at h
        · rename_i hc
          rcases List.mem_cons.mp h with rfl | h
          · exact ⟨0, c, rfl, hc, rfl⟩
          · obtain ⟨j, hj⟩ := hrest.mp h
            exact ⟨j + 1, hj⟩
        · obtain ⟨j, hj⟩ := hrest.mp h
          exact ⟨j + 1, hj⟩
      · rintro ⟨j, c', hj, hm, ha⟩
        rw [Lookup.attemptsFrom]
        cases j with
        | zero =>
            cases hj
            rw [if_pos hm, ha]
            exact List.mem_cons_self
        | succ j =>
            have hin := hrest.mpr ⟨j, c', hj, hm, ha⟩
            split
            · exact List.mem_cons_of_mem _ hin
            · exact hin

theorem mem_turns {d : Database σ} {l : Lookup σ} {a : Attempt σ} :
    some a ∈ l.turns d ↔ ∃ i, l.pending.clauseAt? d i = some a.clause ∧
      a.path = l.path ++ [i] ∧ a.origin = l.pending := by
  unfold Lookup.turns Lookup.turnsFrom
  simp only [List.mem_append, List.mem_map, Option.some.injEq, exists_eq_right, List.mem_singleton,
    reduceCtorEq, or_false]
  rw [mem_attemptsFrom]
  constructor
  · rintro ⟨i, c, hc, hm, rfl⟩
    refine ⟨i, ?_, by rw [Nat.zero_add], rfl⟩
    rw [Pending.clauseAt?, hc]
    exact Option.filter_some_pos (decide_eq_true hm)
  · rintro ⟨i, hc, hp, ho⟩
    obtain ⟨hc, hm⟩ := Option.filter_eq_some_iff.mp hc
    refine ⟨i, a.clause, hc, of_decide_eq_true hm, ?_⟩
    rw [Nat.zero_add, ← hp, ← ho]

theorem mem_children {host : σ} {ts : List (Option (Attempt σ))} {l : Lookup σ} :
    l ∈ children host ts ↔ ∃ a, some a ∈ ts ∧ a.child? host = some l := by
  unfold children
  rw [List.mem_filterMap]
  constructor
  · rintro ⟨t, ht, hl⟩
    cases t with
    | none => cases hl
    | some a => exact ⟨a, ht, hl⟩
  · rintro ⟨a, ha, hl⟩
    exact ⟨some a, ha, hl⟩

theorem child?_eq_some {host : σ} {a : Attempt σ} {l : Lookup σ} :
    a.child? host = some l ↔
      l.path = a.path ∧ (callOf? (a.outcome host)).map Pending.call = some l.pending := by
  unfold Attempt.child?
  cases callOf? (a.outcome host) with
  | none => simp
  | some call =>
      obtain ⟨path, pending⟩ := l
      simp only [Option.map_some, Option.some.injEq, Lookup.mk.injEq]
      exact and_congr_left fun _ => eq_comm

variable {d : Database σ} {host : σ} {q : Pending σ}

theorem mem_level {n : Nat} {l : Lookup σ} :
    l ∈ q.level d host n ↔ l.path.length = n ∧ q.reach? d host l.path = some l.pending := by
  induction n generalizing l with
  | zero =>
      rw [Pending.level, List.mem_singleton, List.length_eq_zero_iff]
      constructor
      · rintro rfl
        exact ⟨rfl, rfl⟩
      · obtain ⟨path, pending⟩ := l
        rintro ⟨rfl, h⟩
        exact congrArg _ (Option.some.inj h).symm
  | succ n ih =>
      rw [Pending.level, mem_children]
      constructor
      · rintro ⟨a, ha, hl⟩
        obtain ⟨hpath, hcall⟩ := child?_eq_some.mp hl
        obtain ⟨above, habove, hturn⟩ := List.mem_flatMap.mp ha
        obtain ⟨i, hc, hp, ho⟩ := mem_turns.mp hturn
        obtain ⟨hlen, hreach⟩ := ih.mp habove
        refine ⟨by rw [hpath, hp, List.length_append, hlen]; rfl, ?_⟩
        rw [hpath, hp, Pending.reach?_append, hreach, Option.bind_some, Pending.child?, hc, Option.bind_some,
          ← hcall, Attempt.outcome, ho]
      · rintro ⟨hlen, hreach⟩
        obtain ⟨path, i, hsplit⟩ := List.eq_nil_or_concat' l.path |>.resolve_left fun h => by simp [h] at hlen
        rw [hsplit, Pending.reach?_append] at hreach
        obtain ⟨p, hp, hchild⟩ := Option.bind_eq_some_iff.mp hreach
        obtain ⟨c, hc, hcall⟩ := Option.bind_eq_some_iff.mp hchild
        refine ⟨⟨l.path, p, c⟩, List.mem_flatMap.mpr ⟨⟨path, p⟩, ih.mpr ⟨?_, hp⟩, ?_⟩, ?_⟩
        · simpa [hsplit] using hlen
        · exact mem_turns.mpr ⟨i, hc, hsplit, rfl⟩
        · exact child?_eq_some.mpr ⟨rfl, hcall⟩

/-- The turns of one level make the branches of one length. -/
theorem mem_level_turns {n : Nat} {a : Attempt σ} :
    some a ∈ (q.level d host n).flatMap (Lookup.turns d) ↔
      a.path.length = n + 1 ∧ q.branch? d host a.path = some (a.origin, a.clause) := by
  rw [List.mem_flatMap]
  constructor
  · rintro ⟨l, hl, ha⟩
    obtain ⟨hlen, hreach⟩ := mem_level.mp hl
    obtain ⟨i, hc, hp, ho⟩ := mem_turns.mp ha
    refine ⟨by rw [hp, List.length_append, hlen]; rfl, ?_⟩
    rw [hp, Pending.branch?_append, hreach, Option.bind_some, hc, Option.map_some, ho]
  · rintro ⟨hlen, hb⟩
    obtain ⟨path, i, hsplit⟩ := List.eq_nil_or_concat' a.path |>.resolve_left fun h => by simp [h] at hlen
    rw [hsplit, Pending.branch?_append] at hb
    obtain ⟨p, hp, hb⟩ := Option.bind_eq_some_iff.mp hb
    obtain ⟨c, hc, hpc⟩ := Option.map_eq_some_iff.mp hb
    obtain ⟨ho, hcl⟩ := Prod.mk.inj hpc
    refine ⟨⟨path, p⟩, mem_level.mpr ⟨?_, hp⟩, mem_turns.mpr ⟨i, ?_, hsplit, ho.symm⟩⟩
    · simpa [hsplit] using hlen
    · rw [← hcl]
      exact hc

theorem branch?_ne_nil {b : List Nat} {x : Pending σ × Clause σ} (h : q.branch? d host b = some x) :
    0 < b.length := by
  cases b with
  | nil => cases h
  | cons i rest => exact Nat.zero_lt_succ _

/-- The turns above a level make all branches that are no longer. -/
theorem mem_turnsAbove {n : Nat} {a : Attempt σ} :
    some a ∈ q.turnsAbove d host n ↔
      a.path.length ≤ n ∧ q.branch? d host a.path = some (a.origin, a.clause) := by
  induction n with
  | zero =>
      constructor
      · intro h
        cases h
      · rintro ⟨hlen, hb⟩
        exact absurd (branch?_ne_nil hb) (Nat.not_lt.mpr hlen)
  | succ n ih =>
      rw [Pending.turnsAbove, List.mem_append, ih, mem_level_turns, ← or_and_right, Nat.le_succ_iff]

theorem shortlex_snoc {s t : List Nat} (h : List.Shortlex (· < ·) s t) (i j : Nat) :
    List.Shortlex (· < ·) (s ++ [i]) (t ++ [j]) := by
  rcases List.shortlex_def.mp h with h | ⟨hlen, hlex⟩
  · exact .of_length_lt (by simpa using h)
  · refine .of_lex (by simp [hlen]) ?_
    clear h
    induction hlex with
    | nil => cases hlen
    | cons _ ih => exact .cons (ih (Nat.succ.inj hlen))
    | rel h => exact .rel h

/-- If both turns make branches, then the first one's comes first in shortlex order. -/
def Before (t u : Option (Attempt σ)) : Prop :=
  ∀ a, t = some a → ∀ b, u = some b → List.Shortlex (· < ·) a.path b.path

theorem attemptsFrom_sorted (l : Lookup σ) (i : Nat) (clauses : List (Clause σ)) :
    (l.attemptsFrom i clauses).Pairwise fun a b => List.Shortlex (· < ·) a.path b.path := by
  induction clauses generalizing i with
  | nil => exact .nil
  | cons c rest ih =>
      rw [Lookup.attemptsFrom]
      split
      · refine .cons ?_ (ih (i + 1))
        intro b hb
        obtain ⟨j, c', -, -, rfl⟩ := mem_attemptsFrom.mp hb
        have hlt : List.Shortlex (· < ·) [i] [i + 1 + j] :=
          (List.shortlex_singleton_iff _ _).mpr (by omega)
        exact hlt.append_left l.path
      · exact ih (i + 1)

theorem turns_sorted (d : Database σ) (l : Lookup σ) : (l.turns d).Pairwise Before := by
  refine List.pairwise_append.mpr ⟨?_, List.pairwise_singleton _ _, ?_⟩
  · refine List.pairwise_map.mpr ((attemptsFrom_sorted l 0 _).imp fun h => ?_)
    rintro a ha b hb
    cases ha
    cases hb
    exact h
  · intro t _ u hu a _ b hb
    rw [List.mem_singleton.mp hu] at hb
    cases hb

theorem level_sorted (n : Nat) :
    (q.level d host n).Pairwise (fun l m => List.Shortlex (· < ·) l.path m.path) ∧
      ((q.level d host n).flatMap (Lookup.turns d)).Pairwise Before := by
  have turns_of_level {ls : List (Lookup σ)}
      (h : ls.Pairwise fun l m => List.Shortlex (· < ·) l.path m.path) :
      (ls.flatMap (Lookup.turns d)).Pairwise Before := by
    refine List.pairwise_flatMap.mpr ⟨fun l _ => turns_sorted d l, h.imp fun hlm => ?_⟩
    rintro t ht u hu a rfl b rfl
    obtain ⟨i, -, hi, -⟩ := mem_turns.mp ht
    obtain ⟨j, -, hj, -⟩ := mem_turns.mp hu
    rw [hi, hj]
    exact shortlex_snoc hlm i j
  induction n with
  | zero => exact ⟨List.pairwise_singleton _ _, turns_of_level (List.pairwise_singleton _ _)⟩
  | succ n ih =>
      have hlevel : (q.level d host (n + 1)).Pairwise fun l m => List.Shortlex (· < ·) l.path m.path := by
        refine List.pairwise_filterMap.mpr (ih.2.imp fun {t u} h l hl m hm => ?_)
        obtain ⟨a, ha, hl⟩ := Option.bind_eq_some_iff.mp hl
        obtain ⟨b, hb, hm⟩ := Option.bind_eq_some_iff.mp hm
        rw [(child?_eq_some.mp hl).1, (child?_eq_some.mp hm).1]
        exact h a ha b hb
      exact ⟨hlevel, turns_of_level hlevel⟩

theorem turnsAbove_sorted (d : Database σ) (host : σ) (q : Pending σ) (n : Nat) :
    (q.turnsAbove d host n).Pairwise Before := by
  induction n with
  | zero => exact .nil
  | succ n ih =>
      refine List.pairwise_append.mpr ⟨ih, (level_sorted n).2, ?_⟩
      rintro t ht u hu a rfl b rfl
      have ha := (mem_turnsAbove.mp ht).1
      have hb := (mem_level_turns.mp hu).1
      exact .of_length_lt (by omega)

/-- Deeper levels only add turns behind. -/
theorem turnsAbove_mono {m n : Nat} (h : m ≤ n) : q.turnsAbove d host m <+: q.turnsAbove d host n := by
  induction h with
  | refl => exact List.prefix_refl _
  | step _ ih => exact ih.trans (List.prefix_append _ _)

end Clausal
