import Clausal.Proofs.SearchOrder
import Mathlib.Data.List.Flatten
import Mathlib.Data.List.Perm.Subperm

/-! Clauses are independent alternatives. A search that comes to its end has read its answers off the rows of a tree,
and a branch of the tree takes from its clause, and from the call that it goes on from, all that it comes to. Sources
that tell more clauses of a name, or the same ones in another order, therefore have trees that are alike row by row.
Main statement: what some clauses answer they answer among others too, as often at least and in the same order if the
clauses keep theirs, and reordered clauses give the same answers. -/
namespace Clausal

variable {σ : Type}

/-- A relation between lists that is carried over from alternatives to all that each one makes by itself. -/
structure Carried (R : (α : Type) → List α → List α → Prop) : Prop where
  refl : ∀ {α : Type} (l : List α), R α l l
  trans : ∀ {α : Type} {l₁ l₂ l₃ : List α}, R α l₁ l₂ → R α l₂ l₃ → R α l₁ l₃
  append : ∀ {α : Type} {l₁ l₂ l₁' l₂' : List α}, R α l₁ l₁' → R α l₂ l₂' → R α (l₁ ++ l₂) (l₁' ++ l₂')
  flatMap : ∀ {α β : Type} {l l' : List α} (f : α → List β), R α l l' → R β (l.flatMap f) (l'.flatMap f)
  subset : ∀ {α : Type} {l l' : List α}, R α l l' → l ⊆ l'

theorem carried_sublist : Carried fun _ l l' => l.Sublist l' where
  refl := List.Sublist.refl
  trans := List.Sublist.trans
  append := List.Sublist.append
  flatMap := fun f h => h.flatMap f
  subset := List.Sublist.subset

theorem carried_perm : Carried fun _ l l' => l.Perm l' where
  refl := List.Perm.refl
  trans := List.Perm.trans
  append := List.Perm.append
  flatMap := fun f h => h.flatMap_right f
  subset := List.Perm.subset

theorem carried_subperm : Carried fun _ l l' => l.Subperm l' where
  refl := List.Subperm.refl
  trans := List.Subperm.trans
  append := List.Subperm.append
  flatMap := by
    rintro α β l l' f ⟨m, hperm, hsub⟩
    exact ⟨m.flatMap f, hperm.flatMap_right f, hsub.flatMap f⟩
  subset := List.Subperm.subset

namespace Carried

variable {R : (α : Type) → List α → List α → Prop} {α β : Type}

theorem pointwise (hR : Carried R) {l : List α} {f g : α → List β} (h : ∀ x ∈ l, R β (f x) (g x)) :
    R β (l.flatMap f) (l.flatMap g) := by
  induction l with
  | nil => exact hR.refl []
  | cons x l ih =>
      rw [List.flatMap_cons, List.flatMap_cons]
      exact hR.append (h x List.mem_cons_self) (ih fun y hy => h y (List.mem_cons_of_mem x hy))

theorem filterMap (hR : Carried R) {l l' : List α} (f : α → Option β) (h : R α l l') :
    R β (l.filterMap f) (l'.filterMap f) := by
  rw [List.filterMap_eq_flatMap_toList, List.filterMap_eq_flatMap_toList]
  exact hR.flatMap _ h

end Carried

/-- What is told of each name: its clauses, or the error that a lookup of it raises. -/
abbrev Table (σ : Type) := String → Except Error (List (Clause σ))

/-- The source tells the same of a name whenever it is asked, and the clauses that it hands out are pure. -/
structure Source.Steady (s : Source σ) (table : Table σ) : Prop where
  answers : ∀ name, (s.lookup name false).Answers (table name)
  pure_of_ok : ∀ name clauses, table name = .ok clauses → ∀ c ∈ clauses, c.Pure

theorem Database.source_steady {d : Database σ} (hd : d.Pure) : d.source.Steady fun name => .ok (d.named name) where
  answers := by
    intro name host
    refine ⟨rfl, fun t ht => ?_⟩
    cases List.mem_singleton.mp ht
  pure_of_ok := by
    rintro name clauses ⟨⟩ c hc
    exact hd c (List.mem_filter.mp hc).1

def answerOf? : Except Failure (Outcome σ) → Option Answer
  | .ok (.complete e) => some (Answer.ofEnv e)
  | .ok .failed | .ok (.suspended _) | .error _ => none

namespace Pending

def tries (p : Pending σ) (clauses : List (Clause σ)) : List (Pending σ × Clause σ) :=
  clauses.filterMap fun c => if c.Matches p.actuals then some (p, c) else none

def branches (table : Table σ) (p : Pending σ) : List (Pending σ × Clause σ) :=
  match table p.name with
  | .ok clauses => p.tries clauses
  | .error _ => []

def next? (host : σ) (x : Pending σ × Clause σ) : Option (Pending σ) := (callOf? (x.1.outcome host x.2)).map .call

def answer? (host : σ) (x : Pending σ × Clause σ) : Option Answer := answerOf? (x.1.outcome host x.2)

variable (table : Table σ) (host : σ)

/-- The lookups at a depth of the tree. -/
def row (q : Pending σ) : Nat → List (Pending σ)
  | 0 => [q]
  | n + 1 => ((q.row n).flatMap (branches table)).filterMap (next? host)

/-- The answers of the branches above a depth. -/
def answersAbove (q : Pending σ) : Nat → List Answer
  | 0 => []
  | n + 1 => q.answersAbove n ++ ((q.row table host n).flatMap (branches table)).filterMap (answer? host)

/-- The lookup does not fail. -/
def Found (p : Pending σ) : Prop := ∃ clauses, table p.name = .ok clauses

/-- These are the answers of the whole tree, which is finite and in which no lookup fails. -/
structure Complete (q : Pending σ) (answers : List Answer) : Prop where
  answers_eq : ∃ n, ∀ m ≥ n, answers = q.answersAbove table host m
  found : ∀ n, ∀ p ∈ q.row table host n, p.Found table

end Pending

open Pending

section Rows

variable {table table' : Table σ} {host : σ} {q : Pending σ} {R : (α : Type) → List α → List α → Prop}

theorem row_carried (hR : Carried R)
    (htable : ∀ name cs cs', table name = .ok cs → table' name = .ok cs' → R _ cs cs')
    (hfound : ∀ n, ∀ p ∈ q.row table host n, p.Found table)
    (hfound' : ∀ n, ∀ p ∈ q.row table' host n, p.Found table') (n : Nat) :
    R _ (q.row table host n) (q.row table' host n) ∧
      R _ ((q.row table host n).flatMap (branches table)) ((q.row table' host n).flatMap (branches table')) := by
  have hbranches (n : Nat) (hrow : R _ (q.row table host n) (q.row table' host n)) :
      R _ ((q.row table host n).flatMap (branches table)) ((q.row table' host n).flatMap (branches table')) := by
    refine hR.trans (hR.pointwise fun p hp => ?_) (hR.flatMap (branches table') hrow)
    obtain ⟨cs, hcs⟩ := hfound n p hp
    obtain ⟨cs', hcs'⟩ := hfound' n p (hR.subset hrow hp)
    unfold branches
    rw [hcs, hcs']
    exact hR.filterMap _ (htable p.name cs cs' hcs hcs')
  induction n with
  | zero => exact ⟨hR.refl _, hbranches 0 (hR.refl _)⟩
  | succ n ih =>
      have hrow : R _ (q.row table host (n + 1)) (q.row table' host (n + 1)) := hR.filterMap (next? host) ih.2
      exact ⟨hrow, hbranches (n + 1) hrow⟩

theorem Pending.Complete.carried (hR : Carried R)
    (htable : ∀ name cs cs', table name = .ok cs → table' name = .ok cs' → R _ cs cs') {answers answers' : List Answer}
    (h : q.Complete table host answers) (h' : q.Complete table' host answers') : R _ answers answers' := by
  have habove (n : Nat) : R _ (q.answersAbove table host n) (q.answersAbove table' host n) := by
    induction n with
    | zero => exact hR.refl []
    | succ n ih => exact hR.append ih (hR.filterMap _ (row_carried hR htable h.found h'.found n).2)
  obtain ⟨n, hn⟩ := h.answers_eq
  obtain ⟨n', hn'⟩ := h'.answers_eq
  rw [hn _ (Nat.le_max_left n n'), hn' _ (Nat.le_max_right n n')]
  exact habove _

/-- The branches of the tree are pure. -/
theorem row_pure {src : Source σ} (hsrc : src.Steady table) (hq : q.Pure) (n : Nat) :
    (∀ p ∈ q.row table host n, p.Pure) ∧
      ∀ x ∈ (q.row table host n).flatMap (branches table), x.1.Pure ∧ x.2.Pure := by
  have hbranches (n : Nat) (hrow : ∀ p ∈ q.row table host n, p.Pure) :
      ∀ x ∈ (q.row table host n).flatMap (branches table), x.1.Pure ∧ x.2.Pure := by
    intro x hx
    obtain ⟨p, hp, hx⟩ := List.mem_flatMap.mp hx
    unfold branches at hx
    split at hx
    · rename_i clauses hclauses
      obtain ⟨c, hc, hx⟩ := List.mem_filterMap.mp hx
      split at hx
      · cases hx
        exact ⟨hrow p hp, hsrc.pure_of_ok _ _ hclauses c hc⟩
      · cases hx
    · cases hx
  induction n with
  | zero =>
      have hrow : ∀ p ∈ q.row table host 0, p.Pure := by
        intro p hp
        rw [List.mem_singleton.mp hp]
        exact hq
      exact ⟨hrow, hbranches 0 hrow⟩
  | succ n ih =>
      have hrow : ∀ p ∈ q.row table host (n + 1), p.Pure := by
        intro p hp
        obtain ⟨x, hx, hnext⟩ := List.mem_filterMap.mp hp
        obtain ⟨call, hcall, rfl⟩ := Option.map_eq_some_iff.mp hnext
        exact Pending.outcome_pure (ih.2 x hx).1 (ih.2 x hx).2 hcall
      exact ⟨hrow, hbranches (n + 1) hrow⟩

theorem complete_of_row_nil {n : Nat} (hnil : q.row table host n = [])
    (hfound : ∀ m < n, ∀ p ∈ q.row table host m, p.Found table) :
    q.Complete table host (q.answersAbove table host n) := by
  have hbelow {m : Nat} (hm : n ≤ m) :
      q.row table host m = [] ∧ q.answersAbove table host m = q.answersAbove table host n := by
    induction hm with
    | refl => exact ⟨hnil, rfl⟩
    | step hm ih =>
        rw [row, answersAbove, ih.1, ih.2]
        exact ⟨rfl, List.append_nil _⟩
  refine ⟨⟨n, fun m hm => (hbelow hm).2.symm⟩, fun m p hp => ?_⟩
  rcases Nat.lt_or_ge m n with hm | hm
  · exact hfound m hm p hp
  · rw [(hbelow hm).1] at hp
    cases hp

end Rows

/-- How far a row of the tree has been gone through: which of its lookups have been opened and which are still to come,
which of the branches opened have been tried and which are left. The queue has the lookups to come, and then those that
the tried branches have led to. -/
structure Place (table : Table σ) (host : σ) (q : Pending σ) (n : Nat) (opened later : List (Pending σ))
    (tried left : List (Pending σ × Clause σ)) (queue : List (Pending σ)) (yielded : List Answer) : Prop where
  row_eq : q.row table host n = opened ++ later
  tried_eq : tried ++ left = opened.flatMap (branches table)
  queue_eq : queue = later ++ tried.filterMap (next? host)
  yielded_eq : yielded = q.answersAbove table host n ++ tried.filterMap (answer? host)
  found_above : ∀ m < n, ∀ p ∈ q.row table host m, p.Found table
  found : ∀ p ∈ opened, p.Found table

namespace Place

variable {table : Table σ} {host : σ} {q : Pending σ} {n : Nat} {opened later : List (Pending σ)}
  {tried left : List (Pending σ × Clause σ)} {queue : List (Pending σ)} {yielded : List Answer}

theorem start : Place table host q 0 [] [q] [] [] [q] [] where
  row_eq := rfl
  tried_eq := rfl
  queue_eq := rfl
  yielded_eq := rfl
  found_above := fun _ h => absurd h (Nat.not_lt_zero _)
  found := fun _ h => absurd h List.not_mem_nil

theorem try_next {x : Pending σ × Clause σ} (h : Place table host q n opened later tried (x :: left) queue yielded) :
    Place table host q n opened later (tried ++ [x]) left (queue ++ (next? host x).toList)
      (yielded ++ (answer? host x).toList) where
  row_eq := h.row_eq
  tried_eq := by rw [List.append_assoc, List.singleton_append, h.tried_eq]
  queue_eq := by
    rw [h.queue_eq, List.filterMap_append, List.append_assoc, List.filterMap_eq_flatMap_toList (next? host) [x],
      List.flatMap_singleton]
  yielded_eq := by
    rw [h.yielded_eq, List.filterMap_append, List.append_assoc, List.filterMap_eq_flatMap_toList (answer? host) [x],
      List.flatMap_singleton]
  found_above := h.found_above
  found := h.found

theorem open_next {p : Pending σ} {clauses : List (Clause σ)}
    (h : Place table host q n opened (p :: later) tried [] queue yielded) (hclauses : table p.name = .ok clauses) :
    Place table host q n (opened ++ [p]) later tried (p.tries clauses) queue.tail yielded where
  row_eq := by rw [h.row_eq, List.append_assoc, List.singleton_append]
  tried_eq := by
    have htried : tried = opened.flatMap (branches table) := (List.append_nil tried).symm.trans h.tried_eq
    rw [List.flatMap_append, List.flatMap_singleton, ← htried, branches, hclauses]
  queue_eq := by rw [h.queue_eq]; rfl
  yielded_eq := h.yielded_eq
  found_above := h.found_above
  found := by
    intro p' hp'
    rcases List.mem_append.mp hp' with hp' | hp'
    · exact h.found p' hp'
    · exact List.mem_singleton.mp hp' ▸ ⟨clauses, hclauses⟩

/-- A row that has been gone through gives way to the next one. -/
theorem descend (h : Place table host q n opened [] tried [] queue yielded) :
    Place table host q (n + 1) [] queue [] [] queue yielded := by
  have hrow : q.row table host n = opened := h.row_eq.trans (List.append_nil opened)
  have htried : tried = (q.row table host n).flatMap (branches table) := by
    rw [hrow, ← h.tried_eq, List.append_nil]
  refine ⟨?_, rfl, (List.append_nil queue).symm, ?_, ?_, fun _ h => absurd h List.not_mem_nil⟩
  · rw [h.queue_eq, htried]
    rfl
  · rw [h.yielded_eq, htried, List.filterMap_nil, List.append_nil]
    rfl
  · intro m hm p hp
    rcases Nat.lt_succ_iff_lt_or_eq.mp hm with hm | rfl
    · exact h.found_above m hm p hp
    · exact h.found p (hrow ▸ hp)

theorem complete (h : Place table host q n [] [] [] left [] yielded) : q.Complete table host yielded := by
  rw [h.yielded_eq, List.filterMap_nil, List.append_nil]
  exact complete_of_row_nil h.row_eq h.found_above

theorem left_pure (h : Place table host q n opened later tried left queue yielded) {src : Source σ}
    (hsrc : src.Steady table) (hq : q.Pure) : ∀ x ∈ left, x.1.Pure ∧ x.2.Pure := by
  intro x hx
  apply (row_pure hsrc hq n).2 x
  rw [h.row_eq, List.flatMap_append, ← h.tried_eq]
  simp [hx]

end Place

def Search.left (s : Search σ) : List (Pending σ × Clause σ) :=
  match s.current with
  | some a => a.origin.tries a.clauses
  | none => []

/-- A search that goes through the tree, and has yielded the answers of what it has tried. -/
structure Stands (src : Source σ) (table : Table σ) (host : σ) (q : Pending σ) (s : Search σ) (yielded : List Answer) :
    Prop where
  source : s.source = src
  running : s.done = false
  place : ∃ n opened later tried, Place table host q n opened later tried s.left s.queue yielded

def Turn.Keeps (src : Source σ) (table : Table σ) (host : σ) (q : Pending σ) (yielded : List Answer) (s : Search σ) :
    Turn → Prop
  | .running => Stands src table host q s yielded
  | .answered a => Stands src table host q s (yielded ++ [a])
  | .exhausted => q.Complete table host yielded
  | .stopped _ => True

def Item.Keeps (src : Source σ) (table : Table σ) (host : σ) (q : Pending σ) (yielded : List Answer) (s : Search σ) :
    Item → Prop
  | .answer a => Stands src table host q s (yielded ++ [a])
  | .ended => q.Complete table host yielded
  | .failed _ | .crashed _ | .unfinished => True

section Run

variable {src : Source σ} {table : Table σ} {host : σ} {q : Pending σ} {s : Search σ} {yielded : List Answer}
  {n : Nat} {opened later : List (Pending σ)} {tried : List (Pending σ × Clause σ)} {w : World σ}

theorem attemptsFrom_map (l : Lookup σ) (i : Nat) (clauses : List (Clause σ)) :
    (l.attemptsFrom i clauses).map (fun a => (a.origin, a.clause)) = l.pending.tries clauses := by
  unfold Pending.tries
  induction clauses generalizing i with
  | nil => rfl
  | cons c rest ih =>
      rw [Lookup.attemptsFrom, List.filterMap_cons]
      split
      · rw [List.map_cons, ih]
      · exact ih (i + 1)

/-- A branch that has been tried makes its turn of the search. -/
theorem Stands.keeps {r : Except Failure (Outcome σ)}
    (h : Stands src table host q s (yielded ++ (answerOf? r).toList)) :
    (Search.turnOf r).Keeps src table host q yielded s := by
  rcases r with f | e | _ | call
  · trivial
  · exact h
  · exact (List.append_nil yielded) ▸ h
  · exact (List.append_nil yielded) ▸ h

theorem Stands.advance (hsrc : src.Steady table) (hq : q.Pure) {p : Pending σ} {clauses : List (Clause σ)}
    (hs : s.source = src) (hr : s.done = false)
    (h : Place table host q n opened later tried (p.tries clauses) s.queue yielded) (ht : s.token ∉ w.cancelled) :
    ∃ turn s' w', s.advance ⟨p, clauses⟩ w = ((turn, s'), w') ∧ s'.token ∉ w'.cancelled ∧
      turn.Keeps src table host q yielded s' := by
  let l : Lookup σ := ⟨[], p⟩
  have hmap := attemptsFrom_map l
  have hpure : ∀ a ∈ l.attemptsFrom 0 clauses, a.origin.Pure ∧ a.clause.Pure := by
    intro a ha
    have hmem := List.mem_map_of_mem (f := fun a : Attempt σ => (a.origin, a.clause)) ha
    rw [hmap] at hmem
    exact h.left_pure hsrc hq _ hmem
  obtain ⟨w', hc, ⟨hnil, -, hadv⟩ | ⟨j, a, rest, hcons, ho, -, hadv⟩⟩ := s.advance_run l 0 clauses ht host hpure
  · have htries : p.tries clauses = [] := by rw [← hmap 0 clauses, hnil]; rfl
    rw [htries] at h
    exact ⟨_, _, w', hadv, hc ▸ ht, hs, hr, n, opened, later, tried, h⟩
  · have htries : p.tries clauses = (p, a.clause) :: p.tries rest := by
      rw [← hmap 0 clauses, hcons, List.map_cons, hmap j rest, ho]
    rw [htries] at h
    have hplace := h.try_next
    refine ⟨_, _, w', hadv, hc ▸ ht, ?_⟩
    have hqueue : (s.afterBranch host a rest).queue = s.queue ++ (next? host (p, a.clause)).toList := by
      unfold Search.afterBranch Attempt.child? Attempt.outcome next?
      rw [ho]
      cases callOf? (p.outcome host a.clause) <;> rfl
    have hleft : (s.afterBranch host a rest).left = p.tries rest := by
      unfold Search.afterBranch Search.left
      rw [ho]
    rw [← hqueue, ← hleft] at hplace
    have hstands : Stands src table host q (s.afterBranch host a rest)
        (yielded ++ (answer? host (p, a.clause)).toList) := ⟨hs, hr, n, opened, later, _, hplace⟩
    have hanswer : answer? host (p, a.clause) = answerOf? (a.outcome host) := by
      rw [Attempt.outcome, ho]
      rfl
    rw [hanswer] at hstands
    exact hstands.keeps

theorem Stands.open_turn (hsrc : src.Steady table) (hq : q.Pure) {p : Pending σ} (hs : s.source = src)
    (hr : s.done = false) (hcur : s.current = none)
    (h : Place table host q n opened (p :: later) tried [] s.queue yielded) (ht : s.token ∉ w.cancelled) :
    ∃ turn s' w', s.turn w = ((turn, s'), w') ∧ s'.token ∉ w'.cancelled ∧
      turn.Keeps src table host q yielded s' := by
  obtain ⟨rest, hqueue⟩ : ∃ rest, s.queue = p :: rest := ⟨_, h.queue_eq⟩
  have hlookup : ∃ w₁, w₁.cancelled = w.cancelled ∧
      ExceptT.run (s.source.clauses p.name s.token) w = (Failure.lift (table p.name), w₁) := by
    obtain ⟨hresult, -, hcancelled⟩ := Engine.settles_perform (hsrc.answers p.name) w
    refine ⟨_, hcancelled, ?_⟩
    rw [hs, Source.clauses, Engine.run_bind, Engine.run_isCancelled]
    simp only [ht, decide_false]
    exact Prod.ext hresult rfl
  obtain ⟨w₁, hc, hrun⟩ := hlookup
  rw [Search.turn, if_neg ht]
  simp only [hcur, hqueue, hrun]
  cases hclauses : table p.name with
  | error e => exact ⟨_, _, w₁, rfl, hc ▸ ht, trivial⟩
  | ok clauses =>
      have hplace := h.open_next hclauses
      rw [hqueue] at hplace
      exact Stands.advance hsrc hq (s := { s with queue := rest, current := none }) hs hr hplace (hc ▸ ht)

theorem Stands.turn (hsrc : src.Steady table) (hq : q.Pure) (h : Stands src table host q s yielded)
    (ht : s.token ∉ w.cancelled) :
    ∃ turn s' w', s.turn w = ((turn, s'), w') ∧ s'.token ∉ w'.cancelled ∧
      turn.Keeps src table host q yielded s' := by
  obtain ⟨n, opened, later, tried, hplace⟩ := h.place
  cases hcur : s.current with
  | some a =>
      have hleft : s.left = a.origin.tries a.clauses := by rw [Search.left, hcur]
      rw [hleft] at hplace
      rw [Search.turn, if_neg ht, hcur]
      exact Stands.advance hsrc hq h.source h.running hplace ht
  | none =>
      have hleft : s.left = [] := by rw [Search.left, hcur]
      rw [hleft] at hplace
      cases later with
      | cons p later => exact Stands.open_turn hsrc hq h.source h.running hcur hplace ht
      | nil =>
          have hnext := hplace.descend
          cases hqueue : s.queue with
          | nil =>
              rw [hqueue] at hnext
              refine ⟨.exhausted, s, w, ?_, ht, hnext.complete⟩
              rw [Search.turn, if_neg ht, hcur, hqueue]
          | cons p later =>
              have hplace' : Place table host q (n + 1) [] (p :: later) [] [] s.queue yielded := by
                rw [hqueue] at hnext ⊢
                exact hnext
              exact Stands.open_turn hsrc hq h.source h.running hcur hplace' ht

theorem Stands.next (hsrc : src.Steady table) (hq : q.Pure) (h : Stands src table host q s yielded)
    (ht : s.token ∉ w.cancelled) (turns : Nat) :
    ∃ item s' w', Search.next turns s w = ((item, s'), w') ∧ s'.token ∉ w'.cancelled ∧
      item.Keeps src table host q yielded s' := by
  induction turns generalizing s w with
  | zero => exact ⟨.unfinished, s, w, rfl, ht, trivial⟩
  | succ turns ih =>
      obtain ⟨turn, s', w', hturn, ht', hkeeps⟩ := h.turn hsrc hq ht
      rw [Search.next, h.running, hturn]
      cases turn with
      | running => exact ih hkeeps ht'
      | answered a => exact ⟨_, _, _, rfl, ht', hkeeps⟩
      | exhausted => exact ⟨_, _, _, rfl, ht', hkeeps⟩
      | stopped f =>
          cases f with
          | error e => exact ⟨_, _, _, rfl, ht', trivial⟩
          | crash c => exact ⟨_, _, _, rfl, ht', trivial⟩

/-- A search that has yielded answers only when it comes to its end has yielded those of the whole tree. -/
theorem Stands.calls (hsrc : src.Steady table) (hq : q.Pure) (h : Stands src table host q s yielded)
    (ht : s.token ∉ w.cancelled) {answers : List Answer} {s' : Search σ} {w' : World σ}
    (hcalls : Search.Calls s w (answers.map .answer ++ [.ended]) s' w') :
    q.Complete table host (yielded ++ answers) := by
  induction answers generalizing s w yielded with
  | nil =>
      cases hcalls with
      | cons turns hnext hne hcalls =>
          obtain ⟨item, s₁, w₁, hnext', ht', hkeeps⟩ := h.next hsrc hq ht turns
          rw [hnext] at hnext'
          cases hnext'
          exact (List.append_nil yielded).symm ▸ hkeeps
  | cons a answers ih =>
      cases hcalls with
      | cons turns hnext hne hcalls =>
          obtain ⟨item, s₁, w₁, hnext', ht', hkeeps⟩ := h.next hsrc hq ht turns
          rw [hnext] at hnext'
          cases hnext'
          have hcomplete := ih hkeeps ht' hcalls
          rwa [List.append_assoc] at hcomplete

end Run

/-- Only the cancellation is yielded first when the token is cancelled. -/
theorem Search.Calls.token_live {s s' : Search σ} {w w' : World σ} {item : Item} {items : List Item}
    (h : Calls s w (item :: items) s' w') (hs : s.done = false) (hitem : item ≠ .failed .cancelled) :
    s.token ∉ w.cancelled := by
  intro ht
  cases h with
  | cons turns hnext hne _ =>
      cases turns with
      | zero =>
          cases hnext
          exact hne rfl
      | succ turns =>
          rw [Search.next, hs, Search.turn, if_pos ht] at hnext
          cases hnext
          exact hitem rfl

theorem Search.complete_of_calls {src : Source σ} {table : Table σ} (hsrc : src.Steady table) (host : σ)
    {name : String} {actuals : List Actual} {t : Token} {s s' : Search σ} {w w' : World σ}
    (hstart : start src name actuals t = .ok s) {answers : List Answer}
    (hcalls : Calls s w (answers.map .answer ++ [.ended]) s' w') :
    (Pending.query name actuals).Complete table host answers := by
  unfold start at hstart
  split at hstart
  · cases hstart
  cases hstart
  have hq : (Pending.query name actuals : Pending σ).Pure := trivial
  have ht : t ∉ w.cancelled := by
    cases answers with
    | nil => exact hcalls.token_live rfl (by simp)
    | cons a answers => exact hcalls.token_live rfl (by simp)
  exact Stands.calls hsrc hq ⟨rfl, rfl, 0, [], _, [], Place.start⟩ ht hcalls

/-- When a query comes to its end without errors over two sources, and the one tells of each name all clauses that the
other does, then it has all the answers of the other, as often at least; if the clauses of a name keep their order,
these answers do too, and if the clauses of a name are the same, in whatever order, so are the answers. -/
theorem Search.clauses_are_alternatives {src src' : Source σ} {table table' : Table σ} (hsrc : src.Steady table)
    (hsrc' : src'.Steady table') {name : String} {actuals : List Actual} {t t' : Token} {s s' : Search σ}
    (hstart : start src name actuals t = .ok s) (hstart' : start src' name actuals t' = .ok s')
    {answers answers' : List Answer} {e e' : Search σ} {w w' v v' : World σ}
    (hcalls : Calls s w (answers.map .answer ++ [.ended]) e v)
    (hcalls' : Calls s' w' (answers'.map .answer ++ [.ended]) e' v') :
    ((∀ n cs cs', table n = .ok cs → table' n = .ok cs' → cs.Subperm cs') → answers.Subperm answers') ∧
      ((∀ n cs cs', table n = .ok cs → table' n = .ok cs' → cs.Sublist cs') → answers.Sublist answers') ∧
        ((∀ n cs cs', table n = .ok cs → table' n = .ok cs' → cs.Perm cs') → answers.Perm answers') := by
  have hcomplete := complete_of_calls hsrc w.host hstart hcalls
  have hcomplete' := complete_of_calls hsrc' w.host hstart' hcalls'
  refine ⟨fun h => ?_, fun h => ?_, fun h => ?_⟩
  · exact hcomplete.carried carried_subperm h hcomplete'
  · exact hcomplete.carried carried_sublist h hcomplete'
  · exact hcomplete.carried carried_perm h hcomplete'

/-- A clause calls a name that has one more clause. -/
def picking : Database Unit where
  clauses :=
    [⟨"pick", [⟨0, "i", .int⟩], .fixed [.call "item" [.param (.formal ⟨0, "i", .int⟩)]], by decide, by decide⟩,
     ⟨"item", [⟨1, "j", .int⟩], .fixed [.bind (.formal ⟨1, "j", .int⟩) (.literal (.int 1))], by decide, by decide⟩]

/-- Another clause of the name called comes before the one that it has. -/
def pickingMore : Database Unit where
  clauses :=
    ⟨"item", [⟨2, "k", .int⟩], .fixed [.bind (.formal ⟨2, "k", .int⟩) (.literal (.int 2))], by decide, by decide⟩ ::
      picking.clauses

theorem picking_sublist (n : String) : (picking.named n).Sublist (pickingMore.named n) :=
  (List.sublist_cons_self _ _).filter _

def pickFrom (d : Database Unit) : Search Unit :=
  ⟨d.source, "pick", "t", [.query "pick" [.output (.shared 0) none .int none]], none, false⟩

def picked (v : Value) : Answer where
  entries := [⟨.output (.shared 0) none .int none, .int, some v, []⟩]

/-- The one answer is the second of the two that the larger database has. -/
theorem picking_answer_kept : ∃ e e' v v',
    Search.Calls (pickFrom picking) (World.start ()) ([picked (.int 1)].map .answer ++ [.ended]) e v ∧
      Search.Calls (pickFrom pickingMore) (World.start ())
          ([picked (.int 2), picked (.int 1)].map .answer ++ [.ended]) e' v' ∧
        [picked (.int 1)].Sublist [picked (.int 2), picked (.int 1)] := by
  have hpure : picking.Pure := by
    simp [Database.Pure, picking, Clause.Pure, Body.Pure, Goal.Pure, Term.Pure, Term.literal]
  have hpure' : pickingMore.Pure := by
    simp [Database.Pure, pickingMore, picking, Clause.Pure, Body.Pure, Goal.Pure, Term.Pure, Term.literal]
  have hstart (d : Database Unit) :
      Search.start d.source "pick" [.output (.shared 0) none .int none] "t" = .ok (pickFrom d) := rfl
  have hitems : Search.pull 10 2 (pickFrom picking) (World.start ()) = [picked (.int 1)].map .answer ++ [.ended] := by
    decide +kernel
  have hitems' : Search.pull 10 3 (pickFrom pickingMore) (World.start ()) =
      [picked (.int 2), picked (.int 1)].map .answer ++ [.ended] := by decide +kernel
  obtain ⟨e, v, hcalls⟩ := Search.calls_of_pull hitems (by simp)
  obtain ⟨e', v', hcalls'⟩ := Search.calls_of_pull hitems' (by simp)
  obtain ⟨-, hsublist, -⟩ := Search.clauses_are_alternatives (Database.source_steady hpure)
    (Database.source_steady hpure') (hstart picking) (hstart pickingMore) hcalls hcalls'
  refine ⟨e, e', v, v', hcalls, hcalls', hsublist ?_⟩
  rintro n cs cs' ⟨⟩ ⟨⟩
  exact picking_sublist n

end Clausal
