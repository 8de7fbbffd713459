import Clausal.Proofs.Choices

/-! Breadth-first search takes the turns of the tree in their order. A search that has taken some
turns stands at a front: it has done with the levels above, and its queue holds what is left of the
present level and then the lookups found for the next one. Main statement: one turn of the search is
the next turn of the tree, until there is none left. -/
namespace Clausal

variable {σ : Type} {d : Database σ} {host : σ} {q : Pending σ}

theorem Pending.outcome_pure {p : Pending σ} (hp : p.Pure) {c : Clause σ} (hc : c.Pure) {call : Call σ}
    (h : callOf? (p.outcome host c) = some call) : call.rest.Pure := by
  have hs := Pending.solve_settled hp hc
  unfold callOf? at h
  split at h
  · rename_i hr
    cases h
    exact hs.result_ok hr
  all_goals cases h

theorem Database.named_pure (hd : d.Pure) {p : Pending σ} {i : Nat} {c : Clause σ}
    (h : p.clauseAt? d i = some c) : c.Pure := by
  have hc := List.mem_of_getElem? (Option.filter_eq_some_iff.mp h).1
  exact hd c (List.mem_filter.mp hc).1

theorem branch?_pure (hd : d.Pure) {p : Pending σ} (hp : p.Pure) {b : List Nat} {x : Pending σ × Clause σ}
    (h : p.branch? d host b = some x) : x.1.Pure ∧ x.2.Pure := by
  induction b generalizing p with
  | nil => cases h
  | cons i rest ih =>
      cases rest with
      | nil =>
          obtain ⟨c, hc, rfl⟩ := Option.map_eq_some_iff.mp h
          exact ⟨hp, Database.named_pure hd hc⟩
      | cons j rest =>
          obtain ⟨p', hp', hb⟩ := Option.bind_eq_some_iff.mp h
          obtain ⟨c, hc, hcall⟩ := Option.bind_eq_some_iff.mp hp'
          obtain ⟨call, hrest, rfl⟩ := Option.map_eq_some_iff.mp hcall
          exact ih (p := .call call) (Pending.outcome_pure hp (Database.named_pure hd hc) hrest) hb

namespace Search

def turnOf : Except Failure (Outcome σ) → Turn
  | .ok (.complete e) => .answered (Answer.ofEnv e)
  | .ok .failed | .ok (.suspended _) => .running
  | .error f => .stopped f

/-- What a turn of the tree comes to. The last turn of a lookup only closes it. -/
def turnTo (host : σ) : Option (Attempt σ) → Turn
  | none => .running
  | some a => turnOf (a.outcome host)

def hostTo : σ → Option (Attempt σ) → σ
  | h, none => h
  | h, some a => (a.origin.solve a.clause).hostAfter h

theorem nextMatch_run {t : Token} (l : Lookup σ) (i : Nat) (clauses : List (Clause σ)) {w : World σ}
    (ht : t ∉ w.cancelled) :
    ∃ w', w'.host = w.host ∧ w'.cancelled = w.cancelled ∧
      ((l.attemptsFrom i clauses = [] ∧
        ExceptT.run (nextMatch t l.pending.actuals clauses) w = (.ok none, w')) ∨
      ∃ j c rest, l.attemptsFrom i clauses = ⟨l.path ++ [j], l.pending, c⟩ :: l.attemptsFrom (j + 1) rest ∧
        ExceptT.run (nextMatch t l.pending.actuals clauses) w = (.ok (some (c, rest)), w')) := by
  induction clauses generalizing i w with
  | nil => exact ⟨w, rfl, rfl, .inl ⟨rfl, rfl⟩⟩
  | cons c rest ih =>
      rw [nextMatch, Engine.run_bind, Engine.run_checkpoint, if_neg ht, Lookup.attemptsFrom]
      by_cases hc : c.Matches l.pending.actuals
      · simp only [if_pos hc]
        exact ⟨w, rfl, rfl, .inr ⟨i, c, rest, rfl, rfl⟩⟩
      · simp only [if_neg hc]
        rw [Engine.run_bind, Engine.run_emit]
        exact ih (i + 1) (w := w.record (.event (.mismatch c.text))) ht

def afterBranch (s : Search σ) (host : σ) (a : Attempt σ) (rest : List (Clause σ)) : Search σ :=
  { s with
    queue := s.queue ++ (a.child? host).toList.map Lookup.pending
    current := some ⟨a.origin, rest⟩ }

/-- Going on with a lookup runs the branch of its next matching clause, or else closes the lookup. -/
theorem advance_run (s : Search σ) (l : Lookup σ) (i : Nat) (clauses : List (Clause σ)) {w : World σ}
    (ht : s.token ∉ w.cancelled) (host : σ)
    (hp : ∀ a ∈ l.attemptsFrom i clauses, a.origin.Pure ∧ a.clause.Pure) :
    ∃ w', w'.cancelled = w.cancelled ∧
      ((l.attemptsFrom i clauses = [] ∧ w'.host = w.host ∧
        s.advance ⟨l.pending, clauses⟩ w = ((.running, { s with current := none }), w')) ∨
      ∃ j a rest, l.attemptsFrom i clauses = a :: l.attemptsFrom j rest ∧ a.origin = l.pending ∧
        w'.host = hostTo w.host (some a) ∧
        s.advance ⟨l.pending, clauses⟩ w = ((turnTo host (some a), s.afterBranch host a rest), w')) := by
  obtain ⟨w₁, hh, hc, ⟨hnil, hrun⟩ | ⟨j, c, rest, hcons, hrun⟩⟩ := nextMatch_run l i clauses ht
  · refine ⟨w₁, hc, .inl ⟨hnil, hh, ?_⟩⟩
    rw [advance, hrun]
  · obtain ⟨hop, hcp⟩ := hp _ (hcons ▸ List.mem_cons_self)
    obtain ⟨hr, hh', hc'⟩ := (Pending.solve_settled hop hcp).run_eq host w₁
    rw [hh] at hh'
    rw [hc] at hc'
    let a : Attempt σ := ⟨l.path ++ [j], l.pending, c⟩
    suffices h : ∃ w', w'.cancelled = w.cancelled ∧ w'.host = hostTo w.host (some a) ∧
        s.advance ⟨l.pending, clauses⟩ w = ((turnTo host (some a), s.afterBranch host a rest), w') by
      obtain ⟨w', h1, h2, h3⟩ := h
      exact ⟨w', h1, .inr ⟨j + 1, a, rest, hcons, rfl, h2, h3⟩⟩
    rw [advance, hrun]
    simp only
    generalize hx : ExceptT.run (l.pending.solve c) w₁ = x at hr hh' hc'
    obtain ⟨r, w₂⟩ := x
    change r = a.outcome host at hr
    simp only [turnTo, afterBranch, Attempt.child?, ← hr]
    rcases r with f | e | _ | call
    · exact ⟨w₂, hc', hh', by simp [turnOf, callOf?, a]⟩
    · exact ⟨w₂.record (.event (.solved s.query)), hc', hh', by simp [turnOf, callOf?, a]⟩
    · exact ⟨w₂, hc', hh', by simp [turnOf, callOf?, a]⟩
    · exact ⟨w₂.record (.event (.suspended call.name s.queue.length)), hc', hh',
        by simp [turnOf, callOf?, a]⟩

end Search

def turnsLeft : Option (Lookup σ × Nat × List (Clause σ)) → List (Option (Attempt σ))
  | none => []
  | some (l, i, clauses) => l.turnsFrom i clauses

/-- A search that has taken these turns of the tree: those above a level and some of the level's own.
The queue holds the lookups of the level that are still to come, and then what its turns led to. -/
structure Front (d : Database σ) (host : σ) (q : Pending σ) (s : Search σ)
    (ts : List (Option (Attempt σ))) : Prop where
  source : s.source = d.source
  running : s.done = false
  split : ∃ n taken under later,
    ts = q.turnsAbove d host n ++ taken ∧
    taken ++ (turnsLeft under ++ later.flatMap (Lookup.turns d)) =
      (q.level d host n).flatMap (Lookup.turns d) ∧
    s.current = under.map (fun x => ⟨x.1.pending, x.2.2⟩) ∧
    s.queue = (later ++ children host taken).map Lookup.pending

def Exhausts (d : Database σ) (host : σ) (q : Pending σ) (ts : List (Option (Attempt σ))) : Prop :=
  ∀ n, q.turnsAbove d host n <+: ts

theorem Front.prefix {s : Search σ} {ts : List (Option (Attempt σ))} (h : Front d host q s ts) :
    ∃ n, ts <+: q.turnsAbove d host n := by
  obtain ⟨n, taken, under, later, rfl, hlevel, -, -⟩ := h.split
  refine ⟨n + 1, ?_⟩
  rw [Pending.turnsAbove, ← hlevel]
  exact List.prefix_append_right_inj _ |>.mpr (List.prefix_append _ _)

theorem Front.start {s : Search σ} {name : String} {actuals : List Actual} {t : Token}
    (h : Search.start d.source name actuals t = .ok s) : Front d host (.query name actuals) s [] := by
  unfold Search.start at h
  split at h
  · cases h
  · cases h
    exact ⟨rfl, rfl, 0, [], none, [⟨[], .query name actuals⟩], rfl, rfl, rfl, rfl⟩

theorem Front.advance (hd : d.Pure) (hq : q.Pure) {s : Search σ} {n : Nat}
    {taken : List (Option (Attempt σ))} {l : Lookup σ} {i : Nat} {clauses : List (Clause σ)}
    {later : List (Lookup σ)} (hs : s.source = d.source) (hr : s.done = false)
    (hlevel : taken ++ (l.turnsFrom i clauses ++ later.flatMap (Lookup.turns d)) =
      (q.level d host n).flatMap (Lookup.turns d))
    (hqueue : s.queue = (later ++ children host taken).map Lookup.pending)
    {w : World σ} (ht : s.token ∉ w.cancelled) :
    ∃ turn s' w', w'.cancelled = w.cancelled ∧ s'.token = s.token ∧ w'.host = Search.hostTo w.host turn ∧
      s.advance ⟨l.pending, clauses⟩ w = ((Search.turnTo host turn, s'), w') ∧
      Front d host q s' (q.turnsAbove d host n ++ taken ++ [turn]) := by
  have hp : ∀ a ∈ l.attemptsFrom i clauses, a.origin.Pure ∧ a.clause.Pure := by
    intro a ha
    have hmem : some a ∈ (q.level d host n).flatMap (Lookup.turns d) := by
      rw [← hlevel]
      simp [Lookup.turnsFrom, ha]
    exact branch?_pure hd hq (mem_level_turns.mp hmem).2
  obtain ⟨w', hc, ⟨hnil, hh, hadv⟩ | ⟨j, a, rest, hcons, ho, hh, hadv⟩⟩ :=
    s.advance_run l i clauses ht host hp
  · refine ⟨none, { s with current := none }, w', hc, rfl, hh, hadv, hs, hr, n, taken ++ [none], none, later,
      ?_, ?_, rfl, ?_⟩
    · rw [List.append_assoc]
    · rw [← hlevel, Lookup.turnsFrom, hnil]
      simp [turnsLeft]
    · rw [hqueue]
      simp [children]
  · refine ⟨some a, s.afterBranch host a rest, w', hc, rfl, hh, hadv, hs, hr, n, taken ++ [some a],
      some (l, j, rest), later, ?_, ?_, ?_, ?_⟩
    · rw [List.append_assoc]
    · rw [← hlevel, Lookup.turnsFrom, hcons]
      simp [turnsLeft, Lookup.turnsFrom]
    · simp [Search.afterBranch, ho]
    · rw [Search.afterBranch, hqueue]
      cases hchild : a.child? host <;> simp [children, hchild]

theorem level_eq_nil {m n : Nat} (hn : q.level d host n = []) (h : n ≤ m) : q.level d host m = [] := by
  induction h with
  | refl => exact hn
  | step _ ih =>
      rw [Pending.level, ih]
      rfl

theorem exhausts_of_level_eq_nil {n : Nat} (hn : q.level d host n = []) :
    Exhausts d host q (q.turnsAbove d host n) := by
  intro m
  rcases Nat.le_total m n with h | h
  · exact turnsAbove_mono h
  · induction h with
    | refl => exact List.prefix_refl _
    | step hm ih =>
        rw [Pending.turnsAbove, level_eq_nil hn hm]
        simpa using ih

/-- A lookup of the level that the queue starts with is opened and gone on with in the same turn. -/
theorem Front.opened (hd : d.Pure) (hq : q.Pure) {s : Search σ} {n : Nat} {taken : List (Option (Attempt σ))}
    {l : Lookup σ} {later : List (Lookup σ)} (hs : s.source = d.source) (hr : s.done = false)
    (hcur : s.current = none)
    (hlevel : taken ++ (l :: later).flatMap (Lookup.turns d) = (q.level d host n).flatMap (Lookup.turns d))
    (hqueue : s.queue = (l :: later ++ children host taken).map Lookup.pending)
    {w : World σ} (ht : s.token ∉ w.cancelled) :
    ∃ turn s' w', w'.cancelled = w.cancelled ∧ s'.token = s.token ∧ w'.host = Search.hostTo w.host turn ∧
      s.turn w = ((Search.turnTo host turn, s'), w') ∧
      Front d host q s' (q.turnsAbove d host n ++ taken ++ [turn]) := by
  have hlookup : ∃ w', w'.cancelled = w.cancelled ∧ w'.host = w.host ∧
      ExceptT.run (s.source.clauses l.pending.name s.token) w = (.ok (d.named l.pending.name), w') := by
    refine ⟨w.record (.event (.lookup l.pending.name (d.named l.pending.name).length)), rfl, rfl, ?_⟩
    rw [hs, Source.clauses, Engine.run_bind, Engine.run_isCancelled]
    simp only [ht, decide_false]
    rfl
  obtain ⟨w₁, hc, hh, hrun⟩ := hlookup
  have hqueue' : s.queue = l.pending :: (later ++ children host taken).map Lookup.pending := hqueue
  obtain ⟨turn, s', w', h1, h2, h3, h4, h5⟩ := Front.advance hd hq
    (s := { s with queue := (later ++ children host taken).map Lookup.pending })
    hs hr hlevel rfl (w := w₁) (by rw [hc]; exact ht)
  rw [hc] at h1
  rw [hh] at h3
  refine ⟨turn, s', w', h1, h2, h3, ?_, h5⟩
  rw [Search.turn, if_neg ht]
  simp only [hcur, hqueue', hrun]
  rw [hcur] at h4
  exact h4

/-- One turn of the search is the next turn of the tree, until the tree is exhausted. -/
theorem Front.turn (hd : d.Pure) (hq : q.Pure) {s : Search σ} {ts : List (Option (Attempt σ))}
    (hf : Front d host q s ts) {w : World σ} (ht : s.token ∉ w.cancelled) :
    (s.turn w = ((.exhausted, s), w) ∧ Exhausts d host q ts) ∨
      ∃ turn s' w', w'.cancelled = w.cancelled ∧ s'.token = s.token ∧ w'.host = Search.hostTo w.host turn ∧
        s.turn w = ((Search.turnTo host turn, s'), w') ∧ Front d host q s' (ts ++ [turn]) := by
  obtain ⟨n, taken, under, later, hts, hlevel, hcur, hqueue⟩ := hf.split
  cases under with
  | some x =>
      obtain ⟨l, i, clauses⟩ := x
      right
      obtain ⟨turn, s', w', h1, h2, h3, h4, h5⟩ := Front.advance hd hq hf.source hf.running hlevel hqueue ht
      refine ⟨turn, s', w', h1, h2, h3, ?_, by rw [hts]; exact h5⟩
      rw [Search.turn, if_neg ht, hcur]
      exact h4
  | none =>
      rw [turnsLeft, List.nil_append] at hlevel
      cases later with
      | cons l later =>
          right
          rw [hts]
          exact Front.opened hd hq hf.source hf.running hcur hlevel hqueue ht
      | nil =>
          rw [List.flatMap_nil, List.append_nil] at hlevel
          rw [hlevel, ← Pending.level] at hqueue
          rw [hlevel, ← Pending.turnsAbove] at hts
          cases hnext : q.level d host (n + 1) with
          | nil =>
              left
              rw [hnext] at hqueue
              refine ⟨by rw [Search.turn, if_neg ht, hcur, hqueue]; rfl, ?_⟩
              rw [hts]
              exact exhausts_of_level_eq_nil hnext
          | cons l later =>
              right
              rw [hnext] at hqueue
              have hlevel' : [] ++ (l :: later).flatMap (Lookup.turns d) =
                  (q.level d host (n + 1)).flatMap (Lookup.turns d) := by rw [hnext]; rfl
              have hqueue' : s.queue = (l :: later ++ children host []).map Lookup.pending := by
                rw [hqueue]
                simp [children]
              have hopened := Front.opened hd hq hf.source hf.running hcur hlevel' hqueue' ht
              rw [List.append_nil, ← hts] at hopened
              exact hopened

end Clausal
