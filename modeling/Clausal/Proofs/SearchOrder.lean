import Clausal.Proofs.BreadthFirst

/-! What a search yields. Its calls try the branches of the query in shortlex order, and yield an item
for each one that completes or fails with an error. Main statements: the items of any calls are those
of the branches tried so far, a branch that no error comes before is reached by finitely many calls,
and a search that is over yields nothing more. -/
namespace Clausal

variable {σ : Type} {d : Database σ} {host : σ} {q : Pending σ}

def Item.of? : Except Failure (Outcome σ) → Option Item
  | .ok (.complete e) => some (.answer (Answer.ofEnv e))
  | .ok .failed | .ok (.suspended _) => none
  | .error (.error e) => some (.failed e)
  | .error (.crash c) => some (.crashed c)

namespace Search

/-- Calls of `next` one after the other, each with turns enough to yield an item. -/
inductive Calls : Search σ → World σ → List Item → Search σ → World σ → Prop where
  | nil {s : Search σ} {w : World σ} : Calls s w [] s w
  | cons {s s' s'' : Search σ} {w w' w'' : World σ} (turns : Nat) {item : Item} {items : List Item} :
      next turns s w = ((item, s'), w') → item ≠ .unfinished → Calls s' w' items s'' w'' →
        Calls s w (item :: items) s'' w''

/-- What so many calls of `next` yield, each with this number of turns at most. -/
def pull (turns : Nat) : Nat → Search σ → World σ → List Item
  | 0, _, _ => []
  | n + 1, s, w => (next turns s w).1.1 :: pull turns n (next turns s w).1.2 (next turns s w).2

theorem calls_of_pull {turns n : Nat} {s : Search σ} {w : World σ} {items : List Item} (h : pull turns n s w = items)
    (hne : .unfinished ∉ items) : ∃ s' w', Calls s w items s' w' := by
  induction n generalizing s w items with
  | zero =>
      subst h
      exact ⟨s, w, .nil⟩
  | succ n ih =>
      subst h
      rw [pull, List.mem_cons, not_or] at hne
      obtain ⟨s', w', hcalls⟩ := ih rfl hne.2
      exact ⟨s', w', .cons turns rfl (Ne.symm hne.1) hcalls⟩

end Search

namespace Pending

variable (d : Database σ) (host : σ) (q : Pending σ)

def item? (b : List Nat) : Option Item := (q.result? d host b).bind Item.of?

/-- The branch fails with an error, in its instantiation or in its run. -/
def Errs (b : List Nat) : Prop := ∃ e, q.result? d host b = some (.error e)

theorem Errs.isSome_item? {d : Database σ} {host : σ} {q : Pending σ} {b : List Nat}
    (h : q.Errs d host b) : (q.item? d host b).isSome := by
  obtain ⟨e, he⟩ := h
  rw [item?, he]
  cases e <;> rfl

def hostAfter (h : σ) (b : List Nat) : σ :=
  match q.branch? d host b with
  | some (origin, c) => (origin.solve c).hostAfter h
  | none => h

/-- The items of a search that has tried these branches, in this order, and was then asked in vain
this often. -/
structure Enumerates (bs : List (List Nat)) (vain : Nat) (items : List Item) : Prop where
  branches : ∀ b ∈ bs, (q.branch? d host b).isSome
  sorted : bs.Pairwise (List.Shortlex (· < ·))
  closed : ∀ b ∈ bs, ∀ c, (q.branch? d host c).isSome → List.Shortlex (· < ·) c b → c ∈ bs
  items_eq : items = bs.filterMap (q.item? d host) ++ List.replicate vain .ended
  /-- An error ends the search. -/
  error_last : ∀ b ∈ bs, q.Errs d host b → bs.getLast? = some b
  /-- Nothing is tried beyond the branch of the last item. -/
  on_demand : vain = 0 → ∀ b, bs.getLast? = some b → (q.item? d host b).isSome
  finished : 0 < vain → (∃ b ∈ bs, q.Errs d host b) ∨ ∀ b, (q.branch? d host b).isSome → b ∈ bs

end Pending

namespace Search

def itemTo (host : σ) : Option (Attempt σ) → Option Item
  | none => none
  | some a => Item.of? (a.outcome host)

def ErrsTo (host : σ) (t : Option (Attempt σ)) : Prop := ∃ a e, t = some a ∧ a.outcome host = .error e

theorem not_errsTo_of_silent {t : Option (Attempt σ)} (h : itemTo host t = none) : ¬ErrsTo host t := by
  rintro ⟨a, e, rfl, he⟩
  rw [itemTo, he] at h
  cases e <;> cases h

/-- A turn of a pure tree is silent, answers, or stops the search with an error. -/
theorem turnTo_cases (hd : d.Pure) (hq : q.Pure) {n : Nat} {t : Option (Attempt σ)}
    (ht : t ∈ q.turnsAbove d host n) :
    (turnTo host t = .running ∧ itemTo host t = none) ∨
      (∃ a, turnTo host t = .answered a ∧ itemTo host t = some (.answer a) ∧ ¬ErrsTo host t) ∨
      ∃ e, turnTo host t = .stopped (.error e) ∧ itemTo host t = some (.failed e) ∧ ErrsTo host t := by
  cases t with
  | none => exact .inl ⟨rfl, rfl⟩
  | some a =>
      obtain ⟨hop, hcp⟩ := branch?_pure hd hq (mem_turnsAbove.mp ht).2
      have hcrash : ∀ c, a.outcome host ≠ .error (.crash c) := (Pending.solve_settled hop hcp).no_crash
      have hturn : turnTo host (some a) = turnOf (a.outcome host) := rfl
      have hitem : itemTo host (some a) = Item.of? (a.outcome host) := rfl
      rw [hturn, hitem]
      cases hr : a.outcome host with
      | ok o =>
          cases o with
          | complete e =>
              refine .inr (.inl ⟨Answer.ofEnv e, rfl, rfl, ?_⟩)
              rintro ⟨b, f, hb, hf⟩
              cases hb
              rw [hr] at hf
              cases hf
          | failed => exact .inl ⟨rfl, rfl⟩
          | suspended call => exact .inl ⟨rfl, rfl⟩
      | error f =>
          cases f with
          | error e => exact .inr (.inr ⟨e, rfl, rfl, a, _, rfl, hr⟩)
          | crash c => exact absurd hr (hcrash c)

/-- A search that is over stays so. -/
theorem calls_of_done {s s' : Search σ} {w w' : World σ} {items : List Item} (h : Calls s w items s' w')
    (hs : s.done = true) : w' = w ∧ items = List.replicate items.length .ended := by
  induction h with
  | nil => exact ⟨rfl, rfl⟩
  | @cons s s' s'' w w' w'' turns item items hn hne hc ih =>
      cases turns with
      | zero =>
          rw [next] at hn
          cases hn
          exact absurd rfl hne
      | succ turns =>
          rw [next, if_pos hs] at hn
          cases hn
          obtain ⟨hw, hi⟩ := ih hs
          exact ⟨hw, congrArg _ hi⟩

theorem ended_for_ever {s : Search σ} (hs : s.done = true) (w : World σ) (vain : Nat) :
    Calls s w (List.replicate vain .ended) s w := by
  induction vain with
  | zero => exact .nil
  | succ vain ih => exact .cons 1 (by rw [next, if_pos hs]) (by simp) ih

theorem Calls.delay {s s' s'' : Search σ} {w w' w'' : World σ} {items : List Item}
    (hs : s.done = false) (ht : s.turn w = ((.running, s'), w')) (hne : items ≠ [])
    (hc : Calls s' w' items s'' w'') : Calls s w items s'' w'' := by
  cases hc with
  | nil => exact absurd rfl hne
  | @cons _ _ _ _ _ _ turns item items hn hi hc =>
      refine .cons (turns + 1) ?_ hi hc
      rw [next, hs, ht]
      exact hn

end Search

/-- A search that is at some turns goes on with the next turn of the tree. -/
theorem Front.turn_of_prefix (hd : d.Pure) (hq : q.Pure) {s : Search σ} {ts : List (Option (Attempt σ))}
    {t : Option (Attempt σ)} (hf : Front d host q s ts) {n : Nat}
    (hn : ts ++ [t] <+: q.turnsAbove d host n) {w : World σ} (ht : s.token ∉ w.cancelled) :
    ∃ s' w', s'.token ∉ w'.cancelled ∧ s.turn w = ((Search.turnTo host t, s'), w') ∧
      Front d host q s' (ts ++ [t]) := by
  rcases Front.turn hd hq hf ht with ⟨-, hex⟩ | ⟨u, s', w', hc, htok, -, hturn, hfront⟩
  · have hlen := (hn.trans (hex n)).length_le
    simp at hlen
  · obtain ⟨m, hm⟩ := hfront.prefix
    have hle := List.prefix_of_prefix_length_le (hn.trans (turnsAbove_mono (Nat.le_max_left n m)))
      (hm.trans (turnsAbove_mono (Nat.le_max_right n m))) (by simp)
    have heq : t = u := by simpa using hle.eq_of_length (by simp)
    subst heq
    exact ⟨s', w', by rw [hc, htok]; exact ht, hturn, hfront⟩

/-- One call of a search that is at some turns: it takes silent turns, and then one that yields an
item, or finds that there are none left. -/
theorem Front.next (hd : d.Pure) (hq : q.Pure) {s s' : Search σ} {ts : List (Option (Attempt σ))}
    (hf : Front d host q s ts) {w w' : World σ} (ht : s.token ∉ w.cancelled) {turns : Nat} {item : Item}
    (h : Search.next turns s w = ((item, s'), w')) (hne : item ≠ .unfinished) :
    ∃ silent, (∀ t ∈ silent, Search.itemTo host t = none) ∧
      ((item = .ended ∧ s'.done = true ∧ w'.host = silent.foldl Search.hostTo w.host ∧
          Exhausts d host q (ts ++ silent) ∧ ∃ n, ts ++ silent <+: q.turnsAbove d host n) ∨
        ∃ t, Search.itemTo host t = some item ∧ w'.host = (silent ++ [t]).foldl Search.hostTo w.host ∧
          (∃ n, ts ++ (silent ++ [t]) <+: q.turnsAbove d host n) ∧
          ((Search.ErrsTo host t ∧ s'.done = true) ∨
            ¬Search.ErrsTo host t ∧ s'.token ∉ w'.cancelled ∧ Front d host q s' (ts ++ (silent ++ [t])))) := by
  induction turns generalizing s w ts with
  | zero =>
      cases h
      exact absurd rfl hne
  | succ turns ih =>
      rw [Search.next, hf.running] at h
      rcases Front.turn hd hq hf ht with ⟨hturn, hex⟩ | ⟨t, s₁, w₁, hc, htok, hhost, hturn, hfront⟩
      · rw [hturn] at h
        cases h
        refine ⟨[], by simp, .inl ⟨rfl, rfl, rfl, ?_⟩⟩
        rw [List.append_nil]
        exact ⟨hex, hf.prefix⟩
      · have ht₁ : s₁.token ∉ w₁.cancelled := by rw [hc, htok]; exact ht
        obtain ⟨n, hn⟩ := hfront.prefix
        have hmem : t ∈ q.turnsAbove d host n := hn.subset (by simp)
        rw [hturn] at h
        rcases Search.turnTo_cases hd hq hmem with
          ⟨hto, hit⟩ | ⟨a, hto, hit, herr⟩ | ⟨e, hto, hit, herr⟩
        · rw [hto] at h
          obtain ⟨silent, hsilent, hrest⟩ := ih hfront ht₁ h
          refine ⟨t :: silent, ?_, ?_⟩
          · rintro u (- | ⟨-, hu⟩)
            · exact hit
            · exact hsilent u hu
          · simpa [hhost] using hrest
        · rw [hto] at h
          cases h
          exact ⟨[], by simp, .inr ⟨t, hit, hhost, ⟨n, hn⟩, .inr ⟨herr, ht₁, hfront⟩⟩⟩
        · rw [hto] at h
          cases h
          exact ⟨[], by simp, .inr ⟨t, hit, hhost, ⟨n, hn⟩, .inl ⟨herr, rfl⟩⟩⟩

/-- What calls of a search that is at some turns have done: the turns that they took, the items of
these, and how often they were made in vain. -/
structure Progress (d : Database σ) (host : σ) (q : Pending σ) (ts more : List (Option (Attempt σ)))
    (vain : Nat) (items : List Item) : Prop where
  below : more = [] ∨ ∃ n, ts ++ more <+: q.turnsAbove d host n
  items_eq : items = more.filterMap (Search.itemTo host) ++ List.replicate vain .ended
  error_last : ∀ pre t post, more = pre ++ t :: post → Search.ErrsTo host t → post = []
  on_demand : vain = 0 → ∀ t, more.getLast? = some t → (Search.itemTo host t).isSome
  finished : 0 < vain → (∃ t ∈ more, Search.ErrsTo host t) ∨ Exhausts d host q (ts ++ more)

theorem filterMap_silent {silent : List (Option (Attempt σ))}
    (h : ∀ t ∈ silent, Search.itemTo host t = none) : silent.filterMap (Search.itemTo host) = [] :=
  List.filterMap_eq_nil_iff.mpr h

/-- Silent turns raise no error, so an error can only be in what comes after them. -/
theorem errsTo_after_silent {silent more pre post : List (Option (Attempt σ))} {t : Option (Attempt σ)}
    (h : ∀ t ∈ silent, Search.itemTo host t = none) (hs : silent ++ more = pre ++ t :: post)
    (ht : Search.ErrsTo host t) : ∃ pre', more = pre' ++ t :: post := by
  induction silent generalizing pre with
  | nil => exact ⟨pre, hs⟩
  | cons u silent ih =>
      cases pre with
      | nil =>
          obtain ⟨rfl, -⟩ := List.cons.inj hs
          exact absurd ht (Search.not_errsTo_of_silent (h u List.mem_cons_self))
      | cons v pre =>
          exact ih (fun t ht => h t (List.mem_cons_of_mem u ht)) (List.cons.inj hs).2

theorem Progress.nil {ts : List (Option (Attempt σ))} : Progress d host q ts [] 0 [] where
  below := .inl rfl
  items_eq := rfl
  error_last := by
    intro pre t post h
    simp at h
  on_demand := by
    intro _ t h
    cases h
  finished := fun h => absurd h (Nat.lt_irrefl 0)

/-- A call finds that there are no turns left but silent ones, and so do all calls after it. -/
theorem Progress.exhaust {ts silent : List (Option (Attempt σ))}
    (hsilent : ∀ t ∈ silent, Search.itemTo host t = none) (hpre : ∃ n, ts ++ silent <+: q.turnsAbove d host n)
    (hex : Exhausts d host q (ts ++ silent)) (vain : Nat) :
    Progress d host q ts silent (vain + 1) (List.replicate (vain + 1) .ended) where
  below := .inr hpre
  items_eq := by rw [filterMap_silent hsilent, List.nil_append]
  error_last := by
    intro pre t post hs herr
    have ht : t ∈ silent := hs ▸ by simp
    exact absurd herr (Search.not_errsTo_of_silent (hsilent t ht))
  on_demand := by
    intro h
    cases h
  finished := fun _ => .inr hex

/-- A call yields an error, and all calls after it are in vain. -/
theorem Progress.error {ts silent : List (Option (Attempt σ))} {t : Option (Attempt σ)} {item : Item}
    (hsilent : ∀ t ∈ silent, Search.itemTo host t = none) (hitem : Search.itemTo host t = some item)
    (herr : Search.ErrsTo host t) (hpre : ∃ n, ts ++ (silent ++ [t]) <+: q.turnsAbove d host n) (vain : Nat) :
    Progress d host q ts (silent ++ [t]) vain (item :: List.replicate vain .ended) where
  below := .inr hpre
  items_eq := by
    rw [List.filterMap_append, filterMap_silent hsilent]
    simp [hitem]
  error_last := by
    intro pre u post hs hu
    obtain ⟨pre', hs'⟩ := errsTo_after_silent hsilent hs hu
    cases pre' <;> simp at hs'
    exact hs'.2
  on_demand := by
    intro _ u hu
    rw [List.getLast?_concat] at hu
    cases hu
    rw [hitem]
    rfl
  finished := fun _ => .inl ⟨t, by simp, herr⟩

/-- A call yields an item that is no error, and the calls after it go on from there. -/
theorem Progress.answer {ts silent more : List (Option (Attempt σ))} {t : Option (Attempt σ)} {item : Item}
    {vain : Nat} {items : List Item} (hsilent : ∀ t ∈ silent, Search.itemTo host t = none)
    (hitem : Search.itemTo host t = some item) (herr : ¬Search.ErrsTo host t)
    (hpre : ∃ n, ts ++ (silent ++ [t]) <+: q.turnsAbove d host n)
    (hp : Progress d host q (ts ++ (silent ++ [t])) more vain items) :
    Progress d host q ts (silent ++ t :: more) vain (item :: items) := by
  have happ : ts ++ (silent ++ t :: more) = ts ++ (silent ++ [t]) ++ more := by simp
  constructor
  case below =>
    right
    rcases hp.below with rfl | h
    · exact hpre
    · rw [happ]
      exact h
  case items_eq =>
    rw [List.filterMap_append, filterMap_silent hsilent, List.filterMap_cons, hitem, hp.items_eq]
    rfl
  case error_last =>
    intro pre u post hs hu
    obtain ⟨pre', hs'⟩ := errsTo_after_silent hsilent hs hu
    cases pre' with
    | nil =>
        obtain ⟨rfl, -⟩ := List.cons.inj hs'
        exact absurd hu herr
    | cons v pre' => exact hp.error_last pre' u post (List.cons.inj hs').2 hu
  case on_demand =>
    intro hv u hu
    cases more with
    | nil =>
        rw [List.getLast?_concat] at hu
        cases hu
        rw [hitem]
        rfl
    | cons v more =>
        apply hp.on_demand hv u
        rw [← hu]
        simp [List.getLast?_append, List.getLast?_cons]
  case finished =>
    intro hv
    rcases hp.finished hv with ⟨u, hu, herr⟩ | hex
    · exact .inl ⟨u, by simp [hu], herr⟩
    · rw [happ]
      exact .inr hex

theorem Front.calls (hd : d.Pure) (hq : q.Pure) {s s' : Search σ} {ts : List (Option (Attempt σ))}
    (hf : Front d host q s ts) {w w' : World σ} (ht : s.token ∉ w.cancelled) {items : List Item}
    (h : Search.Calls s w items s' w') :
    ∃ more vain, Progress d host q ts more vain items ∧ w'.host = more.foldl Search.hostTo w.host := by
  induction h generalizing ts with
  | nil => exact ⟨[], 0, .nil, rfl⟩
  | @cons s s₁ s' w w₁ w' turns item items hn hne hc ih =>
      obtain ⟨silent, hsilent, ⟨rfl, hdone, hhost, hex, hpre⟩ | ⟨t, hitem, hhost, hpre, hrest⟩⟩ :=
        hf.next hd hq ht hn hne
      · obtain ⟨rfl, hitems⟩ := Search.calls_of_done hc hdone
        refine ⟨silent, items.length + 1, ?_, hhost⟩
        rw [hitems]
        simpa [List.replicate_succ] using Progress.exhaust hsilent hpre hex items.length
      · rcases hrest with ⟨herr, hdone⟩ | ⟨herr, ht₁, hfront⟩
        · obtain ⟨rfl, hitems⟩ := Search.calls_of_done hc hdone
          refine ⟨silent ++ [t], items.length, ?_, hhost⟩
          rw [hitems, List.length_replicate]
          exact .error hsilent hitem herr hpre items.length
        · obtain ⟨more, vain, hp, hhost'⟩ := ih hfront ht₁
          refine ⟨silent ++ t :: more, vain, .answer hsilent hitem herr hpre hp, ?_⟩
          rw [hhost', hhost]
          simp

/-- Calls get as far as one likes, if there is something to yield there and no error on the way. -/
theorem Front.reach (hd : d.Pure) (hq : q.Pure) {s : Search σ} {ts more : List (Option (Attempt σ))}
    (hf : Front d host q s ts) {n : Nat} (hn : ts ++ more <+: q.turnsAbove d host n)
    (herr : ∀ t ∈ more, ¬Search.ErrsTo host t) {w : World σ} (ht : s.token ∉ w.cancelled) :
    ∃ s' w', s'.token ∉ w'.cancelled ∧ Front d host q s' (ts ++ more) ∧
      ∀ items s'' w'', items ≠ [] → Search.Calls s' w' items s'' w'' →
        Search.Calls s w (more.filterMap (Search.itemTo host) ++ items) s'' w'' := by
  induction more generalizing s ts w with
  | nil => exact ⟨s, w, ht, by rw [List.append_nil]; exact hf, fun _ _ _ _ h => h⟩
  | cons t more ih =>
      have happ : ts ++ t :: more = ts ++ [t] ++ more := by simp
      rw [happ] at hn ⊢
      obtain ⟨s₁, w₁, ht₁, hturn, hfront⟩ :=
        hf.turn_of_prefix hd hq ((List.prefix_append _ _).trans hn) ht
      obtain ⟨s', w', ht', hfront', hcalls⟩ :=
        ih hfront hn (fun u hu => herr u (List.mem_cons_of_mem t hu)) ht₁
      refine ⟨s', w', ht', hfront', fun items s'' w'' hne hc => ?_⟩
      have hc := hcalls items s'' w'' hne hc
      rw [List.filterMap_cons]
      rcases Search.turnTo_cases hd hq (hn.subset (by simp : t ∈ ts ++ [t] ++ more)) with
        ⟨hto, hit⟩ | ⟨a, hto, hit, -⟩ | ⟨e, -, -, he⟩
      · rw [hto] at hturn
        rw [hit]
        exact hc.delay hf.running hturn (by simp [hne])
      · rw [hto] at hturn
        rw [hit]
        refine .cons 1 ?_ (by simp) hc
        rw [Search.next, hf.running, hturn]
        rfl
      · exact absurd he (herr t List.mem_cons_self)

def branchesOf (ts : List (Option (Attempt σ))) : List (List Nat) :=
  ts.filterMap fun t => t.map Attempt.path

theorem mem_branchesOf {ts : List (Option (Attempt σ))} {b : List Nat} :
    b ∈ branchesOf ts ↔ ∃ a, some a ∈ ts ∧ a.path = b := by
  unfold branchesOf
  rw [List.mem_filterMap]
  constructor
  · rintro ⟨t, ht, hb⟩
    obtain ⟨a, rfl, ha⟩ := Option.map_eq_some_iff.mp hb
    exact ⟨a, ht, ha⟩
  · rintro ⟨a, ha, rfl⟩
    exact ⟨some a, ha, rfl⟩

section Tree

variable {ts : List (Option (Attempt σ))} {n : Nat} (hts : ts <+: q.turnsAbove d host n)
include hts

theorem branch?_of_turn {a : Attempt σ} (ha : some a ∈ ts) :
    q.branch? d host a.path = some (a.origin, a.clause) := (mem_turnsAbove.mp (hts.subset ha)).2

theorem result?_of_turn {a : Attempt σ} (ha : some a ∈ ts) :
    q.result? d host a.path = some (a.outcome host) := by
  rw [Pending.result?, branch?_of_turn hts ha]
  rfl

theorem item?_of_turn {a : Attempt σ} (ha : some a ∈ ts) :
    q.item? d host a.path = Search.itemTo host (some a) := by
  rw [Pending.item?, result?_of_turn hts ha]
  rfl

theorem errs_of_turn {a : Attempt σ} (ha : some a ∈ ts) :
    q.Errs d host a.path ↔ Search.ErrsTo host (some a) := by
  rw [Pending.Errs, result?_of_turn hts ha]
  constructor
  · rintro ⟨e, he⟩
    exact ⟨a, e, rfl, Option.some.inj he⟩
  · rintro ⟨b, e, hb, he⟩
    cases hb
    exact ⟨e, congrArg some he⟩

theorem items_of_turns :
    (branchesOf ts).filterMap (q.item? d host) = ts.filterMap (Search.itemTo host) := by
  rw [branchesOf, List.filterMap_filterMap]
  refine List.filterMap_congr fun t ht => ?_
  cases t with
  | none => rfl
  | some a => exact item?_of_turn hts ht

theorem branchesOf_closed {b c : List Nat} (hb : b ∈ branchesOf ts)
    (hc : (q.branch? d host c).isSome) (hcb : List.Shortlex (· < ·) c b) : c ∈ branchesOf ts := by
  obtain ⟨a, ha, rfl⟩ := mem_branchesOf.mp hb
  obtain ⟨x, hx⟩ := Option.isSome_iff_exists.mp hc
  have hlen : c.length ≤ n := by
    have hle := (mem_turnsAbove.mp (hts.subset ha)).1
    rcases List.shortlex_def.mp hcb with h | h <;> omega
  have hmem : some (⟨c, x.1, x.2⟩ : Attempt σ) ∈ q.turnsAbove d host n := mem_turnsAbove.mpr ⟨hlen, hx⟩
  obtain ⟨post, hpost⟩ := hts
  rw [← hpost] at hmem
  rcases List.mem_append.mp hmem with h | h
  · exact mem_branchesOf.mpr ⟨_, h, rfl⟩
  · have hsorted := hpost ▸ turnsAbove_sorted d host q n
    have hbc := (List.pairwise_append.mp hsorted).2.2 _ ha _ h _ rfl _ rfl
    exact absurd hcb (Std.Asymm.asymm _ _ hbc)

theorem branchesOf_sorted : (branchesOf ts).Pairwise (List.Shortlex (· < ·)) := by
  refine List.pairwise_filterMap.mpr ?_
  refine ((turnsAbove_sorted d host q n).sublist hts.sublist).imp fun h b hb c hc => ?_
  obtain ⟨a, ha, rfl⟩ := Option.map_eq_some_iff.mp hb
  obtain ⟨a', ha', rfl⟩ := Option.map_eq_some_iff.mp hc
  exact h a ha a' ha'

theorem hostAfter_branchesOf (h : σ) :
    ts.foldl Search.hostTo h = (branchesOf ts).foldl (q.hostAfter d host) h := by
  have hall : ∀ a, some a ∈ ts → ∀ h, q.hostAfter d host h a.path = Search.hostTo h (some a) := by
    intro a ha h
    rw [Pending.hostAfter, branch?_of_turn hts ha]
    rfl
  clear hts
  induction ts generalizing h with
  | nil => rfl
  | cons t rest ih =>
      have hrest := ih (Search.hostTo h t) fun a ha => hall a (List.mem_cons_of_mem t ha)
      cases t with
      | none => exact hrest
      | some a =>
          rw [List.foldl_cons, hrest, ← hall a List.mem_cons_self]
          rfl

end Tree

theorem Progress.enumerates {ts : List (Option (Attempt σ))} {vain : Nat} {items : List Item}
    (h : Progress d host q [] ts vain items) : q.Enumerates d host (branchesOf ts) vain items := by
  obtain ⟨n, hts⟩ : ∃ n, ts <+: q.turnsAbove d host n := by
    rcases h.below with rfl | h
    · exact ⟨0, List.nil_prefix⟩
    · exact h
  constructor
  case branches =>
    intro b hb
    obtain ⟨a, ha, rfl⟩ := mem_branchesOf.mp hb
    rw [branch?_of_turn hts ha]
    rfl
  case sorted => exact branchesOf_sorted hts
  case closed => exact fun b hb c hc hcb => branchesOf_closed hts hb hc hcb
  case items_eq => rw [h.items_eq, items_of_turns hts]
  case error_last =>
    intro b hb herr
    obtain ⟨a, ha, rfl⟩ := mem_branchesOf.mp hb
    obtain ⟨pre, post, hsplit⟩ := List.append_of_mem ha
    have hpost := h.error_last pre (some a) post hsplit ((errs_of_turn hts ha).mp herr)
    rw [hsplit, hpost, branchesOf, List.filterMap_append]
    exact List.getLast?_concat
  case on_demand =>
    intro hv b hb
    rcases List.eq_nil_or_concat' ts with rfl | ⟨pre, t, rfl⟩
    · cases hb
    · have hitem := h.on_demand hv t List.getLast?_concat
      cases t with
      | none => cases hitem
      | some a =>
          rw [branchesOf, List.filterMap_append] at hb
          obtain rfl : a.path = b := Option.some.inj (List.getLast?_concat.symm.trans hb)
          rw [item?_of_turn hts (by simp)]
          exact hitem
  case finished =>
    intro hv
    rcases h.finished hv with ⟨t, ht, herr⟩ | hex
    · obtain ⟨a, e, rfl, he⟩ := herr
      exact .inl ⟨a.path, mem_branchesOf.mpr ⟨a, ht, rfl⟩, (errs_of_turn hts ht).mpr ⟨a, e, rfl, he⟩⟩
    · refine .inr fun b hb => ?_
      obtain ⟨x, hx⟩ := Option.isSome_iff_exists.mp hb
      have hmem : some (⟨b, x.1, x.2⟩ : Attempt σ) ∈ q.turnsAbove d host b.length :=
        mem_turnsAbove.mpr ⟨Nat.le_refl _, hx⟩
      exact mem_branchesOf.mpr ⟨_, (hex b.length).subset hmem, rfl⟩

/-- Calls attain every branch that no error comes before. If it is an error itself, then more calls
may follow in vain. -/
theorem Front.attain (hd : d.Pure) (hq : q.Pure) {s : Search σ} (hf : Front d host q s []) {w : World σ}
    (ht : s.token ∉ w.cancelled) {pre post : List (Option (Attempt σ))} {a : Attempt σ} {n vain : Nat}
    (hn : q.turnsAbove d host n = pre ++ some a :: post) (hpre : ∀ t ∈ pre, ¬Search.ErrsTo host t)
    (hitem : (Search.itemTo host (some a)).isSome) (hvain : 0 < vain → Search.ErrsTo host (some a)) :
    ∃ items s' w', Search.Calls s w items s' w' ∧ Progress d host q [] (pre ++ [some a]) vain items := by
  obtain ⟨item, hitem⟩ := Option.isSome_iff_exists.mp hitem
  have hupto : [] ++ pre ++ [some a] <+: q.turnsAbove d host n := ⟨post, by simp [hn]⟩
  obtain ⟨s₁, w₁, ht₁, hfront, hcalls⟩ := hf.reach hd hq ((List.prefix_append _ _).trans hupto) hpre ht
  obtain ⟨s₂, w₂, -, hturn, -⟩ := hfront.turn_of_prefix hd hq hupto ht₁
  have hlast : ∃ s' w', Search.Calls s₁ w₁ (item :: List.replicate vain .ended) s' w' := by
    rcases Search.turnTo_cases hd hq (hupto.subset (by simp : some a ∈ [] ++ pre ++ [some a])) with
      ⟨-, hit⟩ | ⟨ans, hto, hit, herr⟩ | ⟨e, hto, hit, -⟩
    · rw [hit] at hitem
      cases hitem
    · obtain rfl : vain = 0 := Nat.eq_zero_of_not_pos fun h => herr (hvain h)
      rw [hit] at hitem
      cases hitem
      refine ⟨s₂, w₂, .cons 1 ?_ (by simp) .nil⟩
      rw [Search.next, hfront.running, hturn, hto]
      rfl
    · rw [hit] at hitem
      cases hitem
      refine ⟨s₂.close, w₂.record (.event (.aborted s₁.query e)),
        .cons 1 ?_ (by simp) (Search.ended_for_ever rfl _ vain)⟩
      rw [Search.next, hfront.running, hturn, hto]
      rfl
  obtain ⟨s', w', hlast⟩ := hlast
  refine ⟨_, s', w', hcalls _ s' w' (by simp) hlast, .inr ⟨n, by simpa using hupto⟩, ?_, ?_, ?_, ?_⟩
  · simp [List.filterMap_append, hitem]
  · intro pre' t post' hs herr
    rcases List.eq_nil_or_concat' post' with rfl | ⟨init, u, rfl⟩
    · rfl
    · have hsplit : pre ++ [some a] = (pre' ++ t :: init) ++ [u] := by simpa using hs
      have hmem : t ∈ pre := (List.append_inj_left' hsplit rfl) ▸ by simp
      exact absurd herr (hpre t hmem)
  · rintro - t h
    rw [List.getLast?_concat] at h
    cases h
    rw [hitem]
    rfl
  · exact fun h => .inl ⟨some a, by simp, hvain h⟩

theorem Front.attain_branch (hd : d.Pure) (hq : q.Pure) {s : Search σ} (hf : Front d host q s [])
    {w : World σ} (ht : s.token ∉ w.cancelled) {b : List Nat} {vain : Nat}
    (hitem : (q.item? d host b).isSome) (herr : ∀ c, List.Shortlex (· < ·) c b → ¬q.Errs d host c)
    (hvain : 0 < vain → q.Errs d host b) :
    ∃ bs items s' w', Search.Calls s w items s' w' ∧ q.Enumerates d host (bs ++ [b]) vain items := by
  obtain ⟨item, hitem'⟩ := Option.isSome_iff_exists.mp hitem
  obtain ⟨r, hr, -⟩ := Option.bind_eq_some_iff.mp hitem'
  obtain ⟨x, hx, -⟩ := Option.map_eq_some_iff.mp hr
  let a : Attempt σ := ⟨b, x.1, x.2⟩
  have hmem : some a ∈ q.turnsAbove d host b.length := mem_turnsAbove.mpr ⟨Nat.le_refl _, hx⟩
  obtain ⟨pre, post, hsplit⟩ := List.append_of_mem hmem
  have hall := List.prefix_refl (q.turnsAbove d host b.length)
  have hpre : ∀ t ∈ pre, ¬Search.ErrsTo host t := by
    rintro t ht ⟨a', e, rfl, he⟩
    have hsorted := hsplit ▸ turnsAbove_sorted d host q b.length
    have hlt := (List.pairwise_append.mp hsorted).2.2 _ ht _ List.mem_cons_self a' rfl a rfl
    exact herr a'.path hlt ((errs_of_turn hall (by rw [hsplit]; simp [ht])).mpr ⟨a', e, rfl, he⟩)
  obtain ⟨items, s', w', hcalls, hp⟩ := hf.attain hd hq ht hsplit hpre
    (by rw [← item?_of_turn hall hmem]; exact hitem) fun h => (errs_of_turn hall hmem).mp (hvain h)
  refine ⟨branchesOf pre, items, s', w', hcalls, ?_⟩
  have hlast := hp.enumerates
  rw [branchesOf, List.filterMap_append] at hlast
  exact hlast

/-- Calls get to the end of a tree that has one and raises no errors. -/
theorem Front.exhaust (hd : d.Pure) (hq : q.Pure) {s : Search σ} (hf : Front d host q s []) {w : World σ}
    (ht : s.token ∉ w.cancelled) {n : Nat} (hn : q.level d host n = [])
    (herr : ∀ t ∈ q.turnsAbove d host n, ¬Search.ErrsTo host t) (vain : Nat) :
    ∃ items s' w', Search.Calls s w items s' w' ∧
      Progress d host q [] (q.turnsAbove d host n) (vain + 1) items := by
  have hex := exhausts_of_level_eq_nil hn
  obtain ⟨s₁, w₁, ht₁, hfront, hcalls⟩ :=
    hf.reach (n := n) hd hq (List.prefix_refl _) herr ht
  have hend : s₁.turn w₁ = ((.exhausted, s₁), w₁) := by
    rcases Front.turn hd hq hfront ht₁ with ⟨hturn, -⟩ | ⟨t, s₂, w₂, -, -, -, -, hfront'⟩
    · exact hturn
    · obtain ⟨m, hm⟩ := hfront'.prefix
      have hlen := (hm.trans (hex m)).length_le
      simp at hlen
  have hcall : Search.next 1 s₁ w₁ = ((.ended, s₁.close), w₁) := by
    rw [Search.next, hfront.running, hend]
    rfl
  have hover : Search.Calls s₁ w₁ (List.replicate (vain + 1) .ended) s₁.close w₁ :=
    .cons 1 hcall (by simp) (Search.ended_for_ever rfl w₁ vain)
  refine ⟨_, _, w₁, hcalls _ _ _ (by simp) hover, .inr ⟨n, by simp⟩, rfl, ?_, ?_, fun _ => .inr hex⟩
  · intro pre t post hs h
    exact absurd h (herr t (hs ▸ by simp))
  · intro h
    cases h

theorem level_eq_nil_of_bounded {n : Nat} (h : ∀ b, (q.branch? d host b).isSome → b.length ≤ n) :
    q.level d host (n + 1) = [] := by
  refine List.eq_nil_iff_forall_not_mem.mpr fun l hl => ?_
  obtain ⟨a, ha, -⟩ := mem_children.mp hl
  obtain ⟨hlen, hb⟩ := mem_level_turns.mp ha
  have := h a.path (by rw [hb]; rfl)
  omega

/-- A search of an in-memory source enumerates the branches of the query in shortlex order. Whatever
calls are made, the items are those of the branches tried so far, and the host has seen these being
instantiated and run and no others. A branch that completes or fails with an error is reached if no
error comes before it, however deep other branches go. An error is the last item, and when there is
no error and branches go no deeper than some bound, the search comes to its end. -/
theorem Search.enumerates_in_shortlex_order (hd : d.Pure) {name : String} (hname : name ≠ "")
    (actuals : List Actual) {t : Token} {w : World σ} (ht : t ∉ w.cancelled) :
    ∃ s, Search.start d.source name actuals t = .ok s ∧
      (∀ items s' w', Calls s w items s' w' → ∃ bs vain,
        (Pending.query name actuals).Enumerates d w.host bs vain items ∧
          w'.host = bs.foldl ((Pending.query name actuals).hostAfter d w.host) w.host) ∧
      (∀ b, ((Pending.query name actuals).item? d w.host b).isSome →
        (∀ c, List.Shortlex (· < ·) c b → ¬(Pending.query name actuals).Errs d w.host c) →
          ∃ bs items s' w', Calls s w items s' w' ∧
            (Pending.query name actuals).Enumerates d w.host (bs ++ [b]) 0 items) ∧
      (∀ b, (Pending.query name actuals).Errs d w.host b →
        (∀ c, List.Shortlex (· < ·) c b → ¬(Pending.query name actuals).Errs d w.host c) →
          ∀ vain, ∃ bs items s' w', Calls s w items s' w' ∧
            (Pending.query name actuals).Enumerates d w.host (bs ++ [b]) vain items) ∧
      (∀ n, (∀ b, ((Pending.query name actuals).branch? d w.host b).isSome →
          b.length ≤ n ∧ ¬(Pending.query name actuals).Errs d w.host b) →
        ∀ vain, ∃ bs items s' w', Calls s w items s' w' ∧
          (Pending.query name actuals).Enumerates d w.host bs (vain + 1) items) := by
  obtain ⟨s, hs, htok⟩ : ∃ s, Search.start d.source name actuals t = .ok s ∧ s.token = t := by
    unfold Search.start
    rw [if_neg hname]
    exact ⟨_, rfl, rfl⟩
  have hq : (Pending.query name actuals : Pending σ).Pure := trivial
  have hf : Front d w.host (.query name actuals) s [] := Front.start hs
  rw [← htok] at ht
  refine ⟨s, hs, ?_, ?_, ?_, ?_⟩
  · intro items s' w' hcalls
    obtain ⟨ts, vain, hp, hhost⟩ := hf.calls hd hq ht hcalls
    refine ⟨branchesOf ts, vain, hp.enumerates, ?_⟩
    obtain ⟨n, hn⟩ : ∃ n, ts <+: (Pending.query name actuals).turnsAbove d w.host n := by
      rcases hp.below with rfl | h
      · exact ⟨0, List.nil_prefix⟩
      · exact h
    rw [hhost, hostAfter_branchesOf hn]
  · exact fun b hitem herr => hf.attain_branch hd hq ht hitem herr fun h => absurd h (Nat.lt_irrefl 0)
  · intro b hb herr vain
    exact hf.attain_branch hd hq ht hb.isSome_item? herr fun _ => hb
  · intro n hn vain
    have herr : ∀ t ∈ (Pending.query name actuals).turnsAbove d w.host (n + 1), ¬ErrsTo w.host t := by
      rintro t ht ⟨a, e, rfl, he⟩
      have hb := branch?_of_turn (List.prefix_refl _) ht
      exact (hn a.path (by rw [hb]; rfl)).2 ((errs_of_turn (List.prefix_refl _) ht).mpr ⟨a, e, rfl, he⟩)
    obtain ⟨items, s', w', hcalls, hp⟩ :=
      hf.exhaust hd hq ht (level_eq_nil_of_bounded fun b hb => (hn b hb).1) herr vain
    exact ⟨_, items, s', w', hcalls, hp.enumerates⟩

/-- Two clauses, of which the first one calls both without end. -/
def endless : Database Unit where
  clauses :=
    [⟨"p", [], .fixed [.call "p" []], by decide, .nil⟩, ⟨"p", [], .fixed [], by decide, .nil⟩]

theorem endless_second_clause_reached :
    endless.Pure ∧ "t" ∉ (World.start ()).cancelled ∧
      ∃ s, Search.start endless.source "p" [] "t" = .ok s ∧
        ∃ bs items s' w', Search.Calls s (World.start ()) items s' w' ∧
          (Pending.query "p" []).Enumerates endless () (bs ++ [[1]]) 0 items := by
  have hpure : endless.Pure := by simp [Database.Pure, endless, Clause.Pure, Body.Pure, Goal.Pure]
  have htoken : "t" ∉ (World.start ()).cancelled := List.not_mem_nil
  obtain ⟨s, hs, -, hreached, -⟩ :=
    Search.enumerates_in_shortlex_order hpure (by decide : "p" ≠ "") [] htoken
  refine ⟨hpure, htoken, s, hs, hreached [1] (by decide +kernel) fun c hc herr => ?_⟩
  have hitem : ((Pending.query "p" []).item? endless () c).isSome = false := by
    rcases List.shortlex_def.mp hc with h | ⟨hlen, hlex⟩
    · obtain rfl : c = [] := List.length_eq_zero_iff.mp (Nat.lt_one_iff.mp h)
      rfl
    · obtain ⟨i, rfl⟩ := List.length_eq_one_iff.mp hlen
      obtain rfl : i = 0 := by simpa using hlex
      decide +kernel
  rw [herr.isSome_item?] at hitem
  cases hitem

end Clausal
