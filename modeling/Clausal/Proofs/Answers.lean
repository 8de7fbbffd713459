import Clausal.Proofs.Provenance

/-! Where answers come from. Whatever the source, its callbacks and the host do, every answer that a
search yields is read off the end of a trail which starts with the query and a clause that matches
it. Only that clauses are authored is asked for. -/
namespace Clausal

variable {σ : Type}

/-- All clauses that the source hands out are authored. -/
def Source.Authored (s : Source σ) : Prop :=
  ∀ name cancelled host clauses, (s.lookup name cancelled host).result = .ok clauses →
    ∀ c ∈ clauses, c.Authored

theorem Clause.authored_of_fixed {c : Clause σ} {goals : List (Goal σ)} (hc : c.body = .fixed goals)
    (h : ∀ g ∈ goals, g.Authored) : c.Authored := by
  intro n made hruns
  unfold Clause.instantiate at hruns
  rw [hc] at hruns
  cases hruns.of_pure
  exact h

theorem Database.source_authored {d : Database σ} (h : ∀ c ∈ d.clauses, c.Authored) : d.source.Authored := by
  intro name cancelled host clauses hok c hc
  exact h c (mem_of_offers ⟨name, cancelled, host, clauses, hok, hc⟩)

/-- The resolvent of a query and an authored clause that matches it. -/
def Resolvent.Starts (actuals : List Actual) (c : Clause σ) (r : Resolvent σ) : Prop :=
  c.Authored ∧ c.Matches actuals ∧ (Resolvent.ofQuery c actuals).Runs r

theorem Resolvent.Starts.shaped {actuals : List Actual} {c : Clause σ} {r : Resolvent σ}
    (h : Starts actuals c r) : r.Shaped := by
  obtain ⟨hauth, -, hruns⟩ := h
  obtain ⟨slots, n, body, -, -, -, henc, hsound, hbody, hagenda⟩ := ofQuery_runs hruns
  refine ⟨hsound, .inl ⟨?_, ?_⟩⟩
  · rw [hagenda]
    intro g hg arguments heq
    subst heq
    exact hauth n body hbody _ hg
  · rw [hagenda, closes_authored (hauth n body hbody), Env.depth, henc]
    rfl

/-- The query seats its actuals, and at the end of a branch its arguments denote the same variables. -/
theorem Resolvent.Starts.arguments {actuals : List Actual} {c : Clause σ} {r₀ r : Resolvent σ}
    (h : Starts actuals c r₀) (htrail : r₀.Trail r) (hdepth : r.env.depth = 0) :
    ∃ slots g, Env.Seated actuals slots r₀.env.store ∧ r₀.env.depth = 0 ∧
      r₀.env.scope.arguments = c.formals.zip slots ∧ r₀.env.queryArguments = slots ∧
      r.env.queryArguments = slots.map (Slot.move g) ∧ (∃ sc, r₀.env.Above [] sc r.env) ∧
      ∀ c < r₀.env.store.cells.size, g c ≤ c ∧ r.env.store.find (g c) = r.env.store.find c := by
  obtain ⟨slots, n, body, hseated, hlen, hscope, henc, -⟩ := ofQuery_runs h.2.2
  have hdepth₀ : r₀.env.depth = 0 := by rw [Env.depth, henc]; rfl
  obtain ⟨inner, sc, habove⟩ := (Trail.within htrail).above h.shaped hdepth₀
  obtain rfl := habove.eq_nil (hdepth.trans hdepth₀.symm)
  obtain ⟨g, hmoved, hmove⟩ := habove.moved
  have hslots : (c.formals.zip slots).map Prod.snd = slots := hseated.map_snd_zip hlen
  refine ⟨slots, g, hseated, hdepth₀, by rw [hscope], ?_, ?_, ⟨sc, habove⟩, hmove⟩
  · unfold Env.queryArguments Env.outermost
    rw [henc, hscope]
    exact hslots
  · obtain ⟨hsc, henc'⟩ := List.cons.inj habove.stack
    rw [henc] at henc'
    unfold Env.queryArguments Env.outermost
    rw [henc']
    change r.env.scope.arguments.map Prod.snd = _
    rw [hsc, hmoved, hscope, moveAll, List.map_map, ← hslots, List.map_map, hslots]
    rfl

/-- The query, or a call that a branch of it has stopped at. -/
def Pending.Reached (actuals : List Actual) : Pending σ → Prop
  | .query _ as => as = actuals
  | .call stopped => ∃ c r e a g, Resolvent.Starts actuals c r ∧ r.Trail ⟨e, a⟩ ∧
      a.next? = some (g, stopped.rest) ∧ (g.step e).Runs (.call stopped.name stopped.arguments stopped.env)

theorem Pending.branch_reached {actuals : List Actual} {p : Pending σ} (hp : p.Reached actuals)
    {callee : Clause σ} (hauth : callee.Authored) (hmatch : callee.Matches p.actuals) {r : Resolvent σ}
    (h : (p.branch callee).Runs r) : ∃ c r₀, Resolvent.Starts actuals c r₀ ∧ r₀.Trail r := by
  cases p with
  | query name as =>
      have has : as = actuals := hp
      subst has
      exact ⟨callee, r, ⟨hauth, hmatch, h⟩, .refl⟩
  | call stopped =>
      obtain ⟨c, r₀, e, a, g, hstart, htrail, hnext, hstep⟩ := hp
      exact ⟨c, r₀, hstart, htrail.tail (.call hnext hstep hauth hmatch h)⟩

def Outcome.env? : Outcome σ → Option Env
  | .complete e => some e
  | .failed | .suspended _ => none

def Outcome.stopped? : Outcome σ → Option (Call σ)
  | .suspended c => some c
  | .complete _ | .failed => none

/-- The end of a trail from here with nothing left to do, or a call that one stops at. -/
def Outcome.Follows (r : Resolvent σ) : Outcome σ → Prop
  | .complete e => ∃ a : Agenda σ, a.toList = [] ∧ r.Trail ⟨e, a⟩
  | .failed => True
  | .suspended call => ∃ e a g, r.Trail ⟨e, a⟩ ∧ a.next? = some (g, call.rest) ∧
      (g.step e).Runs (.call call.name call.arguments call.env)

theorem Outcome.Follows.of_env? {r : Resolvent σ} {o : Outcome σ} (h : o.Follows r) {e : Env}
    (he : o.env? = some e) : ∃ a : Agenda σ, a.toList = [] ∧ r.Trail ⟨e, a⟩ := by
  cases o with
  | complete e' =>
      cases he
      exact h
  | failed => cases he
  | suspended call => cases he

theorem Outcome.Follows.of_stopped? {r : Resolvent σ} {o : Outcome σ} (h : o.Follows r) {call : Call σ}
    (hcall : o.stopped? = some call) : ∃ e a g, r.Trail ⟨e, a⟩ ∧ a.next? = some (g, call.rest) ∧
      (g.step e).Runs (.call call.name call.arguments call.env) := by
  cases o with
  | complete e => cases hcall
  | failed => cases hcall
  | suspended call' =>
      cases hcall
      exact h

theorem Resolvent.solve_follows {r : Resolvent σ} {e : Env} {a : Agenda σ} (htrail : r.Trail ⟨e, a⟩)
    {o : Outcome σ} (h : (solve e a).Runs o) : o.Follows r := by
  induction hl : a.toList generalizing e a with
  | nil =>
      rw [solve_nil hl] at h
      cases h.of_pure
      exact ⟨a, hl, htrail⟩
  | cons g goals ih =>
      obtain ⟨rest, hnext, hrest⟩ := Agenda.next?_of_cons hl
      rw [solve_cons hnext] at h
      obtain ⟨_, -, h⟩ := h.of_bind
      obtain ⟨s, hstep, h⟩ := h.of_bind
      cases s with
      | next e' => exact ih (htrail.tail (.goal hnext hstep)) h hrest
      | failed =>
          cases h.of_pure
          trivial
      | call name slots e' =>
          cases h.of_pure
          exact ⟨e, a, g, htrail, hnext, hstep⟩

theorem Pending.solve_follows {actuals : List Actual} {p : Pending σ} (hp : p.Reached actuals)
    {callee : Clause σ} (hauth : callee.Authored) (hmatch : callee.Matches p.actuals) {o : Outcome σ}
    (h : (p.solve callee).Runs o) : ∃ c r, Resolvent.Starts actuals c r ∧ o.Follows r := by
  obtain ⟨r, hbranch, h⟩ := h.of_bind
  obtain ⟨c, r₀, hstart, htrail⟩ := p.branch_reached hp hauth hmatch hbranch
  exact ⟨c, r₀, hstart, Resolvent.solve_follows htrail h⟩

/-- The answer is read off a completed branch of the query. -/
def Answer.Derived (σ : Type) (actuals : List Actual) (a : Answer) : Prop :=
  ∃ (c : Clause σ) (r₀ r : Resolvent σ), Resolvent.Starts actuals c r₀ ∧ r₀.Trail r ∧
    r.agenda.toList = [] ∧ a = Answer.ofEnv r.env

namespace Source

variable {src : Source σ} {actuals : List Actual}

theorem Authored.of_offers (hsrc : src.Authored) {c : Clause σ} (h : src.Offers c) : c.Authored := by
  obtain ⟨name, cancelled, host, clauses, hclauses, hmem⟩ := h
  exact hsrc name cancelled host clauses hclauses c hmem

theorem Reaches.trail (hsrc : src.Authored) {r : Resolvent σ} (h : src.Reaches actuals r) :
    ∃ c r₀, Resolvent.Starts actuals c r₀ ∧ r₀.Trail r := by
  induction h with
  | query hc hmatch hruns => exact ⟨_, _, ⟨hsrc.of_offers hc, hmatch, hruns⟩, .refl⟩
  | goal _ hnext hstep ih =>
      obtain ⟨c, r₀, hstart, htrail⟩ := ih
      exact ⟨c, r₀, hstart, htrail.tail (.goal hnext hstep)⟩
  | call _ hstops hc hmatch hresume ih =>
      obtain ⟨c, r₀, hstart, htrail⟩ := ih
      obtain ⟨g, hnext, hstep⟩ := hstops
      exact ⟨c, r₀, hstart, htrail.tail (.call hnext hstep (hsrc.of_offers hc) hmatch hresume)⟩

theorem Reaches.shaped (hsrc : src.Authored) {r : Resolvent σ} (h : src.Reaches actuals r) : r.Shaped := by
  obtain ⟨c, r₀, hstart, htrail⟩ := h.trail hsrc
  exact htrail.shaped hstart.shaped

end Source

/-- Every answer of a search is read off a completed branch of its query. -/
theorem Search.answers_derived {src : Source σ} (hsrc : src.Authored) {name : String} {actuals : List Actual}
    {t : Token} {s s' : Search σ} (hstart : start src name actuals t = .ok s) {w w' : World σ}
    {items : List Item} (h : Calls s w items s' w') {a : Answer} (ha : .answer a ∈ items) :
    a.Derived σ actuals := by
  obtain ⟨r, hreaches, hnil, rfl⟩ := items_from hstart h _ ha
  obtain ⟨c, r₀, hstarts, htrail⟩ := hreaches.trail hsrc
  exact ⟨c, r₀, r, hstarts, htrail, hnil, rfl⟩

end Clausal
