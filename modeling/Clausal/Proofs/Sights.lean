import Clausal.Proofs.Lockstep

/-! What callbacks are shown. A clause can be made to note it, in a record beside the state of its host. Main
statements: clauses that agree go on to agree when they note what they are shown, and a clause with pure
callbacks agrees with itself, whatever the states of the two hosts. -/
namespace Clausal

variable {σ τ α : Type} {H : σ → τ → Prop}

/-- What a callback is shown. A factory is told a number. -/
inductive Sight where
  | view (v : View)
  | value (v : Value)
  | number (n : Nat)

def Effect.map {β : Type} (f : α → β) (act : Effect σ α) : Effect σ β := fun host =>
  let reply := act host
  ⟨reply.result.map f, reply.host, reply.signals⟩

/-- A way to change host actions, which may depend on what they were shown. -/
abbrev Instrument (σ τ : Type) : Type 1 := {α : Type} → Sight → Effect σ α → Effect τ α

/-- The action that also notes what it was shown, in a record beside the host's state. -/
def Effect.noting (s : Sight) (act : Effect σ α) : Effect (σ × List Sight) α := fun host =>
  let reply := act host.1
  ⟨reply.result, (reply.host, host.2 ++ [s]), reply.signals⟩

section Through

variable (T : Instrument σ τ)

def Selector.through : Selector σ → Selector τ
  | .scope f => .scope fun v => T (.view v) (f v)
  | .source p f => .source p fun v => T (.value v) (f v)

def Term.through : Term σ → Term τ
  | .constant ty v => .constant ty v
  | .param p => .param p
  | .map ty s => .map ty (s.through T)

def Goal.through : Goal σ → Goal τ
  | .bind p t => .bind p (t.through T)
  | .call name arguments => .call name (arguments.map (Term.through T))
  | .check f => .check fun v => T (.view v) (f v)
  | .action f => .action fun v => T (.view v) (f v)
  | .openScope arguments => .openScope arguments
  | .closeScope => .closeScope

def Body.through : Body σ → Body τ
  | .fixed goals => .fixed (goals.map (Goal.through T))
  | .factory make => .factory fun n => (T (.number n) (make n)).map (List.map (Goal.through T))

def Clause.through (c : Clause σ) : Clause τ where
  name := c.name
  formals := c.formals
  body := c.body.through T
  name_ne := c.name_ne
  distinct := c.distinct

end Through

/-- The clause whose callbacks also note what they are shown. -/
def Clause.noting (c : Clause σ) : Clause (σ × List Sight) := c.through Effect.noting

section Agrees

variable {σ' τ' : Type} {K : σ' → τ' → Prop} {T : Instrument σ σ'} {U : Instrument τ τ'}

/-- The changes turn actions that are alike into actions that are alike. -/
def Instrument.Respects (T : Instrument σ σ') (U : Instrument τ τ') (H : σ → τ → Prop) (K : σ' → τ' → Prop) : Prop :=
  ∀ {α β : Type} {P : α → β → Prop} (s : Sight) {act : Effect σ α} {act' : Effect τ β},
    Effect.Alike H P act act' → Effect.Alike K P (T s act) (U s act')

variable (hTU : Instrument.Respects T U H K)

include hTU in
theorem Selector.Agrees.through {s : Selector σ} {s' : Selector τ} (h : s.Agrees H s') :
    (s.through T).Agrees K (s'.through U) := by
  cases h with
  | scope hf => exact .scope fun v => hTU (.view v) (hf v)
  | source p hf => exact .source p fun v => hTU (.value v) (hf v)

include hTU in
theorem Term.Agrees.through {t : Term σ} {t' : Term τ} (h : t.Agrees H t') : (t.through T).Agrees K (t'.through U) := by
  cases h with
  | constant ty v => exact .constant ty v
  | param p => exact .param p
  | map ty hs => exact .map ty (hs.through hTU)

include hTU in
theorem Goal.Agrees.through {g : Goal σ} {g' : Goal τ} (h : g.Agrees H g') : (g.through T).Agrees K (g'.through U) := by
  cases h with
  | bind p ht => exact .bind p (ht.through hTU)
  | call name hts =>
      apply Goal.Agrees.call name
      rw [List.forall₂_map_left_iff, List.forall₂_map_right_iff]
      exact hts.imp fun _ _ ht => ht.through hTU
  | check hf => exact .check fun v => hTU (.view v) (hf v)
  | action hf => exact .action fun v => hTU (.view v) (hf v)
  | closeScope => exact .closeScope

include hTU in
theorem Body.Agrees.through {b : Body σ} {b' : Body τ} (h : b.Agrees H b') : (b.through T).Agrees K (b'.through U) := by
  have hmap {goals : List (Goal σ)} {goals' : List (Goal τ)} (hgoals : List.Forall₂ (Goal.Agrees H) goals goals') :
      List.Forall₂ (Goal.Agrees K) (goals.map (Goal.through T)) (goals'.map (Goal.through U)) := by
    rw [List.forall₂_map_left_iff, List.forall₂_map_right_iff]
    exact hgoals.imp fun _ _ hg => hg.through hTU
  cases h with
  | fixed hgoals => exact .fixed (hmap hgoals)
  | factory hmake =>
      refine .factory fun n host host' hhosts => ?_
      obtain ⟨hresult, hhost⟩ := hTU (.number n) (hmake n) host host' hhosts
      exact ⟨hresult.map fun _ _ => hmap, hhost⟩

end Agrees

section Noting

theorem Goal.Authored.through {g : Goal σ} (h : g.Authored) (T : Instrument σ τ) : (g.through T).Authored := by
  cases g <;> exact h

theorem Clause.Authored.of_fixed {c : Clause σ} (h : c.Authored) (host : σ) {goals : List (Goal σ)}
    (hc : c.body = .fixed goals) : ∀ g ∈ goals, g.Authored := by
  apply h 0 goals
  unfold Clause.instantiate
  rw [hc]
  exact ⟨World.start host, _, rfl⟩

theorem Clause.Authored.of_factory {c : Clause σ} (h : c.Authored) {make : Nat → Effect σ (List (Goal σ))}
    (hc : c.body = .factory make) {n : Nat} {host : σ} {goals : List (Goal σ)}
    (hmake : (make n host).result = .ok goals) : ∀ g ∈ goals, g.Authored := by
  apply h n goals
  unfold Clause.instantiate
  rw [hc]
  exact ⟨World.start host, _, Prod.ext hmake rfl⟩

theorem Clause.Authored.noting {c : Clause σ} (h : c.Authored) : c.noting.Authored := by
  have hmap {made : List (Goal σ)} (hmade : ∀ g ∈ made, g.Authored) :
      ∀ g ∈ made.map (Goal.through Effect.noting), g.Authored := by
    intro g hg
    obtain ⟨g, hmem, rfl⟩ := List.mem_map.mp hg
    exact (hmade g hmem).through _
  intro n goals hruns
  unfold Clause.instantiate Clause.noting Clause.through Body.through at hruns
  cases hc : c.body with
  | fixed made =>
      rw [hc] at hruns
      cases hruns.of_pure
      exact hmap (h.of_fixed hruns.choose.host.1 hc)
  | factory make =>
      rw [hc] at hruns
      obtain ⟨host, hresult⟩ := hruns.of_perform
      simp only [Effect.map, Effect.noting] at hresult
      cases hmake : (make n host.1).result with
      | error f =>
          rw [hmake] at hresult
          cases hresult
      | ok made =>
          rw [hmake] at hresult
          cases hresult
          exact hmap (h.of_factory hc hmake)

/-- Hosts that are related and whose records are the same. -/
def Noted (H : σ → τ → Prop) (p : σ × List Sight) (q : τ × List Sight) : Prop := H p.1 q.1 ∧ p.2 = q.2

theorem Clause.Agrees.noting {c : Clause σ} {c' : Clause τ} (h : c.Agrees H c') :
    c.noting.Agrees (Noted H) c'.noting where
  formals := h.formals
  authored := h.authored.noting
  body := by
    apply h.body.through
    intro α β P s act act' hact host host' hhosts
    obtain ⟨hresult, hhost⟩ := hact host.1 host'.1 hhosts.1
    exact ⟨hresult, hhost, congrArg (· ++ [s]) hhosts.2⟩

def Instrument.none : Instrument σ σ := fun _ act => act

theorem Term.through_none (t : Term σ) : t.through Instrument.none = t := by
  cases t with
  | constant ty v => rfl
  | param p => rfl
  | map ty s => cases s <;> rfl

theorem Goal.through_none (g : Goal σ) : g.through Instrument.none = g := by
  cases g with
  | bind p t => rw [Goal.through, Term.through_none]
  | call name arguments => rw [Goal.through, List.map_congr_left fun t _ => t.through_none, List.map_id']
  | _ => rfl

theorem Body.through_none (b : Body σ) : b.through Instrument.none = b := by
  have hmap : List.map (Goal.through (Instrument.none (σ := σ))) = id := by
    funext goals
    rw [List.map_congr_left fun g _ => g.through_none]
    exact List.map_id' goals
  cases b with
  | fixed goals => rw [Body.through, hmap, id]
  | factory make =>
      rw [Body.through, hmap]
      congr 1
      funext n host
      exact congrArg (fun result => Reply.mk result (make n host).host (make n host).signals)
        (congrFun Except.map_id (make n host).result)

theorem Clause.Agrees.noting_left {c : Clause σ} {c' : Clause τ} (h : c.Agrees H c') :
    c.noting.Agrees (fun p host => H p.1 host) c' where
  formals := h.formals
  authored := h.authored.noting
  body := by
    rw [← c'.body.through_none]
    apply h.body.through
    intro α β P s act act' hact host host' hhosts
    exact hact host.1 host' hhosts

end Noting

section Pure

/-- What is pure agrees with itself, whatever the states of the two hosts. -/
theorem Effect.Pure.alike {act : Effect σ α} (h : act.Pure) : Effect.Alike (fun _ _ => True) Eq act act := by
  obtain ⟨r, hr⟩ := h
  intro host host' _
  rw [(hr host).1, (hr host').1]
  exact ⟨Agree.refl _, trivial⟩

theorem Selector.Pure.agrees {s : Selector σ} (h : s.Pure) : s.Agrees (fun _ _ => True) s := by
  cases s with
  | scope f => exact .scope fun v => (h v).alike
  | source p f => exact .source p fun v => (h v).alike

theorem Term.Pure.agrees {t : Term σ} (h : t.Pure) : t.Agrees (fun _ _ => True) t := by
  cases t with
  | constant ty v => exact .constant ty v
  | param p => exact .param p
  | map ty s => exact .map ty (Selector.Pure.agrees h)

theorem Goal.Pure.agrees {g : Goal σ} (h : g.Pure) (hg : g.Authored) : g.Agrees (fun _ _ => True) g := by
  cases g with
  | bind p t => exact .bind p (Term.Pure.agrees h)
  | call name ts => exact .call name (List.forall₂_same.mpr fun t ht => (h t ht).agrees)
  | check f => exact .check fun v => (h v).alike
  | action f => exact .action fun v => (h v).alike
  | openScope arguments => exact absurd hg id
  | closeScope => exact absurd hg id

theorem Clause.Pure.agrees {c : Clause σ} (h : c.Pure) (hc : c.Authored) (host : σ) :
    c.Agrees (fun _ _ => True) c where
  formals := rfl
  authored := hc
  body := by
    have hsame {goals : List (Goal σ)} (hpure : ∀ g ∈ goals, g.Pure) (hauth : ∀ g ∈ goals, g.Authored) :
        List.Forall₂ (Goal.Agrees fun _ _ => True) goals goals :=
      List.forall₂_same.mpr fun g hg => (hpure g hg).agrees (hauth g hg)
    unfold Clause.Pure at h
    cases hb : c.body with
    | fixed goals =>
        rw [hb] at h
        exact .fixed (hsame h (hc.of_fixed host hb))
    | factory make =>
        rw [hb] at h
        refine .factory fun n host host' _ => ?_
        obtain ⟨r, hr, hgoals⟩ := h n
        refine ⟨?_, trivial⟩
        rw [(hr host).1, (hr host').1]
        cases r with
        | error e => exact .error _
        | ok goals => exact .ok (hsame (hgoals goals rfl) (hc.of_factory hb (hr host).1))

end Pure

end Clausal
