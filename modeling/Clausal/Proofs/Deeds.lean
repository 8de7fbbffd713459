import Clausal.Proofs.Provenance

/-! What a search does. It is asked for one item after the other, and in between the world may change in any way that
takes no cancellation back. What it does meanwhile is kept in a log: the lookups it makes, the branches it runs, and
the items it yields. Main statements: no computation of the engine takes a cancellation back, all that a call does is
done in turn and with the token not cancelled, and an item comes out of the last thing done. -/
namespace Clausal

variable {σ : Type} {α β : Type}

section KeepsCancelled

theorem World.subset_foldl_record (signals : List Signal) (w : World σ) :
    w.cancelled ⊆ (signals.foldl World.record w).cancelled := by
  induction signals generalizing w with
  | nil => exact List.Subset.refl _
  | cons s rest ih =>
      refine List.Subset.trans ?_ (ih (w.record s))
      cases s with
      | note n => exact List.Subset.refl _
      | event e => exact List.Subset.refl _
      | cancel t => exact List.subset_cons_self t w.cancelled

namespace Engine

variable {x : Engine σ α} {k : α → Engine σ β}

/-- The computation takes no cancellation back. -/
def KeepsCancelled (x : Engine σ α) : Prop := ∀ w, w.cancelled ⊆ (ExceptT.run x w).2.cancelled

theorem keepsCancelled_pure (a : α) : (pure a : Engine σ α).KeepsCancelled := fun _ => List.Subset.refl _

theorem keepsCancelled_lift (r : Except Error α) : (lift r : Engine σ α).KeepsCancelled := fun _ => List.Subset.refl _

theorem keepsCancelled_emit (e : Event) : (emit e : Engine σ Unit).KeepsCancelled := fun _ => List.Subset.refl _

theorem keepsCancelled_perform (act : Effect σ α) : (perform act).KeepsCancelled := fun w =>
  World.subset_foldl_record (act w.host).signals { w with host := (act w.host).host }

theorem keepsCancelled_isCancelled (t : Token) : (isCancelled t : Engine σ Bool).KeepsCancelled :=
  fun _ => List.Subset.refl _

theorem KeepsCancelled.bind (hx : x.KeepsCancelled) (hk : ∀ a, (k a).KeepsCancelled) : (x >>= k).KeepsCancelled := by
  intro w
  have hfirst := hx w
  rw [run_bind]
  generalize ExceptT.run x w = p at hfirst
  obtain ⟨r, w₁⟩ := p
  cases r with
  | error f => exact hfirst
  | ok a => exact List.Subset.trans hfirst (hk a w₁)

end Engine

open Engine

theorem Source.clauses_keepsCancelled (src : Source σ) (name : String) (t : Token) :
    (src.clauses name t).KeepsCancelled :=
  (keepsCancelled_isCancelled t).bind fun _ => keepsCancelled_perform _

theorem Clause.instantiate_keepsCancelled (c : Clause σ) (n : Nat) : (c.instantiate n).KeepsCancelled := by
  unfold Clause.instantiate
  cases c.body with
  | fixed goals => exact keepsCancelled_pure goals
  | factory make => exact keepsCancelled_perform (make n)

theorem Term.evaluate_keepsCancelled (t : Term σ) (e : Env) : (t.evaluate e).KeepsCancelled := by
  cases t with
  | constant ty v => exact keepsCancelled_pure _
  | param p => exact keepsCancelled_lift _
  | map ty s =>
      cases s with
      | scope f =>
          refine (keepsCancelled_perform (f e.view)).bind fun v => ?_
          exact (keepsCancelled_lift _).bind fun _ => keepsCancelled_pure _
      | source p f =>
          refine (keepsCancelled_lift _).bind fun q => ?_
          refine (keepsCancelled_perform (f q.1)).bind fun v => ?_
          exact (keepsCancelled_lift _).bind fun _ => keepsCancelled_pure _

namespace Env

theorem pass_keepsCancelled (e : Env) (t : Term σ) : (e.pass t).KeepsCancelled := by
  cases t with
  | param p => exact (keepsCancelled_lift _).bind fun _ => keepsCancelled_pure _
  | constant ty v => exact (Term.evaluate_keepsCancelled _ e).bind fun _ => keepsCancelled_lift _
  | map ty s => exact (Term.evaluate_keepsCancelled _ e).bind fun _ => keepsCancelled_lift _

theorem passAll_keepsCancelled (ts : List (Term σ)) (e : Env) : (e.passAll ts).KeepsCancelled := by
  induction ts generalizing e with
  | nil => exact keepsCancelled_pure _
  | cons t ts ih =>
      refine (pass_keepsCancelled e t).bind fun p => ?_
      exact (ih p.2).bind fun _ => keepsCancelled_pure _

theorem solveBind_keepsCancelled (e : Env) (p : Param) (t : Term σ) : (e.solveBind p t).KeepsCancelled := by
  refine (keepsCancelled_lift _).bind fun target => ?_
  cases t with
  | param q => exact (keepsCancelled_lift _).bind fun _ => keepsCancelled_lift _
  | constant ty v => exact (Term.evaluate_keepsCancelled _ _).bind fun _ => keepsCancelled_lift _
  | map ty s => exact (Term.evaluate_keepsCancelled _ _).bind fun _ => keepsCancelled_lift _

end Env

theorem Goal.step_keepsCancelled (g : Goal σ) (e : Env) : (g.step e).KeepsCancelled := by
  cases g with
  | bind p t =>
      refine (Env.solveBind_keepsCancelled e p t).bind fun r => ?_
      cases r with
      | some e' => exact keepsCancelled_pure _
      | none => exact (keepsCancelled_emit _).bind fun _ => keepsCancelled_pure _
  | call name arguments => exact (Env.passAll_keepsCancelled arguments e).bind fun _ => keepsCancelled_pure _
  | check f =>
      refine (keepsCancelled_perform (f e.view)).bind fun b => ?_
      cases b with
      | true => exact keepsCancelled_pure _
      | false => exact (keepsCancelled_emit _).bind fun _ => keepsCancelled_pure _
  | action f => exact (keepsCancelled_perform (f e.view)).bind fun _ => keepsCancelled_pure _
  | openScope arguments =>
      refine KeepsCancelled.bind ?_ fun _ => keepsCancelled_pure _
      exact (keepsCancelled_emit _).bind fun _ => keepsCancelled_pure _
  | closeScope =>
      refine KeepsCancelled.bind ?_ fun _ => keepsCancelled_pure _
      refine (keepsCancelled_lift _).bind fun _ => ?_
      exact (keepsCancelled_emit _).bind fun _ => keepsCancelled_pure _

theorem Resolvent.solve_keepsCancelled (e : Env) (a : Agenda σ) : (solve e a).KeepsCancelled := by
  induction hl : a.toList generalizing e a with
  | nil =>
      rw [solve_nil hl]
      exact keepsCancelled_pure _
  | cons g goals ih =>
      obtain ⟨rest, hnext, hrest⟩ := Agenda.next?_of_cons hl
      rw [solve_cons hnext]
      refine (keepsCancelled_emit _).bind fun _ => (Goal.step_keepsCancelled g e).bind fun s => ?_
      cases s with
      | next e' => exact ih e' rest hrest
      | failed => exact keepsCancelled_pure _
      | call name slots e' => exact keepsCancelled_pure _

theorem Pending.solve_keepsCancelled (p : Pending σ) (c : Clause σ) : (p.solve c).KeepsCancelled := by
  refine KeepsCancelled.bind ?_ fun r => Resolvent.solve_keepsCancelled r.env r.agenda
  cases p with
  | query name actuals =>
      refine (keepsCancelled_lift _).bind fun e => ?_
      exact (Clause.instantiate_keepsCancelled c _).bind fun _ => keepsCancelled_pure _
  | call stopped => exact (Clause.instantiate_keepsCancelled c _).bind fun _ => keepsCancelled_pure _

end KeepsCancelled

/-- The worlds differ in their journals only. -/
def World.Alike (w w' : World σ) : Prop := w'.host = w.host ∧ w'.cancelled = w.cancelled

theorem World.Alike.refl (w : World σ) : w.Alike w := ⟨rfl, rfl⟩

theorem World.Alike.trans {w₁ w₂ w₃ : World σ} (h : w₁.Alike w₂) (h' : w₂.Alike w₃) : w₁.Alike w₃ :=
  ⟨h'.1.trans h.1, h'.2.trans h.2⟩

theorem World.Alike.event (w : World σ) (e : Event) : w.Alike (w.record (.event e)) := ⟨rfl, rfl⟩

/-- A lookup that a search makes or a branch that it runs, with the world at its start. -/
inductive Deed (σ : Type) where
  | lookup (src : Source σ) (name : String) (t : Token) (before : World σ)
  | branch (p : Pending σ) (c : Clause σ) (before : World σ)

namespace Deed

def before : Deed σ → World σ
  | .lookup _ _ _ w | .branch _ _ w => w

/-- The world when the lookup has answered or the branch has run to its end. -/
def after : Deed σ → World σ
  | .lookup src name t w => (ExceptT.run (src.clauses name t) w).2
  | .branch p c w => (ExceptT.run (p.solve c) w).2

/-- What the deed itself gives the search to yield: the failure of a lookup, or what comes of a branch. -/
def item? : Deed σ → Option Item
  | .lookup src name t w =>
    match (ExceptT.run (src.clauses name t) w).1 with
    | .ok _ => none
    | .error f => Item.of? (.error f : Except Failure (Outcome σ))
  | .branch p c w => Item.of? (ExceptT.run (p.solve c) w).1

theorem subset_cancelled (d : Deed σ) : d.before.cancelled ⊆ d.after.cancelled := by
  cases d with
  | lookup src name t w => exact src.clauses_keepsCancelled name t w
  | branch p c w => exact p.solve_keepsCancelled c w

end Deed

namespace Search

def advanceDeeds (s : Search σ) (a : Alternatives σ) (w : World σ) : List (Deed σ) :=
  match ExceptT.run (nextMatch s.token a.origin.actuals a.clauses) w with
  | (.ok (some (c, _)), w') => [.branch a.origin c w']
  | _ => []

def turnDeeds (s : Search σ) (w : World σ) : List (Deed σ) :=
  if s.token ∈ w.cancelled then []
  else
    match s.current, s.queue with
    | some a, _ => s.advanceDeeds a w
    | none, [] => []
    | none, p :: rest =>
      .lookup s.source p.name s.token w ::
        match ExceptT.run (s.source.clauses p.name s.token) w with
        | (.error _, _) => []
        | (.ok clauses, w') => ({ s with queue := rest } : Search σ).advanceDeeds ⟨p, clauses⟩ w'

def deeds : Nat → Search σ → World σ → List (Deed σ)
  | 0, _, _ => []
  | turns + 1, s, w =>
    if s.done then []
    else
      s.turnDeeds w ++
        match s.turn w with
        | ((.running, s'), w') => deeds turns s' w'
        | _ => []

end Search

inductive Happening (σ : Type) where
  /-- The world has become this one in between two calls. -/
  | outside (w : World σ)
  | deed (d : Deed σ)
  | yielded (item : Item)

/-- A log accounts for all that happens. A deed starts where the one before it has left the world, and with the token
not cancelled; and nothing from outside takes a cancellation back. -/
inductive Linked (t : Token) : World σ → List (Happening σ) → World σ → Prop where
  | nil {w w' : World σ} : w.Alike w' → Linked t w [] w'
  | outside {w w₁ w' : World σ} {log : List (Happening σ)} : w.cancelled ⊆ w₁.cancelled → Linked t w₁ log w' →
      Linked t w (.outside w₁ :: log) w'
  | deed {w w' : World σ} {d : Deed σ} {log : List (Happening σ)} : w.Alike d.before → t ∉ d.before.cancelled →
      Linked t d.after log w' → Linked t w (.deed d :: log) w'
  | yielded {w w' : World σ} {item : Item} {log : List (Happening σ)} : Linked t w log w' →
      Linked t w (.yielded item :: log) w'

def Happening.Cancels (t : Token) : Happening σ → Prop
  | .outside w => t ∈ w.cancelled
  | .deed d => t ∈ d.after.cancelled
  | .yielded _ => False

namespace Linked

variable {t : Token} {w w₁ w' : World σ} {log log' : List (Happening σ)}

theorem after_alike (h : w.Alike w₁) (hl : Linked t w₁ log w') : Linked t w log w' := by
  induction hl with
  | nil h' => exact .nil (h.trans h')
  | outside hsub hrest _ => exact .outside (h.2 ▸ hsub) hrest
  | deed h' ht hrest _ => exact .deed (h.trans h') ht hrest
  | yielded _ ih => exact .yielded (ih h)

theorem append (h : Linked t w log w₁) (h' : Linked t w₁ log' w') : Linked t w (log ++ log') w' := by
  induction h with
  | nil halike => exact h'.after_alike halike
  | outside hsub _ ih => exact .outside hsub (ih h')
  | deed halike ht _ ih => exact .deed halike ht (ih h')
  | yielded _ ih => exact .yielded (ih h')

theorem subset_cancelled (h : Linked t w log w') : w.cancelled ⊆ w'.cancelled := by
  induction h with
  | nil halike =>
      rw [halike.2]
      exact List.Subset.refl _
  | outside hsub _ ih => exact List.Subset.trans hsub ih
  | @deed w w' d log halike _ _ ih =>
      have hbefore := List.Subset.trans d.subset_cancelled ih
      rwa [halike.2] at hbefore
  | yielded _ ih => exact ih

/-- Once the token is cancelled nothing is done. -/
theorem no_deed (h : Linked t w log w') (ht : t ∈ w.cancelled) (d : Deed σ) : .deed d ∉ log := by
  induction h with
  | nil _ => exact List.not_mem_nil
  | outside hsub _ ih =>
      intro hmem
      rcases List.mem_cons.mp hmem with heq | hmem
      · cases heq
      · exact ih (hsub ht) hmem
  | deed halike hnot _ _ =>
      rw [halike.2] at hnot
      exact absurd ht hnot
  | yielded _ ih =>
      intro hmem
      rcases List.mem_cons.mp hmem with heq | hmem
      · cases heq
      · exact ih ht hmem

theorem eq_nil {ds : List (Deed σ)} (h : Linked t w (ds.map .deed) w') (ht : t ∈ w.cancelled) : ds = [] := by
  cases ds with
  | nil => rfl
  | cons d ds => exact absurd List.mem_cons_self (h.no_deed ht d)

theorem after_cancels {pre post : List (Happening σ)} {x : Happening σ} (h : Linked t w (pre ++ x :: post) w')
    (hx : x.Cancels t) : ∃ w₁, t ∈ w₁.cancelled ∧ Linked t w₁ post w' := by
  induction pre generalizing w with
  | nil =>
      cases h with
      | outside _ hrest => exact ⟨_, hx, hrest⟩
      | deed _ _ hrest => exact ⟨_, hx, hrest⟩
      | yielded _ => exact hx.elim
  | cons y pre ih =>
      cases h with
      | outside _ hrest => exact ih hrest
      | deed _ _ hrest => exact ih hrest
      | yielded hrest => exact ih hrest

end Linked

/-- Where an item comes from. Of the deeds only the last can have one of its own; with none of its own, the search is at
its end or cancelled. -/
inductive Reports (t : Token) (w' : World σ) : List (Deed σ) → Option Item → Prop where
  | silent {ds : List (Deed σ)} : (∀ d ∈ ds, d.item? = none) → Reports t w' ds none
  | ended {ds : List (Deed σ)} : (∀ d ∈ ds, d.item? = none) → t ∉ w'.cancelled → Reports t w' ds (some .ended)
  | cancelled {ds : List (Deed σ)} : (∀ d ∈ ds, d.item? = none) → Reports t w' ds (some (.failed .cancelled))
  | own {ds : List (Deed σ)} {d : Deed σ} {item : Item} : (∀ d ∈ ds, d.item? = none) → d.item? = some item →
      Reports t w' (ds ++ [d]) (some item)

namespace Reports

variable {t : Token} {w₁ w' : World σ} {ds ds' : List (Deed σ)} {o : Option Item}

theorem alike (hr : Reports t w₁ ds o) (h : w₁.Alike w') : Reports t w' ds o := by
  cases hr with
  | silent hds => exact .silent hds
  | ended hds ht => exact .ended hds (by rwa [h.2])
  | cancelled hds => exact .cancelled hds
  | own hds hd => exact .own hds hd

theorem after_silent (hds : ∀ d ∈ ds, d.item? = none) (h : Reports t w' ds' o) : Reports t w' (ds ++ ds') o := by
  have hboth {more : List (Deed σ)} (hmore : ∀ d ∈ more, d.item? = none) : ∀ d ∈ ds ++ more, d.item? = none := by
    intro d hd
    rcases List.mem_append.mp hd with hd | hd
    · exact hds d hd
    · exact hmore d hd
  cases h with
  | silent h' => exact .silent (hboth h')
  | ended h' ht => exact .ended (hboth h') ht
  | cancelled h' => exact .cancelled (hboth h')
  | own h' hd =>
      rw [← List.append_assoc]
      exact .own (hboth h') hd

theorem silent_of_none (h : Reports t w' ds none) : ∀ d ∈ ds, d.item? = none := by
  cases h with
  | silent hds => exact hds

theorem one (d : Deed σ) : Reports t w' [d] d.item? := by
  cases hd : d.item? with
  | none => exact .silent fun d' h' => (List.mem_singleton.mp h') ▸ hd
  | some item =>
      have hnone : ∀ d' ∈ ([] : List (Deed σ)), d'.item? = none := fun _ h => absurd h List.not_mem_nil
      exact .own hnone hd

end Reports

theorem nextMatch_alike {t : Token} {actuals : List Actual} {clauses : List (Clause σ)} {w w' : World σ}
    {r : Except Failure (Option (Clause σ × List (Clause σ)))}
    (h : ExceptT.run (nextMatch t actuals clauses) w = (r, w')) :
    w.Alike w' ∧ ∀ found, r = .ok (some found) → t ∉ w.cancelled := by
  induction clauses generalizing w with
  | nil =>
      cases h
      exact ⟨.refl _, fun _ h => by cases h⟩
  | cons c clauses ih =>
      rw [nextMatch, Engine.run_bind, Engine.run_checkpoint] at h
      by_cases ht : t ∈ w.cancelled
      · simp only [if_pos ht] at h
        cases h
        exact ⟨.refl _, fun _ h => by cases h⟩
      simp only [if_neg ht] at h
      by_cases hc : c.Matches actuals
      · rw [if_pos hc] at h
        cases h
        exact ⟨.refl _, fun _ _ => ht⟩
      · rw [if_neg hc, Engine.bind_of_ok (Engine.run_emit _ _)] at h
        exact ⟨(World.Alike.event w _).trans (ih h).1, fun _ _ => ht⟩

def Turn.item? : Turn → Option Item
  | .running => none
  | .answered a => some (.answer a)
  | .exhausted => some .ended
  | .stopped (.error e) => some (.failed e)
  | .stopped (.crash c) => some (.crashed c)

def Item.shown? : Item → Option Item
  | .unfinished => none
  | item => some item

theorem Item.shown?_of_ne {item : Item} (h : item ≠ .unfinished) : item.shown? = some item := by
  cases item with
  | unfinished => exact absurd rfl h
  | _ => rfl

def Item.isLast : Item → Bool
  | .failed _ | .ended => true
  | .answer _ | .crashed _ | .unfinished => false

namespace Search

/-- From one state to another with these deeds, of which this item is reported. -/
structure Passes (s : Search σ) (w : World σ) (ds : List (Deed σ)) (o : Option Item) (s' : Search σ) (w' : World σ) :
    Prop where
  token_eq : s'.token = s.token
  linked : Linked s.token w (ds.map .deed) w'
  reports : Reports s.token w' ds o

variable {s s' : Search σ} {w w' : World σ}

theorem advance_passes {a : Alternatives σ} {t : Turn} (h : s.advance a w = ((t, s'), w')) :
    s.Passes w (s.advanceDeeds a w) t.item? s' w' ∧ s'.done = s.done := by
  unfold Search.advance at h
  unfold advanceDeeds
  cases hm : ExceptT.run (nextMatch s.token a.origin.actuals a.clauses) w with
  | mk r w₁ =>
  obtain ⟨halike, hnot⟩ := nextMatch_alike hm
  rw [hm] at h
  cases r with
  | error f =>
      cases h
      obtain rfl := nextMatch_fails hm
      exact ⟨⟨rfl, .nil halike, .cancelled fun _ h => absurd h List.not_mem_nil⟩, rfl⟩
  | ok found =>
  cases found with
  | none =>
      cases h
      exact ⟨⟨rfl, .nil halike, .silent fun _ h => absurd h List.not_mem_nil⟩, rfl⟩
  | some p =>
      obtain ⟨c, rest⟩ := p
      simp only at h ⊢
      have hbefore : s.token ∉ w₁.cancelled := by
        rw [halike.2]
        exact hnot _ rfl
      have hreports (v : World σ) : Reports s.token v [.branch a.origin c w₁]
          (Item.of? (ExceptT.run (a.origin.solve c) w₁).1) := Reports.one (.branch a.origin c w₁)
      have hlinked {v : World σ} (hv : (ExceptT.run (a.origin.solve c) w₁).2.Alike v) :
          Linked s.token w [.deed (.branch a.origin c w₁)] v := .deed halike hbefore (.nil hv)
      cases hsolve : ExceptT.run (a.origin.solve c) w₁ with
      | mk r w₂ =>
      rw [hsolve] at h hreports hlinked
      cases r with
      | error f =>
          cases h
          refine ⟨⟨rfl, hlinked (.refl _), ?_⟩, rfl⟩
          cases f with
          | error e => exact hreports _
          | crash c => exact hreports _
      | ok o =>
          cases o with
          | failed =>
              cases h
              exact ⟨⟨rfl, hlinked (.refl _), hreports _⟩, rfl⟩
          | complete e =>
              cases h
              exact ⟨⟨rfl, hlinked (.event _ _), hreports _⟩, rfl⟩
          | suspended call =>
              cases h
              exact ⟨⟨rfl, hlinked (.event _ _), hreports _⟩, rfl⟩

theorem turn_passes {t : Turn} (h : s.turn w = ((t, s'), w')) :
    s.Passes w (s.turnDeeds w) t.item? s' w' ∧ s'.done = s.done := by
  unfold Search.turn at h
  unfold turnDeeds
  by_cases ht : s.token ∈ w.cancelled
  · rw [if_pos ht] at h ⊢
    cases h
    exact ⟨⟨rfl, .nil (.refl w), .cancelled fun _ h => absurd h List.not_mem_nil⟩, rfl⟩
  rw [if_neg ht] at h ⊢
  cases hcur : s.current with
  | some a =>
      rw [hcur] at h
      exact advance_passes h
  | none =>
  cases hq : s.queue with
  | nil =>
      rw [hcur, hq] at h
      cases h
      exact ⟨⟨rfl, .nil (.refl w), .ended (fun _ h => absurd h List.not_mem_nil) ht⟩, rfl⟩
  | cons p rest =>
      rw [hcur, hq] at h
      simp only at h ⊢
      have hafter : (Deed.lookup s.source p.name s.token w).after =
          (ExceptT.run (s.source.clauses p.name s.token) w).2 := rfl
      have hitem : (Deed.lookup s.source p.name s.token w).item? =
          match (ExceptT.run (s.source.clauses p.name s.token) w).1 with
          | .ok _ => none
          | .error f => Item.of? (.error f : Except Failure (Outcome σ)) := rfl
      cases hl : ExceptT.run (s.source.clauses p.name s.token) w with
      | mk r w₁ =>
      rw [hl] at h hafter hitem
      cases r with
      | error f =>
          cases h
          refine ⟨⟨rfl, .deed (.refl w) ht (.nil ⟨by rw [hafter], by rw [hafter]⟩), ?_⟩, rfl⟩
          have hone : Reports s.token w' _ _ := Reports.one (Deed.lookup s.source p.name s.token w)
          rw [hitem] at hone
          cases f with
          | error e => exact hone
          | crash c => exact hone
      | ok clauses =>
          obtain ⟨hpasses, hdone⟩ := advance_passes h
          refine ⟨⟨hpasses.token_eq, .deed (.refl w) ht (hafter ▸ hpasses.linked), ?_⟩, hdone⟩
          have hsilent : ∀ d ∈ [Deed.lookup s.source p.name s.token w], d.item? = none := by
            intro d hd
            rw [List.mem_singleton.mp hd, hitem]
          exact Reports.after_silent hsilent hpasses.reports

theorem next_passes {turns : Nat} {item : Item} (hs : s.done = false) (h : next turns s w = ((item, s'), w')) :
    s.Passes w (deeds turns s w) item.shown? s' w' ∧ s'.done = item.isLast := by
  induction turns generalizing s w with
  | zero =>
      cases h
      exact ⟨⟨rfl, .nil (.refl _), .silent fun _ h => absurd h List.not_mem_nil⟩, hs⟩
  | succ turns ih =>
      have hrunning : ¬s.done = true := by rw [hs]; exact Bool.false_ne_true
      rw [Search.next, if_neg hrunning] at h
      rw [deeds, if_neg hrunning]
      rcases hturn : s.turn w with ⟨⟨t, s₁⟩, w₁⟩
      obtain ⟨hpasses, hdone⟩ := turn_passes hturn
      rw [hturn] at h
      cases t with
      | running =>
          obtain ⟨hrest, hlast⟩ := ih (hdone.trans hs) h
          have hlinked := hrest.linked
          have hreports := hrest.reports
          rw [hpasses.token_eq] at hlinked hreports
          refine ⟨⟨hrest.token_eq.trans hpasses.token_eq, ?_, ?_⟩, hlast⟩
          · rw [List.map_append]
            exact hpasses.linked.append hlinked
          · exact Reports.after_silent hpasses.reports.silent_of_none hreports
      | answered a =>
          cases h
          simp only [List.append_nil]
          exact ⟨hpasses, hdone.trans hs⟩
      | exhausted =>
          cases h
          simp only [List.append_nil]
          exact ⟨⟨hpasses.token_eq, hpasses.linked, hpasses.reports⟩, rfl⟩
      | stopped f =>
          cases f with
          | error e =>
              cases h
              simp only [List.append_nil]
              refine ⟨⟨hpasses.token_eq, ?_, hpasses.reports.alike (.event w₁ _)⟩, rfl⟩
              exact List.append_nil ((s.turnDeeds w).map Happening.deed) ▸
                hpasses.linked.append (.nil (.event w₁ _))
          | crash c =>
              cases h
              simp only [List.append_nil]
              exact ⟨hpasses, hdone.trans hs⟩

end Search
end Clausal
