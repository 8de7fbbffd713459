import Clausal.Proofs.Branch
import Mathlib.Data.List.Forall2

/-! Derivation trees. A branch that stops at a call has a child for each clause that matches, and the
final environments of a resolvent are those of the complete branches below it. Main statements: they
depend on the agenda only through the list of its goals, and a list of goals has the final
environments of its second part from each final environment of its first. -/
namespace Clausal

/-- The results for each of a list, one after the other, unless there is none for some of them. -/
def gather {α β : Type} (f : α → Option (List β)) : List α → Option (List β)
  | [] => some []
  | a :: rest => (f a).bind fun bs => (gather f rest).map fun cs => bs ++ cs

section Gather

variable {α β γ : Type}

theorem gather_eq_some {f : α → Option (List β)} {as : List α} {bs : List β} :
    gather f as = some bs ↔ ∃ bss, List.Forall₂ (fun a bs => f a = some bs) as bss ∧ bs = bss.flatten := by
  induction as generalizing bs with
  | nil =>
      constructor
      · intro h
        exact ⟨[], .nil, (Option.some.inj h).symm⟩
      · rintro ⟨bss, h, rfl⟩
        cases h
        rfl
  | cons a rest ih =>
      rw [gather, Option.bind_eq_some_iff]
      constructor
      · rintro ⟨b, hb, h⟩
        obtain ⟨c, hc, rfl⟩ := Option.map_eq_some_iff.mp h
        obtain ⟨bss, hall, rfl⟩ := ih.mp hc
        exact ⟨b :: bss, .cons hb hall, rfl⟩
      · rintro ⟨bss, h, rfl⟩
        cases h with
        | @cons _ b _ bss hb hall =>
            refine ⟨b, hb, ?_⟩
            rw [ih.mpr ⟨bss, hall, rfl⟩]
            rfl

theorem gather_singleton (f : α → Option (List β)) (a : α) : gather f [a] = f a := by
  rw [gather, gather]
  cases f a <;> simp

theorem gather_append (f : α → Option (List β)) (as bs : List α) :
    gather f (as ++ bs) = (gather f as).bind fun xs => (gather f bs).map fun ys => xs ++ ys := by
  induction as with
  | nil => cases h : gather f bs <;> simp [gather, h]
  | cons a rest ih =>
      rw [List.cons_append, gather, gather, ih]
      cases f a with
      | none => rfl
      | some xs => cases gather f rest <;> cases gather f bs <;> simp

theorem gather_bind (f : α → Option (List β)) (g : β → Option (List γ)) (as : List α) :
    gather (fun a => (f a).bind (gather g)) as = (gather f as).bind (gather g) := by
  induction as with
  | nil => rfl
  | cons a rest ih =>
      rw [gather, gather, ih]
      cases f a with
      | none => rfl
      | some xs =>
          cases gather f rest with
          | none => cases h : gather g xs <;> simp [h]
          | some ys => simp [gather_append]

theorem gather_mono {f g : α → Option (List β)} {as : List α} {bs : List β} (h : gather f as = some bs)
    (hfg : ∀ a ∈ as, ∀ bs, f a = some bs → g a = some bs) : gather g as = some bs := by
  induction as generalizing bs with
  | nil => exact h
  | cons a rest ih =>
      obtain ⟨xs, hx, h⟩ := Option.bind_eq_some_iff.mp h
      obtain ⟨ys, hy, rfl⟩ := Option.map_eq_some_iff.mp h
      rw [gather, hfg a List.mem_cons_self xs hx, ih hy fun b hb => hfg b (List.mem_cons_of_mem a hb)]
      rfl

theorem gather_congr {f g : α → Option (List β)} {as : List α} (h : ∀ a ∈ as, f a = g a) :
    gather f as = gather g as := by
  induction as with
  | nil => rfl
  | cons a rest ih =>
      rw [gather, gather, h a List.mem_cons_self, ih fun b hb => h b (List.mem_cons_of_mem a hb)]

theorem exists_gather {f : Nat → α → Option (List β)}
    (hf : ∀ m n, m ≤ n → ∀ a bs, f m a = some bs → f n a = some bs) {as : List α} {bs : List β} :
    (∃ n, gather (f n) as = some bs) ↔
      ∃ bss, List.Forall₂ (fun a bs => ∃ n, f n a = some bs) as bss ∧ bs = bss.flatten := by
  constructor
  · rintro ⟨n, h⟩
    obtain ⟨bss, hall, rfl⟩ := gather_eq_some.mp h
    exact ⟨bss, hall.imp fun _ _ h => ⟨n, h⟩, rfl⟩
  · rintro ⟨bss, hall, rfl⟩
    induction hall with
    | nil => exact ⟨0, rfl⟩
    | @cons a bs rest bss h _ ih =>
        obtain ⟨m, hm⟩ := h
        obtain ⟨n, hn⟩ := ih
        refine ⟨max m n, ?_⟩
        rw [gather, hf m _ (Nat.le_max_left m n) a bs hm,
          gather_mono hn fun a _ bs h => hf n _ (Nat.le_max_right m n) a bs h]
        rfl

end Gather

variable {σ : Type} {α β : Type}

/-- The result of one settled computation after another. -/
theorem Engine.Settled.result_bind {x : Engine σ α} {k : α → Engine σ β} {P : α → Prop} {Q : β → Prop}
    (hx : x.Settled P) (hk : ∀ a, P a → (k a).Settled Q) (host : σ) :
    Engine.result (x >>= k) host = (Engine.result x host).bind fun a => Engine.result (k a) host := by
  have hP : ∀ a, Engine.result x host = .ok a → P a := fun _ => hx.result_ok
  unfold Engine.result at hP ⊢
  rw [Engine.run_bind]
  generalize ExceptT.run x (World.start host) = p at hP
  obtain ⟨r, w⟩ := p
  cases r with
  | error f => rfl
  | ok a => exact ((hk a (hP a rfl)).run_eq host w).1

/-- Calls in their normal form, with an agenda of one segment. -/
def Call.flat (c : Call σ) : Call σ := { c with rest := .ofList c.rest.toList }

def Outcome.flat : Outcome σ → Outcome σ
  | .complete e => .complete e
  | .failed => .failed
  | .suspended c => .suspended c.flat

namespace Derivation

variable (lookup : String → List (Clause σ)) (host : σ)

/-- The clauses that continue a call with these arguments. -/
def matching (name : String) (slots : List Slot) : List (Clause σ) :=
  (lookup name).filter fun callee => callee.Matches (slots.map Slot.parameter)

/-- The final environments below an outcome, depth first, unless there is an error or some branch
stops at more calls than the fuel allows. -/
def leavesOf : Nat → Except Failure (Outcome σ) → Option (List Env)
  | _, .error _ => none
  | _, .ok (.complete e) => some [e]
  | _, .ok .failed => some []
  | 0, .ok (.suspended _) => none
  | n + 1, .ok (.suspended c) =>
    gather (fun callee => leavesOf n ((c.resume callee >>= Resolvent.run).result host))
      (matching lookup c.name c.arguments)

/-- The tree of the resolvent is finite and free of errors, and these are its final environments. -/
def Yields (r : Resolvent σ) (finals : List Env) : Prop :=
  ∃ n, leavesOf lookup host n (r.run.result host) = some finals

/-- How a list of goals runs up to its first call. -/
def runGoals : Env → List (Goal σ) → Except Failure (Outcome σ)
  | e, [] => .ok (.complete e)
  | e, g :: goals =>
    match (g.step e).result host with
    | .error f => .error f
    | .ok (.next e') => runGoals e' goals
    | .ok .failed => .ok .failed
    | .ok (.call name slots e') => .ok (.suspended ⟨name, slots, e', .ofList goals⟩)

def continued (c : Call σ) (callee : Clause σ) : Except Failure (Outcome σ) :=
  ((callee.instantiate c.env.serial).result host).bind fun body =>
    runGoals host c.env.nextSerial.2
      (.openScope (callee.formals.zip c.arguments) :: (body ++ .closeScope :: c.rest.toList))

/-- The final environments below an outcome, by the lists of goals alone. -/
def finalsOf : Nat → Except Failure (Outcome σ) → Option (List Env)
  | _, .error _ => none
  | _, .ok (.complete e) => some [e]
  | _, .ok .failed => some []
  | 0, .ok (.suspended _) => none
  | n + 1, .ok (.suspended c) =>
    gather (fun callee => finalsOf n (continued host c callee)) (matching lookup c.name c.arguments)

variable {lookup : String → List (Clause σ)} {host : σ}

theorem runGoals_solve {a : Agenda σ} (ha : a.Pure) (e : Env) :
    ((Resolvent.solve e a).result host).map Outcome.flat = runGoals host e a.toList := by
  induction hl : a.toList generalizing a e with
  | nil =>
      rw [Resolvent.solve_nil hl]
      rfl
  | cons g goals ih =>
      obtain ⟨rest, hn, hrest⟩ := Agenda.next?_of_cons hl
      have hg : g.Pure := ha g (hl ▸ List.mem_cons_self)
      have hp : rest.Pure := fun g' h' => ha g' (hl ▸ List.mem_cons_of_mem g (hrest ▸ h'))
      have hproceed : ∀ s, (Resolvent.proceed rest s).Settled Outcome.Pure := by
        intro s
        cases s with
        | next e' => exact Resolvent.solve_settled hp e'
        | failed => exact Engine.settled_pure trivial
        | call name slots e' => exact Engine.settled_pure hp
      rw [Resolvent.solve_cons hn, Engine.Settled.result_bind (Engine.settled_emit _)
          (fun _ _ => (Goal.step_settled hg e).bind fun s _ => hproceed s),
        show Engine.result (Engine.emit _) host = .ok () from rfl, Except.bind,
        Engine.Settled.result_bind (Goal.step_settled hg e) fun s _ => hproceed s, runGoals]
      cases (g.step e).result host with
      | error f => rfl
      | ok s =>
          cases s with
          | next e' => exact ih hp e' hrest
          | failed => rfl
          | call name slots e' =>
              show Except.ok (Outcome.suspended ⟨name, slots, e', .ofList rest.toList⟩) = _
              rw [hrest]

theorem continued_flat (c : Call σ) (callee : Clause σ) : continued host c.flat callee = continued host c callee := by
  unfold continued Call.flat
  rw [Agenda.toList_ofList]

theorem run_settled {r : Resolvent σ} (hr : r.agenda.Pure) : r.run.Settled Outcome.Pure :=
  Resolvent.solve_settled hr r.env

theorem resume_run_settled {c : Call σ} (hc : c.rest.Pure) {callee : Clause σ} (hp : callee.Pure) :
    (c.resume callee >>= Resolvent.run).Settled Outcome.Pure :=
  (Call.resume_settled hc hp).bind fun _ hr => run_settled hr

theorem continued_resume {c : Call σ} (hc : c.rest.Pure) {callee : Clause σ} (hp : callee.Pure) :
    ((c.resume callee >>= Resolvent.run).result host).map Outcome.flat = continued host c callee := by
  rw [Engine.Settled.result_bind (Call.resume_settled hc hp) fun _ hr => run_settled hr, Call.resume]
  rw [Engine.Settled.result_bind (Clause.instantiate_settled hp _) (Q := fun _ => True)
    fun _ _ => Engine.settled_pure trivial, continued]
  cases hb : (callee.instantiate c.env.nextSerial.1).result host with
  | error f =>
      rw [show (callee.instantiate c.env.serial).result host = .error f from hb]
      rfl
  | ok body =>
      rw [show (callee.instantiate c.env.serial).result host = .ok body from hb]
      have hbody := (Clause.instantiate_settled hp _).result_ok hb
      have hclose : (c.rest.push [.closeScope]).Pure := Agenda.pure_push hc (by simp [Goal.Pure])
      have hentry : ∀ g ∈ [(.openScope (callee.formals.zip c.arguments) : Goal σ)], g.Pure := by simp [Goal.Pure]
      have hagenda := Agenda.pure_push (Agenda.pure_push hclose hbody) hentry
      refine (runGoals_solve hagenda _).trans ?_
      simp only [Agenda.toList_push, Except.bind, List.cons_append, List.nil_append]

/-- The final environments depend on the agendas only through the lists of their goals. -/
theorem finalsOf_flat (hlookup : ∀ name, ∀ c ∈ lookup name, c.Pure) {n : Nat}
    {r : Except Failure (Outcome σ)} (hr : ∀ o, r = .ok o → o.Pure) :
    leavesOf lookup host n r = finalsOf lookup host n (r.map Outcome.flat) := by
  induction n generalizing r with
  | zero => rcases r with f | e | _ | c <;> rfl
  | succ n ih =>
      rcases r with f | e | _ | c
      · rfl
      · rfl
      · rfl
      · have hc : c.rest.Pure := hr _ rfl
        show gather _ (matching lookup c.name c.arguments) = gather _ (matching lookup c.name c.arguments)
        refine gather_congr fun callee hmem => ?_
        have hp := hlookup _ callee (List.mem_filter.mp hmem).1
        rw [ih fun o ho => (resume_run_settled hc hp).result_ok ho]
        exact congrArg _ ((continued_resume hc hp).trans (continued_flat c callee).symm)

theorem yields_iff (hlookup : ∀ name, ∀ c ∈ lookup name, c.Pure) {r : Resolvent σ} (hr : r.agenda.Pure)
    {finals : List Env} : Yields lookup host r finals ↔
      ∃ n, finalsOf lookup host n (runGoals host r.env r.agenda.toList) = some finals := by
  refine exists_congr fun n => ?_
  rw [finalsOf_flat hlookup fun o ho => (run_settled hr).result_ok ho, Resolvent.run, runGoals_solve hr]

theorem finalsOf_mono {m n : Nat} (h : m ≤ n) {r : Except Failure (Outcome σ)} {finals : List Env}
    (hr : finalsOf lookup host m r = some finals) : finalsOf lookup host n r = some finals := by
  induction m generalizing n r finals with
  | zero =>
      rcases r with f | e | _ | c
      · cases hr
      · cases n <;> exact hr
      · cases n <;> exact hr
      · cases hr
  | succ m ih =>
      obtain ⟨n, rfl⟩ := Nat.exists_eq_add_of_lt h
      rcases r with f | e | _ | c
      · cases hr
      · exact hr
      · exact hr
      · exact gather_mono hr fun callee _ _ h => ih (by omega) h

theorem finalsOf_complete (n : Nat) (e : Env) : finalsOf lookup host n (.ok (.complete e)) = some [e] := by
  cases n <;> rfl

theorem finalsOf_complete_bind (n : Nat) (e : Env) (f : Env → Option (List Env)) :
    (finalsOf lookup host n (.ok (.complete e))).bind (gather f) = f e := by
  rw [finalsOf_complete]
  exact gather_singleton f e

def andThen (host : σ) (goals : List (Goal σ)) : Outcome σ → Except Failure (Outcome σ)
  | .complete e => runGoals host e goals
  | .failed => .ok .failed
  | .suspended c => .ok (.suspended { c with rest := .ofList (c.rest.toList ++ goals) })

theorem runGoals_append (e : Env) (goals more : List (Goal σ)) :
    runGoals host e (goals ++ more) = (runGoals host e goals).bind (andThen host more) := by
  induction goals generalizing e with
  | nil => rfl
  | cons g goals ih =>
      rw [List.cons_append, runGoals, runGoals]
      cases (g.step e).result host with
      | error f => rfl
      | ok s =>
          cases s with
          | next e' => exact ih e'
          | failed => rfl
          | call name slots e' =>
              simp only [Except.bind, andThen, Agenda.toList_ofList]

theorem continued_andThen (c : Call σ) (callee : Clause σ) (more : List (Goal σ)) :
    continued host { c with rest := .ofList (c.rest.toList ++ more) } callee =
      (continued host c callee).bind (andThen host more) := by
  unfold continued
  cases (callee.instantiate c.env.serial).result host with
  | error f => rfl
  | ok body =>
      refine Eq.trans ?_ (runGoals_append _ _ more)
      simp [Except.bind, Agenda.toList_ofList]

/-- What goals and more behind them yield, the goals yield with the others run from each of their
final environments. -/
theorem finalsOf_bind {n : Nat} {r : Except Failure (Outcome σ)} {more : List (Goal σ)} {finals : List Env}
    (h : finalsOf lookup host n (r.bind (andThen host more)) = some finals) :
    (finalsOf lookup host n r).bind (gather fun e => finalsOf lookup host n (runGoals host e more)) =
      some finals := by
  induction n generalizing r finals with
  | zero =>
      rcases r with f | e | _ | c
      · cases h
      · exact (finalsOf_complete_bind _ e _).trans h
      · exact h
      · cases h
  | succ n ih =>
      rcases r with f | e | _ | c
      · cases h
      · exact (finalsOf_complete_bind _ e _).trans h
      · exact h
      · rw [finalsOf, ← gather_bind]
        refine gather_mono (f := fun callee => finalsOf lookup host n
          ((continued host c callee).bind (andThen host more))) ?_ fun callee _ finals h => ?_
        · refine Eq.trans (gather_congr fun callee _ => ?_) h
          rw [continued_andThen]
        · obtain ⟨es, hes, hmore⟩ := Option.bind_eq_some_iff.mp (ih h)
          refine Option.bind_eq_some_iff.mpr ⟨es, hes, ?_⟩
          exact gather_mono hmore fun e _ _ h => finalsOf_mono (Nat.le_succ n) h

theorem finalsOf_bind_of {m n : Nat} {r : Except Failure (Outcome σ)} {more : List (Goal σ)}
    {finals : List Env}
    (h : (finalsOf lookup host n r).bind (gather fun e => finalsOf lookup host m (runGoals host e more)) =
      some finals) : finalsOf lookup host (n + m) (r.bind (andThen host more)) = some finals := by
  induction n generalizing r finals with
  | zero =>
      rcases r with f | e | _ | c
      · cases h
      · exact finalsOf_mono (Nat.le_add_left m _) ((finalsOf_complete_bind _ e _).symm.trans h)
      · cases m <;> exact h
      · cases h
  | succ n ih =>
      rcases r with f | e | _ | c
      · cases h
      · exact finalsOf_mono (Nat.le_add_left m _) ((finalsOf_complete_bind _ e _).symm.trans h)
      · rw [Nat.succ_add]
        exact h
      · rw [finalsOf, ← gather_bind] at h
        rw [Nat.succ_add]
        refine Eq.trans (gather_congr fun callee _ => ?_) (gather_mono h fun callee _ finals h => ih h)
        rw [continued_andThen]

end Derivation
end Clausal
