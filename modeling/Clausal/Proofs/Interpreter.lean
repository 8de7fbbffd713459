import Clausal.Proofs.Derivation

/-! The direct interpreter. It runs goals in order, and a call as a procedure: it solves the body of
each matching clause in a scope of its own, closes that scope, and goes on with the goals behind the
call. Nothing is suspended and no goals are handed over. Main statement: a resolvent has the final
environments that the direct interpreter finds. -/
namespace Clausal.Derivation

variable {σ : Type}

section Definitions

variable (lookup : String → List (Clause σ)) (host : σ)

/-- Runs goals in order. What a call comes to is left to a procedure. -/
def interpretGoals (procedure : String → List Slot → Env → Option (List Env)) :
    Env → List (Goal σ) → Option (List Env)
  | e, [] => some [e]
  | e, g :: goals =>
    match (g.step e).result host with
    | .error _ => none
    | .ok (.next e') => interpretGoals procedure e' goals
    | .ok .failed => some []
    | .ok (.call name slots e') =>
      (procedure name slots e').bind (gather fun e'' => interpretGoals procedure e'' goals)

def exit (e : Env) : Option (List Env) := e.closeScope.toOption.map fun e' => [e']

/-- The environments after a call, for each of its clauses. The fuel bounds how deep calls nest. -/
def interpretCall : Nat → String → List Slot → Env → Option (List Env)
  | 0, _, _, _ => none
  | n + 1, name, slots, e =>
    gather (fun callee =>
      ((callee.instantiate e.serial).result host).toOption.bind fun body =>
        (interpretGoals host (interpretCall n)
          (e.nextSerial.2.openScope (callee.formals.zip slots)) body).bind (gather exit))
      (matching lookup name slots)

def interpret (n : Nat) : Env → List (Goal σ) → Option (List Env) :=
  interpretGoals host (interpretCall lookup host n)

/-- The tree of some goals is finite and free of errors, and these are its final environments. -/
def Finals (e : Env) (goals : List (Goal σ)) (finals : List Env) : Prop :=
  ∃ n, finalsOf lookup host n (runGoals host e goals) = some finals

end Definitions

variable {lookup : String → List (Clause σ)} {host : σ}

theorem finals_append {e : Env} {goals more : List (Goal σ)} {finals : List Env} :
    Finals lookup host e (goals ++ more) finals ↔ ∃ es finalss, Finals lookup host e goals es ∧
      List.Forall₂ (fun e finals => Finals lookup host e more finals) es finalss ∧
        finals = finalss.flatten := by
  have hmono : ∀ m n, m ≤ n → ∀ e finals, finalsOf lookup host m (runGoals host e more) = some finals →
      finalsOf lookup host n (runGoals host e more) = some finals := fun _ _ h _ _ hr => finalsOf_mono h hr
  unfold Finals
  rw [runGoals_append]
  constructor
  · rintro ⟨n, h⟩
    obtain ⟨es, hes, h⟩ := Option.bind_eq_some_iff.mp (finalsOf_bind h)
    obtain ⟨finalss, hall, rfl⟩ := (exists_gather hmono).mp ⟨n, h⟩
    exact ⟨es, finalss, ⟨n, hes⟩, hall, rfl⟩
  · rintro ⟨es, finalss, ⟨n, hes⟩, hall, hflat⟩
    obtain ⟨m, h⟩ := (exists_gather hmono).mpr ⟨finalss, hall, hflat⟩
    exact ⟨n + m, finalsOf_bind_of (Option.bind_eq_some_iff.mpr ⟨es, hes, h⟩)⟩

theorem step_closeScope (e : Env) :
    ((Goal.closeScope : Goal σ).step e).result host = (Failure.lift e.closeScope).map Step.next := by
  unfold Engine.result Goal.step Env.leave
  simp only [Engine.run_bind, Engine.run_lift]
  cases e.closeScope <;> rfl

theorem runGoals_closeScope (e : Env) (goals : List (Goal σ)) :
    runGoals host e (.closeScope :: goals) =
      (Failure.lift e.closeScope).bind fun e' => runGoals host e' goals := by
  rw [runGoals, step_closeScope]
  cases e.closeScope <;> rfl

/-- The final environments of a call are those of the clauses that continue it. -/
theorem finals_call {g : Goal σ} {e e' : Env} {name : String} {slots : List Slot} {goals : List (Goal σ)}
    {finals : List Env} (hg : (g.step e).result host = .ok (.call name slots e')) :
    Finals lookup host e (g :: goals) finals ↔ ∃ finalss,
      List.Forall₂ (fun callee finals => ∃ body,
          (callee.instantiate e'.serial).result host = .ok body ∧
            Finals lookup host (e'.nextSerial.2.openScope (callee.formals.zip slots))
              (body ++ .closeScope :: goals) finals)
        (matching lookup name slots) finalss ∧ finals = finalss.flatten := by
  have hmono : ∀ m n, m ≤ n → ∀ callee finals,
      finalsOf lookup host m (continued host ⟨name, slots, e', .ofList goals⟩ callee) = some finals →
        finalsOf lookup host n (continued host ⟨name, slots, e', .ofList goals⟩ callee) = some finals :=
    fun _ _ h _ _ hr => finalsOf_mono h hr
  have hcallee : ∀ callee finals, (∃ n,
      finalsOf lookup host n (continued host ⟨name, slots, e', .ofList goals⟩ callee) = some finals) ↔
      ∃ body, (callee.instantiate e'.serial).result host = .ok body ∧
        Finals lookup host (e'.nextSerial.2.openScope (callee.formals.zip slots))
          (body ++ .closeScope :: goals) finals := by
    intro callee finals
    unfold continued
    simp only [Agenda.toList_ofList]
    cases (callee.instantiate e'.serial).result host with
    | error f =>
        constructor
        · rintro ⟨n, h⟩
          cases n <;> cases h
        · rintro ⟨body, h, -⟩
          cases h
    | ok body =>
        constructor
        · exact fun h => ⟨body, rfl, h⟩
        · rintro ⟨body', h, hfinals⟩
          cases h
          exact hfinals
  unfold Finals
  rw [runGoals, hg]
  constructor
  · rintro ⟨n, h⟩
    cases n with
    | zero => cases h
    | succ n =>
        obtain ⟨finalss, hall, rfl⟩ := (exists_gather hmono).mp ⟨n, h⟩
        exact ⟨finalss, hall.imp fun callee finals h => (hcallee callee finals).mp h, rfl⟩
  · rintro ⟨finalss, hall, hflat⟩
    obtain ⟨n, h⟩ := (exists_gather hmono).mpr
      ⟨finalss, hall.imp fun callee finals h => (hcallee callee finals).mpr h, hflat⟩
    exact ⟨n + 1, h⟩

theorem toOption_eq_some {α : Type} {r : Except Failure α} {a : α} (h : r.toOption = some a) : r = .ok a := by
  cases r with
  | error f => cases h
  | ok b => exact congrArg Except.ok (Option.some.inj h)

theorem exit_eq_some {e : Env} {es : List Env} : exit e = some es ↔ ∃ e', e.closeScope = .ok e' ∧ es = [e'] := by
  unfold exit
  cases e.closeScope with
  | error err => simp [Except.toOption]
  | ok e' => simp [Except.toOption, eq_comm]

/-- A tree with calls no deeper than the fuel is found by the interpreter with as much. -/
theorem interpret_of_finalsOf {n : Nat} {e : Env} {goals : List (Goal σ)} {finals : List Env}
    (h : finalsOf lookup host n (runGoals host e goals) = some finals) :
    interpret lookup host n e goals = some finals := by
  induction n using Nat.strongRecOn generalizing e goals finals with
  | ind n ihn =>
  induction goals generalizing e finals with
  | nil => exact (finalsOf_complete n e).symm.trans h
  | cons g goals ih =>
      cases hg : (g.step e).result host with
      | error f =>
          rw [runGoals, hg] at h
          cases n <;> cases h
      | ok step =>
      cases step with
      | next e' =>
          rw [runGoals, hg] at h
          rw [interpret, interpretGoals, hg]
          exact ih h
      | failed =>
          rw [runGoals, hg] at h
          rw [interpret, interpretGoals, hg]
          cases n <;> exact h
      | call name slots e' =>
        rw [runGoals, hg] at h
        rw [interpret, interpretGoals, hg]
        cases n with
        | zero => cases h
        | succ n =>
            simp only
            rw [interpretCall, ← gather_bind]
            refine gather_mono h fun callee _ finals h => ?_
            unfold continued at h
            simp only [Agenda.toList_ofList] at h
            cases hbody : (callee.instantiate _).result host with
            | error f =>
                rw [hbody] at h
                cases n <;> cases h
            | ok body =>
                rw [hbody] at h
                change finalsOf lookup host n (runGoals host _ (body ++ _)) = _ at h
                rw [runGoals_append] at h
                obtain ⟨es, hes, h⟩ := Option.bind_eq_some_iff.mp (finalsOf_bind h)
                simp only [Except.toOption, Option.bind_some]
                rw [show interpretGoals host (interpretCall lookup host n) _ body = _ from
                  ihn n (Nat.lt_succ_self n) hes, Option.bind_some, ← gather_bind]
                refine gather_mono h fun e' _ finals h => ?_
                rw [runGoals_closeScope] at h
                cases hclose : e'.closeScope with
                | error err =>
                    rw [hclose] at h
                    cases n <;> cases h
                | ok e'' =>
                    rw [hclose] at h
                    rw [exit_eq_some.mpr ⟨e'', hclose, rfl⟩, Option.bind_some, gather_singleton]
                    exact ih (finalsOf_mono (Nat.le_succ n) h)

theorem finals_of_interpret {n : Nat} {e : Env} {goals : List (Goal σ)} {finals : List Env}
    (h : interpret lookup host n e goals = some finals) : Finals lookup host e goals finals := by
  induction n using Nat.strongRecOn generalizing e goals finals with
  | ind n ihn =>
  induction goals generalizing e finals with
  | nil => exact ⟨n, (finalsOf_complete n e).trans h⟩
  | cons g goals ih =>
      cases hg : (g.step e).result host with
      | error f =>
          rw [interpret, interpretGoals, hg] at h
          cases h
      | ok step =>
      cases step with
      | next e' =>
          rw [interpret, interpretGoals, hg] at h
          obtain ⟨m, hm⟩ := ih h
          refine ⟨m, ?_⟩
          rw [runGoals, hg]
          exact hm
      | failed =>
          rw [interpret, interpretGoals, hg] at h
          refine ⟨n, ?_⟩
          rw [runGoals, hg]
          cases n <;> exact h
      | call name slots e' =>
        rw [interpret, interpretGoals, hg] at h
        cases n with
        | zero => cases h
        | succ n =>
            simp only at h
            rw [interpretCall, ← gather_bind] at h
            obtain ⟨finalss, hall, rfl⟩ := gather_eq_some.mp h
            refine (finals_call hg).mpr ⟨finalss, hall.imp fun callee finals h => ?_, rfl⟩
            obtain ⟨es, hes, h⟩ := Option.bind_eq_some_iff.mp h
            obtain ⟨body, hbody, hes⟩ := Option.bind_eq_some_iff.mp hes
            obtain ⟨inner, hinner, hes⟩ := Option.bind_eq_some_iff.mp hes
            refine ⟨body, toOption_eq_some hbody, finals_append.mpr ?_⟩
            have hrest : (gather (fun e => (exit e).bind (gather fun e' =>
                interpretGoals host (interpretCall lookup host (n + 1)) e' goals)) inner) = some finals := by
              rw [gather_bind, hes]
              exact h
            obtain ⟨finalss', hall', rfl⟩ := gather_eq_some.mp hrest
            refine ⟨inner, finalss', ihn n (Nat.lt_succ_self n) hinner, hall'.imp fun e finals h => ?_, rfl⟩
            obtain ⟨es, hexit, h⟩ := Option.bind_eq_some_iff.mp h
            obtain ⟨e', hclose, rfl⟩ := exit_eq_some.mp hexit
            rw [gather_singleton] at h
            obtain ⟨m, hm⟩ := ih h
            refine ⟨m, ?_⟩
            rw [runGoals_closeScope, hclose]
            exact hm

theorem finals_closeScope {e : Env} {goals : List (Goal σ)} {finals : List Env} :
    Finals lookup host e (.closeScope :: goals) finals ↔
      ∃ e', e.closeScope = .ok e' ∧ Finals lookup host e' goals finals := by
  unfold Finals
  rw [runGoals_closeScope]
  cases e.closeScope with
  | error err =>
      constructor
      · rintro ⟨n, h⟩
        cases n <;> cases h
      · rintro ⟨e', h, -⟩
        cases h
  | ok e' =>
      constructor
      · exact fun h => ⟨e', rfl, h⟩
      · rintro ⟨e'', h, hfinals⟩
        cases h
        exact hfinals

theorem step_call {arguments : List (Term σ)} (hpure : ∀ t ∈ arguments, t.Pure) {name : String} {e e' : Env}
    {slots : List Slot} (h : (e.passAll arguments).result host = .ok (slots, e')) :
    ((Goal.call name arguments).step e).result host = .ok (.call name slots e') := by
  refine (Engine.Settled.result_bind (Env.passAll_settled hpure e) (Q := fun _ => True)
    (fun _ _ => Engine.settled_pure trivial) host).trans ?_
  rw [h]
  rfl

/-- The callee's body, the end of its scope and the goals behind, run from one another. -/
theorem finals_body {e : Env} {body goals : List (Goal σ)} {finals : List Env} :
    Finals lookup host e (body ++ .closeScope :: goals) finals ↔ ∃ inner outer finalss,
      Finals lookup host e body inner ∧ List.Forall₂ (fun e e' => e.closeScope = .ok e') inner outer ∧
        List.Forall₂ (fun e finals => Finals lookup host e goals finals) outer finalss ∧
          finals = finalss.flatten := by
  rw [finals_append]
  refine exists_congr fun inner => ?_
  constructor
  · rintro ⟨finalss, hinner, hall, hflat⟩
    have hsplit : ∃ outer, List.Forall₂ (fun e e' => e.closeScope = .ok e') inner outer ∧
        List.Forall₂ (fun e finals => Finals lookup host e goals finals) outer finalss := by
      clear hinner hflat
      induction hall with
      | nil => exact ⟨[], .nil, .nil⟩
      | cons h _ ih =>
          obtain ⟨e', hclose, hfinals⟩ := finals_closeScope.mp h
          obtain ⟨outer, hcloses, hrest⟩ := ih
          exact ⟨e' :: outer, .cons hclose hcloses, .cons hfinals hrest⟩
    obtain ⟨outer, hcloses, hrest⟩ := hsplit
    exact ⟨outer, finalss, hinner, hcloses, hrest, hflat⟩
  · rintro ⟨outer, finalss, hinner, hcloses, hrest, hflat⟩
    refine ⟨finalss, hinner, ?_, hflat⟩
    clear hinner hflat
    induction hcloses generalizing finalss with
    | nil =>
        cases hrest
        exact .nil
    | cons hclose _ ih =>
        cases hrest with
        | cons hfinals hrest => exact .cons (finals_closeScope.mpr ⟨_, hclose, hfinals⟩) (ih _ hrest)

theorem yields_iff_finals (hlookup : ∀ name, ∀ c ∈ lookup name, c.Pure) {e : Env} {a : Agenda σ}
    (ha : a.Pure) {finals : List Env} :
    Yields lookup host ⟨e, a⟩ finals ↔ Finals lookup host e a.toList finals := yields_iff hlookup ha

/-- What a clause yields for a call. Its body is solved in a scope of its own, which binds its formals
to the slots; then the scope is closed, and the goals behind the call are run. -/
def CalleeYields (lookup : String → List (Clause σ)) (host : σ) (slots : List Slot) (e : Env)
    (behind : Agenda σ) (callee : Clause σ) (finals : List Env) : Prop :=
  ∃ body inner outer finalss, (callee.instantiate e.serial).result host = .ok body ∧
    Yields lookup host ⟨e.nextSerial.2.openScope (callee.formals.zip slots), .ofList body⟩ inner ∧
    List.Forall₂ (fun e e' => e.closeScope = .ok e') inner outer ∧
    List.Forall₂ (fun e finals => Yields lookup host ⟨e, behind⟩ finals) outer finalss ∧
    finals = finalss.flatten

theorem calleeYields_iff (hlookup : ∀ name, ∀ c ∈ lookup name, c.Pure) {slots : List Slot} {e : Env}
    {behind : Agenda σ} (hb : behind.Pure) {callee : Clause σ} (hc : callee.Pure) {finals : List Env} :
    CalleeYields lookup host slots e behind callee finals ↔ ∃ body,
      (callee.instantiate e.serial).result host = .ok body ∧
        Finals lookup host (e.nextSerial.2.openScope (callee.formals.zip slots))
          (body ++ .closeScope :: behind.toList) finals := by
  refine exists_congr fun body => ?_
  have hbody : (callee.instantiate e.serial).result host = .ok body → (Agenda.ofList body).Pure := by
    intro h g hg
    rw [Agenda.toList_ofList] at hg
    exact (Clause.instantiate_settled hc _).result_ok h g hg
  rw [finals_body]
  constructor
  · rintro ⟨inner, outer, finalss, hinst, hinner, hrest⟩
    rw [yields_iff_finals hlookup (hbody hinst), Agenda.toList_ofList] at hinner
    simp only [yields_iff_finals hlookup hb] at hrest
    exact ⟨hinst, inner, outer, finalss, hinner, hrest⟩
  · rintro ⟨hinst, inner, outer, finalss, hinner, hrest⟩
    refine ⟨inner, outer, finalss, hinst, ?_, ?_⟩
    · rw [yields_iff_finals hlookup (hbody hinst), Agenda.toList_ofList]
      exact hinner
    · simp only [yields_iff_finals hlookup hb]
      exact hrest

/-- The final environments of goals with more behind them are those of the latter from each of the
former's, in order. Those of a call are got by solving the body of each matching clause in a scope
of its own, closing that scope, and going on behind the call. So a resolvent with a finite tree and
no errors has the final environments that the direct interpreter finds, and the other way round. -/
theorem suspension_is_direct_interpretation (hlookup : ∀ name, ∀ c ∈ lookup name, c.Pure) (e : Env)
    {a p q : Agenda σ} (hp : p.Pure) (hq : q.Pure) (ha : a.toList = p.toList ++ q.toList)
    (finals : List Env) :
    (Yields lookup host ⟨e, a⟩ finals ↔ ∃ es finalss, Yields lookup host ⟨e, p⟩ es ∧
      List.Forall₂ (fun e finals => Yields lookup host ⟨e, q⟩ finals) es finalss ∧
        finals = finalss.flatten) ∧
    (∀ name arguments slots e', p.toList = [.call name arguments] →
      (e.passAll arguments).result host = .ok (slots, e') →
        (Yields lookup host ⟨e, a⟩ finals ↔ ∃ finalss,
          List.Forall₂ (CalleeYields lookup host slots e' q) (matching lookup name slots) finalss ∧
            finals = finalss.flatten)) ∧
    (Yields lookup host ⟨e, a⟩ finals ↔ ∃ n, interpret lookup host n e a.toList = some finals) := by
  have hpure : a.Pure := by
    intro g hg
    rw [ha] at hg
    exact (List.mem_append.mp hg).elim (hp g) (hq g)
  rw [yields_iff_finals hlookup hpure]
  refine ⟨?_, ?_, ?_⟩
  · simp only [yields_iff_finals hlookup hq, yields_iff_finals hlookup hp]
    rw [ha, finals_append]
  · intro name arguments slots e' hcall hpass
    have harguments : ∀ t ∈ arguments, t.Pure := hp (.call name arguments) (hcall ▸ List.mem_singleton_self _)
    have hclauses : ∀ callee ∈ matching lookup name slots, callee.Pure := fun callee hmem =>
      hlookup name callee (List.mem_filter.mp hmem).1
    rw [ha, hcall, List.singleton_append, finals_call (step_call harguments hpass)]
    refine exists_congr fun finalss => and_congr_left fun _ => ?_
    constructor
    · intro h
      refine ((List.forall₂_and_left _ _).mpr ⟨hclauses, h⟩).imp fun callee finals h => ?_
      exact (calleeYields_iff hlookup hq h.1).mpr h.2
    · intro h
      refine ((List.forall₂_and_left _ _).mpr ⟨hclauses, h⟩).imp fun callee finals h => ?_
      exact (calleeYields_iff hlookup hq h.1).mp h.2
  · constructor
    · rintro ⟨n, h⟩
      exact ⟨n, interpret_of_finalsOf h⟩
    · rintro ⟨n, h⟩
      exact finals_of_interpret h

def coin : Database Unit where
  clauses :=
    [⟨"coin", [⟨0, "side", .int⟩], .fixed [.bind (.formal ⟨0, "side", .int⟩) (.literal (.int 0))],
      by decide, by decide⟩,
     ⟨"coin", [⟨0, "side", .int⟩], .fixed [.bind (.formal ⟨0, "side", .int⟩) (.literal (.int 1))],
      by decide, by decide⟩]

def toss : Agenda Unit := .ofList [.call "coin" [.param (.actual (.output (.shared 0) none .any none))]]

def blank : Env := ⟨.empty, ⟨[], [], ⟨0, 0⟩⟩, [], 0⟩

theorem coin_shows_the_same_side_again :
    (∀ name, ∀ c ∈ coin.named name, c.Pure) ∧ toss.Pure ∧
      ∃ finals, finals.length = 2 ∧
        Yields coin.named () ⟨blank, .ofList (toss.toList ++ toss.toList)⟩ finals := by
  have hcoin : coin.Pure := by
    simp [Database.Pure, coin, Clause.Pure, Body.Pure, Goal.Pure, Term.Pure, Term.literal]
  have hlookup : ∀ name, ∀ c ∈ coin.named name, c.Pure := fun name c hc => hcoin c (List.mem_filter.mp hc).1
  have htoss : toss.Pure := by simp [Agenda.Pure, toss, Agenda.toList_ofList, Goal.Pure, Term.Pure]
  have hlength : (interpret coin.named () 1 blank (toss.toList ++ toss.toList)).map List.length = some 2 := by
    decide +kernel
  obtain ⟨finals, hfinals, hlen⟩ := Option.map_eq_some_iff.mp hlength
  refine ⟨hlookup, htoss, finals, hlen, ?_⟩
  refine (suspension_is_direct_interpretation hlookup blank htoss htoss (Agenda.toList_ofList _) finals).2.2.mpr ⟨1, ?_⟩
  rw [Agenda.toList_ofList]
  exact hfinals

end Clausal.Derivation
