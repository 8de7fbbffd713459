import Clausal.Proofs.Answers

/-! Agendas as lists. An agenda can be kept as segments of which each has a cursor, so that its goals are shared and never
copied. Main statements: whatever is asked of any number of agendas, kept in this way or as the engine keeps them, they
give the goals that plain lists would give; and what a branch has left at a depth of scopes is the end of one body for
each of them, with the goals between that close the scopes. -/
namespace Clausal

variable {σ ρ τ : Type}

/-- Goals of which the first few have been taken. -/
structure Segment (σ : Type) where
  goals : List (Goal σ)
  taken : Nat

namespace Segment

def left (s : Segment σ) : List (Goal σ) := s.goals.drop s.taken

def agenda (segments : List (Segment σ)) : Agenda σ := ⟨segments.map left⟩

def push (segments : List (Segment σ)) (goals : List (Goal σ)) : List (Segment σ) :=
  if goals.isEmpty then segments else ⟨goals, 0⟩ :: segments

/-- Segments at whose end the cursor stands are taken off the stack when a goal is asked for. -/
def take : List (Segment σ) → Option (Goal σ) × List (Segment σ)
  | [] => (none, [])
  | s :: rest =>
    match s.goals[s.taken]? with
    | some g => (some g, ⟨s.goals, s.taken + 1⟩ :: rest)
    | none => take rest

def toList (segments : List (Segment σ)) : List (Goal σ) := (agenda segments).toList

theorem left_of_getElem? {s : Segment σ} {g : Goal σ} (h : s.goals[s.taken]? = some g) :
    s.left = g :: left ⟨s.goals, s.taken + 1⟩ := by
  obtain ⟨hlt, hg⟩ := List.getElem?_eq_some_iff.mp h
  rw [left, List.drop_eq_getElem_cons hlt, hg]
  rfl

theorem left_of_getElem?_none {s : Segment σ} (h : s.goals[s.taken]? = none) : s.left = [] :=
  List.drop_eq_nil_of_le (List.getElem?_eq_none_iff.mp h)

end Segment

/-- A way to keep goals that are still to be done. -/
structure Keeping (σ ρ : Type) where
  make : List (Goal σ) → ρ
  push : ρ → List (Goal σ) → ρ
  take : ρ → Option (Goal σ) × ρ

namespace Keeping

def lists : Keeping σ (List (Goal σ)) where
  make goals := goals
  push goals more := more ++ goals
  take
    | [] => (none, [])
    | g :: goals => (some g, goals)

def agendas : Keeping σ (Agenda σ) where
  make := Agenda.ofList
  push := Agenda.push
  take a :=
    match a.next? with
    | none => (none, .empty)
    | some (g, rest) => (some g, rest)

def cursors : Keeping σ (List (Segment σ)) where
  make := Segment.push []
  push := Segment.push
  take := Segment.take

/-- Read through `f`, the first way gives what the second one gives. -/
structure Refines (k : Keeping σ ρ) (k' : Keeping σ τ) (f : ρ → τ) : Prop where
  make : ∀ goals, f (k.make goals) = k'.make goals
  push : ∀ p goals, f (k.push p goals) = k'.push (f p) goals
  take : ∀ p, k'.take (f p) = ((k.take p).1, f (k.take p).2)

theorem agendas_refine_lists : agendas.Refines lists (Agenda.toList (σ := σ)) where
  make := Agenda.toList_ofList
  push := Agenda.toList_push
  take a := by
    cases hl : a.toList with
    | nil =>
        simp only [agendas, Agenda.next?_of_nil hl]
        rfl
    | cons g goals =>
        obtain ⟨rest, hnext, hrest⟩ := Agenda.next?_of_cons hl
        simp only [agendas, hnext, hrest]
        rfl

theorem agenda_push (segments : List (Segment σ)) (goals : List (Goal σ)) :
    Segment.agenda (Segment.push segments goals) = (Segment.agenda segments).push goals := by
  cases goals with
  | nil => rfl
  | cons g goals => rfl

/-- A cursor at the end of its segment is where the engine has a segment without goals. -/
theorem cursors_refine_agendas : cursors.Refines agendas (Segment.agenda (σ := σ)) where
  make := agenda_push []
  push := agenda_push
  take segments := by
    induction segments with
    | nil => rfl
    | cons s rest ih =>
        cases hg : s.goals[s.taken]? with
        | some g =>
            have hmap : Segment.agenda (s :: rest) =
                ⟨(g :: Segment.left ⟨s.goals, s.taken + 1⟩) :: rest.map Segment.left⟩ := by
              rw [Segment.agenda, List.map_cons, Segment.left_of_getElem? hg]
            rw [hmap]
            simp only [cursors, Segment.take, hg]
            rfl
        | none =>
            have hmap : Segment.agenda (s :: rest) = ⟨[] :: rest.map Segment.left⟩ := by
              rw [Segment.agenda, List.map_cons, Segment.left_of_getElem?_none hg]
            have htake : cursors.take (s :: rest) = cursors.take rest := by
              simp only [cursors, Segment.take, hg]
            rw [hmap, htake]
            exact ih

theorem Refines.trans {υ : Type} {k : Keeping σ ρ} {k' : Keeping σ τ} {k'' : Keeping σ υ} {f : ρ → τ} {g : τ → υ}
    (h : k.Refines k' f) (h' : k'.Refines k'' g) : k.Refines k'' (g ∘ f) where
  make goals := by rw [Function.comp_apply, h.make, h'.make]
  push p goals := by rw [Function.comp_apply, h.push, h'.push]; rfl
  take p := by
    have hfirst := h.take p
    have hsecond := h'.take (f p)
    rw [hfirst] at hsecond
    exact hsecond

theorem cursors_refine_lists : cursors.Refines lists (Segment.toList (σ := σ)) :=
  cursors_refine_agendas.trans agendas_refine_lists

/-- What a way to keep goals has to give when it is read as a list. -/
theorem Refines.step {k : Keeping σ ρ} {f : ρ → List (Goal σ)} (h : k.Refines lists f) (p : ρ) :
    ((k.take p).1 = none ↔ f p = []) ∧ ∀ g, (k.take p).1 = some g → f p = g :: f (k.take p).2 := by
  have htake := h.take p
  generalize k.take p = taken at htake
  obtain ⟨goal, rest⟩ := taken
  cases hl : f p with
  | nil =>
      rw [hl] at htake
      obtain ⟨rfl, -⟩ := Prod.mk.inj htake
      exact ⟨iff_of_true rfl rfl, fun g hg => by cases hg⟩
  | cons g goals =>
      rw [hl] at htake
      obtain ⟨rfl, rfl⟩ := Prod.mk.inj htake
      refine ⟨iff_of_false nofun nofun, fun g' hg => ?_⟩
      cases hg
      rfl

end Keeping

/-- What may be asked of programs that are known by number. A new one and a copy take the next number. -/
inductive Demand (σ : Type) where
  | make (goals : List (Goal σ))
  | push (number : Nat) (goals : List (Goal σ))
  | take (number : Nat)
  | copy (number : Nat)

def Demand.Changes : Demand σ → Nat → Prop
  | .push n _, number | .take n, number => n = number
  | .make _, _ | .copy _, _ => False

namespace Keeping

/-- The goal that a demand is answered with, and the programs after it. -/
def serve (k : Keeping σ ρ) (programs : List ρ) : Demand σ → Option (Goal σ) × List ρ
  | .make goals => (none, programs ++ [k.make goals])
  | .push number goals => (none, programs.modify number fun p => k.push p goals)
  | .take number => (programs[number]?.bind fun p => (k.take p).1, programs.modify number fun p => (k.take p).2)
  | .copy number => (none, programs ++ programs[number]?.toList)

def serveAll (k : Keeping σ ρ) (programs : List ρ) : List (Demand σ) → List (Option (Goal σ)) × List ρ
  | [] => ([], programs)
  | demand :: demands =>
    let (goal, programs') := k.serve programs demand
    let (goals, final) := k.serveAll programs' demands
    (goal :: goals, final)

variable {k : Keeping σ ρ} {k' : Keeping σ τ} {f : ρ → τ}

theorem map_modify (programs : List ρ) {g : ρ → ρ} (g' : τ → τ) (h : ∀ p, f (g p) = g' (f p)) (n : Nat) :
    (programs.modify n g).map f = (programs.map f).modify n g' := by
  induction programs generalizing n with
  | nil => rw [List.modify_nil, List.map_nil, List.modify_nil]
  | cons p programs ih =>
      cases n with
      | zero => simp only [List.modify_zero_cons, List.map_cons, h]
      | succ n => simp only [List.modify_succ_cons, List.map_cons, ih]

theorem Refines.serve (h : k.Refines k' f) (programs : List ρ) (demand : Demand σ) :
    k'.serve (programs.map f) demand =
      ((k.serve programs demand).1, (k.serve programs demand).2.map f) := by
  cases demand with
  | make goals => simp only [Keeping.serve, List.map_append, List.map_cons, List.map_nil, h.make]
  | push number goals =>
      simp only [Keeping.serve]
      rw [map_modify programs (fun p => k'.push p goals) (fun p => h.push p goals) number]
  | take number =>
      simp only [Keeping.serve]
      rw [map_modify programs (fun p => (k'.take p).2) (fun p => by rw [h.take p]) number, List.getElem?_map]
      cases programs[number]? with
      | none => rfl
      | some p =>
          rw [Option.map_some, Option.bind_some, Option.bind_some, h.take p]
  | copy number =>
      simp only [Keeping.serve, List.map_append, List.getElem?_map]
      cases programs[number]? <;> rfl

/-- By induction on the demands: what the lists give, the programs give. -/
theorem Refines.serveAll (h : k.Refines k' f) (programs : List ρ) (demands : List (Demand σ)) :
    k'.serveAll (programs.map f) demands =
      ((k.serveAll programs demands).1, (k.serveAll programs demands).2.map f) := by
  induction demands generalizing programs with
  | nil => rfl
  | cons demand demands ih =>
      simp only [Keeping.serveAll]
      rw [h.serve programs demand]
      simp only [ih]

theorem serve_other {programs : List ρ} {demand : Demand σ} {number : Nat} (hn : number < programs.length)
    (h : ¬demand.Changes number) : (k.serve programs demand).2[number]? = programs[number]? := by
  cases demand with
  | make goals => exact List.getElem?_append_left hn
  | push n goals => exact List.getElem?_modify_ne _ _ h
  | take n => exact List.getElem?_modify_ne _ _ h
  | copy n => exact List.getElem?_append_left hn

theorem length_le_serve (programs : List ρ) (demand : Demand σ) :
    programs.length ≤ (k.serve programs demand).2.length := by
  cases demand with
  | make goals => simp [serve]
  | push n goals => simp [serve]
  | take n => simp [serve]
  | copy n => simp [serve]

theorem serveAll_append (programs : List ρ) (before after : List (Demand σ)) :
    (k.serveAll programs (before ++ after)).2 = (k.serveAll (k.serveAll programs before).2 after).2 := by
  induction before generalizing programs with
  | nil => rfl
  | cons demand before ih => exact ih (k.serve programs demand).2

/-- A program stays as it is for as long as nothing is pushed on it or taken from it, whatever is asked of others. -/
theorem serveAll_other {programs : List ρ} {demands : List (Demand σ)} {number : Nat} (hn : number < programs.length)
    (h : ∀ demand ∈ demands, ¬demand.Changes number) :
    (k.serveAll programs demands).2[number]? = programs[number]? := by
  induction demands generalizing programs with
  | nil => rfl
  | cons demand demands ih =>
      have hfirst := serve_other (k := k) hn (h demand List.mem_cons_self)
      have hrest := ih (Nat.lt_of_lt_of_le hn (length_le_serve (k := k) programs demand))
        fun r hr => h r (List.mem_cons_of_mem _ hr)
      exact hrest.trans hfirst

end Keeping

/-- What a branch has left at a depth. In the query's own scope that is the end of a clause's body. In the scope of a
callee it is the end of the callee's body, the goal that closes the scope, and what the caller has left. -/
inductive Source.Leaves (src : Source σ) : Nat → List (Goal σ) → Prop where
  | query {c : Clause σ} {n : Nat} {body left : List (Goal σ)} : src.Offers c → (c.instantiate n).Runs body →
      left <:+ body → src.Leaves 0 left
  | callee {c : Clause σ} {n depth : Nat} {body left outer : List (Goal σ)} : src.Offers c →
      (c.instantiate n).Runs body → left <:+ body → src.Leaves depth outer →
        src.Leaves (depth + 1) (left ++ .closeScope :: outer)

namespace Source

variable {src : Source σ} {actuals : List Actual}

/-- A goal of a body leaves its scope as deep as it was. -/
theorem authored_depth {e e' : Env} {g : Goal σ} (hb : e.Bounded) (hg : g.Authored) (h : (g.step e).Runs (.next e')) :
    e'.depth = e.depth := by
  have hopens : ∀ arguments, g ≠ .openScope arguments := by
    rintro arguments rfl
    exact hg
  have hcloses : closes [g] = closes ([] : List (Goal σ)) := closes_authored (by simpa using hg)
  have hdepth := Resolvent.step_depth hb h hopens []
  rw [hcloses] at hdepth
  exact Nat.add_left_cancel hdepth

theorem Leaves.goal (hsrc : src.Authored) {e e' : Env} {g : Goal σ} {goals : List (Goal σ)} (hb : e.Bounded)
    (h : src.Leaves e.depth (g :: goals)) (hstep : (g.step e).Runs (.next e')) : src.Leaves e'.depth goals := by
  generalize hd : e.depth = depth at h
  generalize hl : g :: goals = left at h
  cases h with
  | @query c n body left hc hbody hsuffix =>
      subst hl
      have hg : g.Authored := hsrc.of_offers hc n body hbody g (hsuffix.mem List.mem_cons_self)
      rw [authored_depth hb hg hstep, hd]
      exact .query hc hbody ((List.suffix_cons g goals).trans hsuffix)
  | @callee c n depth body left outer hc hbody hsuffix houter =>
      cases left with
      | nil =>
          obtain ⟨rfl, rfl⟩ := List.cons.inj hl
          have hdown : e.depth = e'.depth + 1 := Resolvent.closeScope_depth (Goal.step_next hb hstep)
          have hsame : e'.depth = depth := Nat.succ.inj (hdown.symm.trans hd)
          rw [hsame]
          exact houter
      | cons g' left =>
          obtain ⟨rfl, rfl⟩ := List.cons.inj hl
          have hg : g.Authored := hsrc.of_offers hc n body hbody g (hsuffix.mem List.mem_cons_self)
          rw [authored_depth hb hg hstep, hd]
          exact .callee hc hbody ((List.suffix_cons g left).trans hsuffix) houter

theorem Leaves.call {depth : Nat} {name : String} {terms : List (Term σ)} {goals : List (Goal σ)}
    (h : src.Leaves depth (.call name terms :: goals)) : src.Leaves depth goals := by
  generalize hl : Goal.call name terms :: goals = left at h
  cases h with
  | query hc hbody hsuffix =>
      subst hl
      exact .query hc hbody ((List.suffix_cons _ goals).trans hsuffix)
  | @callee c n depth body left outer hc hbody hsuffix houter =>
      cases left with
      | nil => cases (List.cons.inj hl).1
      | cons g left =>
          obtain ⟨rfl, rfl⟩ := List.cons.inj hl
          exact .callee hc hbody ((List.suffix_cons _ left).trans hsuffix) houter

/-- A branch that is about to enter a callee has the whole of its body left. -/
def Nested (src : Source σ) (depth : Nat) (goals : List (Goal σ)) : Prop :=
  src.Leaves depth goals ∨ ∃ arguments left, goals = .openScope arguments :: left ∧ src.Leaves (depth + 1) left

theorem Nested.goal (hsrc : src.Authored) {e e' : Env} {g : Goal σ} {goals : List (Goal σ)} (hb : e.Bounded)
    (h : src.Nested e.depth (g :: goals)) (hstep : (g.step e).Runs (.next e')) : src.Leaves e'.depth goals := by
  rcases h with h | ⟨arguments, left, heq, h⟩
  · exact h.goal hsrc hb hstep
  · obtain ⟨rfl, rfl⟩ := List.cons.inj heq
    have hopen : e' = e.openScope arguments := Goal.step_next hb hstep
    rw [hopen]
    exact h

theorem Nested.call {depth : Nat} {name : String} {terms : List (Term σ)} {goals : List (Goal σ)}
    (h : src.Nested depth (.call name terms :: goals)) : src.Leaves depth goals := by
  rcases h with h | ⟨arguments, left, heq, -⟩
  · exact h.call
  · cases (List.cons.inj heq).1

theorem Reaches.nested (hsrc : src.Authored) {r : Resolvent σ} (h : src.Reaches actuals r) :
    src.Nested r.env.depth r.agenda.toList := by
  induction h with
  | @query c r hc hmatch hruns =>
      obtain ⟨slots, n, body, -, -, -, henc, -, hbody, hagenda⟩ := Resolvent.ofQuery_runs hruns
      have hdepth : r.env.depth = 0 := by rw [Env.depth, henc, List.length_nil]
      rw [hdepth, hagenda]
      exact .inl (.query hc hbody List.suffix_rfl)
  | @goal r g rest e hr hnext hstep ih =>
      rw [Agenda.toList_of_next? hnext] at ih
      exact .inl (ih.goal hsrc (hr.shaped hsrc).sound.bounded hstep)
  | @call r r' stopped c hr hstops hc hmatch hresume ih =>
      obtain ⟨g, hnext, hstep⟩ := hstops
      obtain ⟨⟨terms, rfl⟩, hquiet, -⟩ := Goal.step_call (hr.shaped hsrc).sound.bounded hstep
      obtain ⟨henv, body, hbody, hagenda⟩ := Resolvent.resume_runs hresume
      rw [Agenda.toList_of_next? hnext] at ih
      have hdepth : r'.env.depth = r.env.depth := by
        rw [henv]
        exact hquiet.toInside.depth_eq
      rw [hdepth, hagenda]
      exact .inr ⟨_, _, rfl, .callee hc hbody List.suffix_rfl ih.call⟩

end Source

/-- A call goes on with the callee's body, between the goals that open and close its scope, in front of all that the
caller has left. Only a body that cannot be made is an obstacle. -/
theorem Call.resume_run (c : Call σ) (callee : Clause σ) (w : World σ) :
    match ExceptT.run (callee.instantiate c.env.serial) w with
    | (.error f, w') => ExceptT.run (c.resume callee) w = (.error f, w')
    | (.ok body, w') => ∃ r, ExceptT.run (c.resume callee) w = (.ok r, w') ∧ r.env = c.env.nextSerial.2 ∧
        r.agenda.toList = .openScope (callee.formals.zip c.arguments) :: (body ++ .closeScope :: c.rest.toList) := by
  have hrun : ExceptT.run (c.resume callee) w = _ := Engine.run_bind (callee.instantiate c.env.serial) _ w
  generalize ExceptT.run (callee.instantiate c.env.serial) w = made at hrun
  obtain ⟨result, w'⟩ := made
  cases result with
  | error f => exact hrun
  | ok body =>
      refine ⟨_, hrun, rfl, ?_⟩
      simp only [Agenda.toList_push, List.cons_append, List.nil_append]

/-- Programs are lists of goals, whatever is asked of them and in whatever order; none of them changes when goals are
pushed on others or taken from them; and a branch that enters a callee, at whatever depth, has the callee's body left
between its scope goals, and after it what the caller had. -/
theorem Source.programs_read_as_lists {src : Source σ} (hsrc : src.Authored) (actuals : List Actual) :
    (∀ (segments : List (Segment σ)) (goals : List (Goal σ)),
      Segment.toList (Segment.push segments goals) = goals ++ Segment.toList segments) ∧
    (∀ segments : List (Segment σ), ((Segment.take segments).1 = none ↔ Segment.toList segments = []) ∧
      ∀ g, (Segment.take segments).1 = some g →
        Segment.toList segments = g :: Segment.toList (Segment.take segments).2) ∧
    (∀ demands : List (Demand σ),
      Keeping.agendas.serveAll [] demands = ((Keeping.cursors.serveAll [] demands).1,
        (Keeping.cursors.serveAll [] demands).2.map Segment.agenda) ∧
      Keeping.lists.serveAll [] demands = ((Keeping.cursors.serveAll [] demands).1,
        (Keeping.cursors.serveAll [] demands).2.map Segment.toList)) ∧
    (∀ (before after : List (Demand σ)) (number : Nat), number < (Keeping.cursors.serveAll [] before).2.length →
      (∀ demand ∈ after, ¬demand.Changes number) →
        (Keeping.cursors.serveAll [] (before ++ after)).2[number]? =
          (Keeping.cursors.serveAll [] before).2[number]?) ∧
    (∀ (c : Call σ) (callee : Clause σ) (w : World σ),
      match ExceptT.run (callee.instantiate c.env.serial) w with
      | (.error f, w') => ExceptT.run (c.resume callee) w = (.error f, w')
      | (.ok body, w') => ∃ r, ExceptT.run (c.resume callee) w = (.ok r, w') ∧ r.env = c.env.nextSerial.2 ∧
          r.agenda.toList = .openScope (callee.formals.zip c.arguments) :: (body ++ .closeScope :: c.rest.toList)) ∧
    (∀ r : Resolvent σ, src.Reaches actuals r → src.Nested r.env.depth r.agenda.toList) ∧
    ∀ (r : Resolvent σ) (stopped : Call σ), src.Reaches actuals r → r.StopsAt stopped →
      (∃ terms, r.agenda.toList = .call stopped.name terms :: stopped.rest.toList) ∧
        stopped.env.depth = r.env.depth ∧ src.Leaves r.env.depth stopped.rest.toList := by
  refine ⟨Keeping.cursors_refine_lists.push, Keeping.cursors_refine_lists.step, ?_, ?_, Call.resume_run,
    fun r hr => hr.nested hsrc, ?_⟩
  · exact fun demands => ⟨Keeping.cursors_refine_agendas.serveAll [] demands,
      Keeping.cursors_refine_lists.serveAll [] demands⟩
  · intro before after number hnumber hafter
    rw [Keeping.serveAll_append]
    exact Keeping.serveAll_other hnumber hafter
  · rintro r stopped hr ⟨g, hnext, hstep⟩
    obtain ⟨⟨terms, rfl⟩, hquiet, -⟩ := Goal.step_call (hr.shaped hsrc).sound.bounded hstep
    have hnested := hr.nested hsrc
    rw [Agenda.toList_of_next? hnext] at hnested
    exact ⟨⟨terms, Agenda.toList_of_next? hnext⟩, hquiet.toInside.depth_eq, hnested.call⟩

/-- A clause that calls itself before all else. -/
def walk : Clause Unit where
  name := "walk"
  formals := []
  body := .fixed [.call "walk" []]
  name_ne := by decide
  distinct := List.nodup_nil

def walks : Database Unit := ⟨[walk]⟩

def bare (serial : Nat) : Env := ⟨.empty, ⟨[], [], ⟨0, 0⟩⟩, [], serial⟩

/-- Three calls deep. -/
theorem walk_nests : walks.source.Authored ∧ ∃ (r : Resolvent Unit) (stopped : Call Unit) (r' : Resolvent Unit),
    walks.source.Reaches [] r ∧ r.env.depth = 1 ∧ r.StopsAt stopped ∧
      walks.source.Leaves 1 stopped.rest.toList ∧ (stopped.resume walk).Runs r' ∧
        r'.agenda.toList = [.openScope [], .call "walk" [], .closeScope, .closeScope] := by
  have hauthored : walks.source.Authored := by
    apply Database.source_authored
    intro c hc
    rw [List.mem_singleton.mp hc]
    exact Clause.authored_of_fixed rfl (by simp [Goal.Authored])
  have hoffers : walks.source.Offers walk := ⟨"walk", false, (), _, rfl, by simp [walks, Database.named, walk]⟩
  have hquery : walks.source.Reaches [] ⟨bare 1, .ofList [.call "walk" []]⟩ :=
    .query hoffers (by decide) ⟨World.start (), _, rfl⟩
  have hfirst : Resolvent.StopsAt ⟨bare 1, .ofList [.call "walk" []]⟩ ⟨"walk", [], bare 1, ⟨[[]]⟩⟩ :=
    ⟨_, rfl, World.start (), _, rfl⟩
  have hcall : walks.source.Reaches [] ⟨bare 2, ⟨[[.openScope []], [.call "walk" []], [.closeScope], []]⟩⟩ :=
    .call hquery hfirst hoffers (by decide) ⟨World.start (), _, rfl⟩
  have hopened : walks.source.Reaches []
      ⟨(bare 2).openScope [], ⟨[[], [.call "walk" []], [.closeScope], []]⟩⟩ :=
    .goal hcall rfl ⟨World.start (), _, rfl⟩
  have hstops : Resolvent.StopsAt ⟨(bare 2).openScope [], ⟨[[], [.call "walk" []], [.closeScope], []]⟩⟩
      ⟨"walk", [], (bare 2).openScope [], ⟨[[], [.closeScope], []]⟩⟩ :=
    ⟨_, rfl, World.start (), _, rfl⟩
  obtain ⟨-, -, -, -, -, -, hdeep⟩ := Source.programs_read_as_lists hauthored []
  exact ⟨hauthored, _, _, _, hopened, rfl, hstops, (hdeep _ _ hopened hstops).2.2, ⟨World.start (), _, rfl⟩, rfl⟩

end Clausal
