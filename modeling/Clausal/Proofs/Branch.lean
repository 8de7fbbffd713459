import Clausal.Proofs.Purity

/-! How a pure branch runs. In every world it comes to one outcome, which can therefore be computed
in a world of its own. Main statements: the outcome goal by goal, and that it depends on the agenda
only through the list of its goals. -/
namespace Clausal

variable {σ : Type}

namespace Agenda

theorem next?_of_nil {a : Agenda σ} (h : a.toList = []) : a.next? = none := by
  cases hn : a.next? with
  | none => rfl
  | some p =>
      have hl := toList_of_next? hn
      rw [h] at hl
      cases hl

theorem next?_of_cons {a : Agenda σ} {g : Goal σ} {goals : List (Goal σ)} (h : a.toList = g :: goals) :
    ∃ b, a.next? = some (g, b) ∧ b.toList = goals := by
  cases hn : a.next? with
  | none =>
      have key := nextIn_toList a.segments
      rw [show nextIn a.segments = none from hn, show a.segments.flatten = g :: goals from h] at key
      cases key
  | some p =>
      have hl := toList_of_next? hn
      rw [h] at hl
      cases hl
      exact ⟨p.2, rfl, rfl⟩

theorem toList_ofList (goals : List (Goal σ)) : (ofList goals).toList = goals := by
  rw [ofList, toList_push]
  exact List.append_nil goals

end Agenda

namespace Resolvent

theorem solve_nil {a : Agenda σ} (h : a.toList = []) (e : Env) : solve e a = pure (.complete e) := by
  rw [solve]
  split
  · rfl
  · rename_i hn
    rw [Agenda.next?_of_nil h] at hn
    cases hn

def proceed (rest : Agenda σ) : Step → Engine σ (Outcome σ)
  | .next e => solve e rest
  | .failed => return .failed
  | .call name arguments e => return .suspended ⟨name, arguments, e, rest⟩

theorem solve_cons {a rest : Agenda σ} {g : Goal σ} (h : a.next? = some (g, rest)) (e : Env) :
    solve e a = Engine.emit (.evaluating e.depth g.text) >>= fun _ => g.step e >>= proceed rest := by
  rw [solve]
  split
  · rename_i hn
    rw [h] at hn
    cases hn
  · rename_i g' rest' hn
    rw [h] at hn
    cases hn
    refine congrArg _ (funext fun _ => congrArg _ (funext fun s => ?_))
    cases s <;> rfl

end Resolvent

/-- What a branch stopped at a call still has to do is pure. -/
def Outcome.Pure : Outcome σ → Prop
  | .suspended c => c.rest.Pure
  | .complete _ | .failed => True

def Pending.Pure : Pending σ → Prop
  | .call c => c.rest.Pure
  | .query _ _ => True

theorem Resolvent.solve_settled {a : Agenda σ} (ha : a.Pure) (e : Env) :
    (solve e a).Settled Outcome.Pure := by
  induction hl : a.toList generalizing a e with
  | nil =>
      rw [solve_nil hl]
      exact Engine.settled_pure trivial
  | cons g goals ih =>
      obtain ⟨rest, hn, hrest⟩ := Agenda.next?_of_cons hl
      have hg : g.Pure := ha g (hl ▸ List.mem_cons_self)
      have hp : rest.Pure := fun g' h' => ha g' (hl ▸ List.mem_cons_of_mem g (hrest ▸ h'))
      rw [solve_cons hn]
      refine (Engine.settled_emit _).bind fun _ _ => (Goal.step_settled hg e).bind fun s _ => ?_
      cases s with
      | next e' => exact ih hp e' hrest
      | failed => exact Engine.settled_pure trivial
      | call name arguments e' => exact Engine.settled_pure hp

theorem Agenda.pure_push {a : Agenda σ} (ha : a.Pure) {goals : List (Goal σ)}
    (hg : ∀ g ∈ goals, g.Pure) : (a.push goals).Pure := by
  intro g h
  rw [toList_push] at h
  rcases List.mem_append.mp h with h | h
  · exact hg g h
  · exact ha g h

theorem Call.resume_settled {call : Call σ} (hr : call.rest.Pure) {c : Clause σ} (hc : c.Pure) :
    (call.resume c).Settled fun r => r.agenda.Pure := by
  refine (Clause.instantiate_settled hc _).bind fun body hb => Engine.settled_pure ?_
  have hclose : (call.rest.push [.closeScope]).Pure := Agenda.pure_push hr (by simp [Goal.Pure])
  exact Agenda.pure_push (Agenda.pure_push hclose hb) (by simp [Goal.Pure])

theorem Resolvent.ofQuery_settled {c : Clause σ} (hc : c.Pure) (actuals : List Actual) :
    (ofQuery c actuals).Settled fun r => r.agenda.Pure := by
  refine (Engine.settled_lift _).bind fun e _ => ?_
  refine (Clause.instantiate_settled hc _).bind fun body hb => Engine.settled_pure ?_
  intro g hg
  rw [Agenda.toList_ofList] at hg
  exact hb g hg

theorem Pending.solve_settled {p : Pending σ} (hp : p.Pure) {c : Clause σ} (hc : c.Pure) :
    (p.solve c).Settled Outcome.Pure := by
  refine Engine.Settled.bind (P := fun r => r.agenda.Pure) ?_ fun r hr => Resolvent.solve_settled hr r.env
  cases p with
  | query name actuals => exact Resolvent.ofQuery_settled hc actuals
  | call call => exact Call.resume_settled hp hc

namespace Engine

variable {α : Type}

/-- The result in a world of its own that has nothing but the host's state. -/
def result (x : Engine σ α) (host : σ) : Except Failure α := (ExceptT.run x (World.start host)).1

def hostAfter (x : Engine σ α) (host : σ) : σ := (ExceptT.run x (World.start host)).2.host

theorem Settles.result_eq {x : Engine σ α} {r : Except Error α} {f : σ → σ} (h : x.Settles r f)
    (host : σ) : x.result host = Failure.lift r := (h (World.start host)).1

/-- A settled computation has the result of its own world in every other one too. -/
theorem Settled.run_eq {x : Engine σ α} {P : α → Prop} (h : x.Settled P) (host : σ) (w : World σ) :
    (ExceptT.run x w).1 = x.result host ∧ (ExceptT.run x w).2.host = x.hostAfter w.host ∧
      (ExceptT.run x w).2.cancelled = w.cancelled := by
  obtain ⟨r, f, hr, -⟩ := h
  obtain ⟨h1, h2, h3⟩ := hr w
  exact ⟨h1.trans (hr.result_eq host).symm, h2.trans (hr (World.start w.host)).2.1.symm, h3⟩

theorem Settled.result_ok {x : Engine σ α} {P : α → Prop} (h : x.Settled P) {host : σ} {a : α}
    (ha : x.result host = .ok a) : P a := by
  obtain ⟨r, f, hr, hP⟩ := h
  rw [hr.result_eq] at ha
  cases r with
  | error e => cases ha
  | ok b => exact hP a (congrArg Except.ok (Except.ok.inj ha))

/-- Nothing crashes in a settled computation. -/
theorem Settled.no_crash {x : Engine σ α} {P : α → Prop} (h : x.Settled P) {host : σ} (c : Crash) :
    x.result host ≠ .error (.crash c) := by
  obtain ⟨r, f, hr, -⟩ := h
  rw [hr.result_eq]
  intro h
  cases r with
  | error e => cases h
  | ok a => cases h

end Engine
end Clausal
