import Clausal.Proofs.Deeds

/-! Cancellation. Main statement: after the moment at which its token is cancelled, a search does nothing more. The
branch that was running ends as it would have ended anyway, one failure is yielded in place of everything else, and
that is all. Nothing is asked of the source. -/
namespace Clausal

variable {σ : Type}

namespace Search

variable {s s' : Search σ} {w w' : World σ}

theorem next_add (turns more : Nat) (s : Search σ) (w : World σ) : next (turns + more) s w =
    match next turns s w with
    | ((.unfinished, s'), w') => next more s' w'
    | done => done := by
  induction turns generalizing s w with
  | zero => rw [Nat.zero_add, Search.next]
  | succ turns ih =>
      rw [Nat.add_right_comm, Search.next, Search.next]
      by_cases hdone : s.done = true
      · rw [if_pos hdone, if_pos hdone]
      rw [if_neg hdone, if_neg hdone]
      rcases s.turn w with ⟨⟨t, s₁⟩, w₁⟩
      cases t with
      | running => exact ih s₁ w₁
      | answered a => rfl
      | exhausted => rfl
      | stopped f =>
          cases f with
          | error e => rfl
          | crash c => rfl

theorem next_of_cancelled (hs : s.done = false) (ht : s.token ∈ w.cancelled) (turns : Nat) :
    next (turns + 1) s w = ((.failed .cancelled, s.close), w.record (.event (.aborted s.query .cancelled))) := by
  have hturn : s.turn w = ((.stopped (.error .cancelled), s), w) := by rw [Search.turn, if_pos ht]
  rw [Search.next, hs, hturn]
  rfl

/-- A call in which the token is cancelled takes at most one more turn. -/
theorem next_finishes (turns : Nat) (s : Search σ) (w : World σ) (ht : s.token ∈ (next turns s w).2.cancelled) :
    (next (turns + 1) s w).1.1 ≠ .unfinished := by
  rw [next_add]
  rcases hnext : next turns s w with ⟨⟨item, s'⟩, w'⟩
  rw [hnext] at ht
  cases hdone : s.done with
  | true =>
      cases turns with
      | zero =>
          cases hnext
          simp [Search.next, hdone]
      | succ turns =>
          rw [Search.next, if_pos hdone] at hnext
          cases hnext
          simp
  | false =>
      obtain ⟨hpasses, hlast⟩ := next_passes hdone hnext
      cases item with
      | unfinished =>
          have ht' : s'.token ∈ w'.cancelled := by rwa [hpasses.token_eq]
          simp only [next_of_cancelled hlast ht' 0]
          simp
      | answer a => simp
      | failed e => simp
      | crashed c => simp
      | ended => simp

/-- Calls of `next` one after the other, each with turns enough to yield an item, and between them anything that takes
no cancellation back. -/
inductive Session : Search σ → World σ → List (Happening σ) → Search σ → World σ → Prop where
  | nil {s : Search σ} {w : World σ} : Session s w [] s w
  | outside {s s' : Search σ} {w w₁ w' : World σ} {log : List (Happening σ)} : w.cancelled ⊆ w₁.cancelled →
      Session s w₁ log s' w' → Session s w (.outside w₁ :: log) s' w'
  | call {s s₁ s' : Search σ} {w w₁ w' : World σ} (turns : Nat) {item : Item} {log : List (Happening σ)} :
      next turns s w = ((item, s₁), w₁) → item ≠ .unfinished → Session s₁ w₁ log s' w' →
        Session s w ((deeds turns s w).map .deed ++ .yielded item :: log) s' w'

end Search

def yields (log : List (Happening σ)) : List Item :=
  log.filterMap fun
    | .yielded item => some item
    | .outside _ | .deed _ => none

/-- The search has been over in this log. -/
def Over (log : List (Happening σ)) : Prop := ∃ item ∈ yields log, item.isLast = true

@[simp] theorem yields_nil : yields ([] : List (Happening σ)) = [] := rfl

@[simp] theorem yields_outside (w : World σ) (log : List (Happening σ)) : yields (.outside w :: log) = yields log := rfl

@[simp] theorem yields_yielded (item : Item) (log : List (Happening σ)) :
    yields (.yielded item :: log) = item :: yields log := rfl

@[simp] theorem yields_deeds (ds : List (Deed σ)) (log : List (Happening σ)) :
    yields (ds.map .deed ++ log) = yields log := by
  induction ds with
  | nil => rfl
  | cons d ds ih => exact ih

/-- What a search has to yield when it has not been over and this has cancelled it: the item of the branch that was
running, if it has one, and the cancellation, unless that item was an error itself. -/
def Happening.finale : Happening σ → List Item
  | .deed d =>
    match d.item? with
    | some item => if item.isLast then [item] else [item, .failed .cancelled]
    | none => [.failed .cancelled]
  | .outside _ | .yielded _ => [.failed .cancelled]

/-- After a cancellation no clause is run and nothing is looked up. A search that was over stays so, and any other one
yields its finale and nothing more. -/
structure Happening.Last (x : Happening σ) (pre post : List (Happening σ)) : Prop where
  no_deed : ∀ d, .deed d ∉ post
  when_over : Over pre → ∀ item ∈ yields post, item = .ended
  finale : ¬Over pre → ∃ n, yields post <+: x.finale ++ List.replicate n .ended

theorem split_call {ds : List (Deed σ)} {item : Item} {log pre post : List (Happening σ)} {x : Happening σ}
    (h : ds.map .deed ++ .yielded item :: log = pre ++ x :: post) :
    (∃ ds₁ d ds₂, ds = ds₁ ++ d :: ds₂ ∧ pre = ds₁.map .deed ∧ x = .deed d ∧
      post = ds₂.map .deed ++ .yielded item :: log) ∨
    x = .yielded item ∨ ∃ pre', pre = ds.map .deed ++ .yielded item :: pre' ∧ log = pre' ++ x :: post := by
  induction ds generalizing pre with
  | nil =>
      cases pre with
      | nil => exact .inr (.inl (List.cons.inj h).1.symm)
      | cons y pre =>
          obtain ⟨rfl, hlog⟩ := List.cons.inj h
          exact .inr (.inr ⟨pre, rfl, hlog⟩)
  | cons d ds ih =>
      cases pre with
      | nil =>
          obtain ⟨rfl, rfl⟩ := List.cons.inj h
          exact .inl ⟨[], d, ds, rfl, rfl, rfl, rfl⟩
      | cons y pre =>
          obtain ⟨rfl, htail⟩ := List.cons.inj h
          rcases ih htail with ⟨ds₁, d', ds₂, rfl, rfl, rfl, rfl⟩ | hx | ⟨pre', rfl, hlog⟩
          · exact .inl ⟨d :: ds₁, d', ds₂, rfl, rfl, rfl, rfl⟩
          · exact .inr (.inl hx)
          · exact .inr (.inr ⟨pre', rfl, hlog⟩)

namespace Search

variable {s s' s₁ : Search σ} {w w' w₁ : World σ} {log : List (Happening σ)}

theorem next_of_done (hs : s.done = true) {turns : Nat} {item : Item} (h : next turns s w = ((item, s₁), w₁))
    (hne : item ≠ .unfinished) : item = .ended ∧ s₁ = s ∧ w₁ = w ∧ deeds turns s w = [] := by
  cases turns with
  | zero =>
      cases h
      exact absurd rfl hne
  | succ turns =>
      rw [Search.next, if_pos hs] at h
      cases h
      exact ⟨rfl, rfl, rfl, by rw [deeds, if_pos hs]⟩

namespace Session

theorem linked (h : Session s w log s' w') : Linked s.token w log w' := by
  induction h with
  | nil => exact .nil (.refl _)
  | outside hsub _ ih => exact .outside hsub ih
  | @call s s₁ s' w w₁ w' turns item log hnext hne _ ih =>
      cases hs : s.done with
      | true =>
          obtain ⟨-, rfl, rfl, hdeeds⟩ := next_of_done hs hnext hne
          rw [hdeeds]
          exact .yielded ih
      | false =>
          obtain ⟨hpasses, -⟩ := next_passes hs hnext
          rw [hpasses.token_eq] at ih
          exact hpasses.linked.append (.yielded ih)

theorem token_eq (h : Session s w log s' w') : s'.token = s.token := by
  induction h with
  | nil => rfl
  | outside _ _ ih => exact ih
  | @call s s₁ s' w w₁ w' turns item log hnext hne _ ih =>
      cases hs : s.done with
      | true => rw [ih, (next_of_done hs hnext hne).2.1]
      | false => rw [ih, (next_passes hs hnext).1.token_eq]

theorem ended_of_done (h : Session s w log s' w') (hs : s.done = true) : ∀ item ∈ yields log, item = .ended := by
  induction h with
  | nil => exact fun _ h => absurd h List.not_mem_nil
  | outside _ _ ih => exact ih hs
  | call turns hnext hne _ ih =>
      obtain ⟨rfl, rfl, -⟩ := next_of_done hs hnext hne
      intro item hmem
      rw [yields_deeds, yields_yielded] at hmem
      rcases List.mem_cons.mp hmem with rfl | hmem
      · rfl
      · exact ih hs item hmem

theorem over_eq (h : Session s w log s' w') (hs : s.done = true) :
    yields log = List.replicate (yields log).length .ended :=
  List.eq_replicate_of_mem (h.ended_of_done hs)

theorem cancelled (h : Session s w log s' w') (hs : s.done = false) (ht : s.token ∈ w.cancelled) :
    ∃ n, yields log <+: .failed .cancelled :: List.replicate n .ended := by
  induction h with
  | nil => exact ⟨0, List.nil_prefix⟩
  | outside hsub _ ih => exact ih hs (hsub ht)
  | @call s s₁ s' w w₁ w' turns item log hnext hne hrest ih =>
      cases turns with
      | zero =>
          cases hnext
          exact absurd rfl hne
      | succ turns =>
          rw [next_of_cancelled hs ht] at hnext
          cases hnext
          refine ⟨(yields log).length, [], ?_⟩
          rw [List.append_nil, yields_deeds, yields_yielded]
          exact congrArg (_ :: ·) (hrest.over_eq rfl)

/-- The token is cancelled in a deed of a call. That deed is the last, and the call yields its item or the
cancellation. -/
theorem cancelled_in_call {turns : Nat} {item : Item} (hnext : next turns s w = ((item, s₁), w₁))
    (hne : item ≠ .unfinished) (hrest : Session s₁ w₁ log s' w') (hs : s.done = false) {ds₁ ds₂ : List (Deed σ)}
    {d : Deed σ} (hds : deeds turns s w = ds₁ ++ d :: ds₂) (ht : s.token ∈ d.after.cancelled) :
    ∃ n, item :: yields log <+: (Happening.deed d).finale ++ List.replicate n .ended := by
  obtain ⟨hpasses, hdone⟩ := next_passes hs hnext
  have hlinked := hpasses.linked
  have hreports := hpasses.reports
  rw [hds] at hlinked hreports
  rw [List.map_append, List.map_cons] at hlinked
  obtain ⟨v, hv, hafter⟩ := hlinked.after_cancels (x := .deed d) ht
  obtain rfl := hafter.eq_nil hv
  have ht₁ : s₁.token ∈ w₁.cancelled := by
    rw [hpasses.token_eq]
    exact hafter.subset_cancelled hv
  have hlast (hover : s₁.done = true) (hfinale : (Happening.deed d).finale = [item]) :
      ∃ n, item :: yields log <+: (Happening.deed d).finale ++ List.replicate n .ended := by
    refine ⟨(yields log).length, [], ?_⟩
    rw [List.append_nil, hfinale]
    exact congrArg (item :: ·) (hrest.over_eq hover)
  have hmore (hopen : s₁.done = false) (hfinale : (Happening.deed d).finale = [item, .failed .cancelled]) :
      ∃ n, item :: yields log <+: (Happening.deed d).finale ++ List.replicate n .ended := by
    obtain ⟨n, hn⟩ := hrest.cancelled hopen ht₁
    rw [hfinale]
    exact ⟨n, (List.prefix_cons_inj item).mpr hn⟩
  rw [Item.shown?_of_ne hne] at hreports
  generalize hds' : ds₁ ++ [d] = ds at hreports
  cases hreports with
  | ended _ hnot => exact absurd ht₁ (hpasses.token_eq ▸ hnot)
  | cancelled hsilent =>
      have hitem : d.item? = none := hsilent d (hds' ▸ List.mem_append_right ds₁ List.mem_cons_self)
      exact hlast hdone (by rw [Happening.finale, hitem])
  | own _ hitem =>
      obtain ⟨-, hd⟩ := List.append_inj' hds' rfl
      obtain rfl := (List.cons.inj hd).1
      have hfinale : (Happening.deed d).finale = if item.isLast then [item] else [item, .failed .cancelled] := by
        rw [Happening.finale, hitem]
      cases hl : item.isLast with
      | true => exact hlast (hdone.trans hl) (by rw [hfinale, hl]; rfl)
      | false => exact hmore (hdone.trans hl) (by rw [hfinale, hl]; rfl)

theorem yields_after (h : Session s w log s' w') {pre post : List (Happening σ)} {x : Happening σ}
    (hlog : log = pre ++ x :: post) (hx : x.Cancels s.token) :
    (s.done = true ∨ Over pre → ∀ item ∈ yields post, item = .ended) ∧
      (s.done = false → ¬Over pre → ∃ n, yields post <+: x.finale ++ List.replicate n .ended) := by
  induction h generalizing pre with
  | nil => simp at hlog
  | outside hsub hrest ih =>
      cases pre with
      | nil =>
          obtain ⟨rfl, rfl⟩ := List.cons.inj hlog
          refine ⟨fun hover => ?_, fun hs _ => hrest.cancelled hs hx⟩
          rcases hover with hs | ⟨item, hitem, -⟩
          · exact hrest.ended_of_done hs
          · exact absurd hitem List.not_mem_nil
      | cons y pre =>
          obtain ⟨rfl, htail⟩ := List.cons.inj hlog
          have hafter := ih htail hx
          exact hafter
  | @call s s₁ s' w w₁ w' turns item log hnext hne hrest ih =>
      rcases split_call hlog with ⟨ds₁, d, ds₂, hds, rfl, rfl, rfl⟩ | rfl | ⟨pre', rfl, hrest'⟩
      · have hs : s.done = false := by
          cases hs : s.done with
          | false => rfl
          | true =>
              obtain ⟨-, -, -, hnone⟩ := next_of_done hs hnext hne
              rw [hnone] at hds
              simp at hds
        refine ⟨fun hover => ?_, fun _ _ => ?_⟩
        · rcases hover with hs' | ⟨item, hitem, -⟩
          · rw [hs] at hs'
            cases hs'
          · rw [← List.append_nil (ds₁.map Happening.deed), yields_deeds] at hitem
            exact absurd hitem List.not_mem_nil
        · rw [yields_deeds, yields_yielded]
          exact cancelled_in_call hnext hne hrest hs hds hx
      · exact hx.elim
      · have hover : Over (((deeds turns s w).map Happening.deed) ++ .yielded item :: pre') ↔
            item.isLast = true ∨ Over pre' := by
          unfold Over
          rw [yields_deeds, yields_yielded]
          simp
        rw [hover]
        cases hs : s.done with
        | true =>
            obtain ⟨-, rfl, -⟩ := next_of_done hs hnext hne
            exact ⟨fun _ => (ih hrest' hx).1 (.inl hs), fun h => by cases h⟩
        | false =>
            obtain ⟨hpasses, hdone⟩ := next_passes hs hnext
            obtain ⟨hended, hfinale⟩ := ih hrest' (hpasses.token_eq ▸ hx)
            rw [hdone] at hended hfinale
            refine ⟨fun h => hended (h.resolve_left Bool.false_ne_true), fun _ hnot => ?_⟩
            obtain ⟨hopen, hpre⟩ := not_or.mp hnot
            exact hfinale (Bool.eq_false_iff.mpr hopen) hpre

end Session

end Search

/-- With the token cancelled a database refuses every lookup. -/
theorem Database.clauses_of_cancelled (d : Database σ) (name : String) {t : Token} {w : World σ}
    (ht : t ∈ w.cancelled) : ExceptT.run (d.source.clauses name t) w = (.error (.error .cancelled), w) := by
  rw [Source.clauses, Engine.bind_of_ok (Engine.run_isCancelled t w), decide_eq_true ht]
  rfl

/-- Whenever the token of a search is cancelled, before the first call, between two calls, or in a lookup or a branch,
nothing is looked up or run any more; the search yields the finale of that moment, or nothing more if it was over; a
call takes no more than one further turn; and no database answers a lookup. -/
theorem Search.cancelled_for_good {src : Source σ} {name : String} {actuals : List Actual} {t : Token}
    {s s' : Search σ} (hstart : start src name actuals t = .ok s) {w w' : World σ} {log : List (Happening σ)}
    (h : Session s w log s' w') :
    Linked t w log w' ∧
      (∀ pre x post, .outside w :: log = pre ++ x :: post → x.Cancels t → x.Last pre post) ∧
      (∀ turns, t ∈ (next turns s' w').2.cancelled → (next (turns + 1) s' w').1.1 ≠ .unfinished) ∧
      ∀ (d : Database σ) n v, t ∈ v.cancelled →
        ExceptT.run (d.source.clauses n t) v = (.error (.error .cancelled), v) := by
  unfold start at hstart
  split at hstart
  · cases hstart
  cases hstart
  have hsession : Session _ w (.outside w :: log) s' w' := .outside (List.Subset.refl _) h
  refine ⟨h.linked, fun pre x post hlog hx => ⟨?_, ?_, ?_⟩, fun turns ht => ?_, fun d n v ht => ?_⟩
  · obtain ⟨v, hv, hafter⟩ := (hlog ▸ hsession.linked).after_cancels hx
    exact fun d => hafter.no_deed hv d
  · exact fun hover => (hsession.yields_after hlog hx).1 (.inr hover)
  · exact fun hopen => (hsession.yields_after hlog hx).2 rfl hopen
  · exact next_finishes turns s' w' (h.token_eq ▸ ht)
  · exact d.clauses_of_cancelled n ht

/-- The first clause cancels the query that runs it and then completes. The second is never run. -/
def retracting : Database Unit where
  clauses :=
    [⟨"grab", [⟨0, "g", .int⟩],
      .fixed [.action fun _ => .signal (.ok ()) [.cancel "t"], .bind (.formal ⟨0, "g", .int⟩) (.literal (.int 1))],
      by decide, by decide⟩,
     ⟨"grab", [⟨1, "h", .int⟩], .fixed [.bind (.formal ⟨1, "h", .int⟩) (.literal (.int 2))], by decide, by decide⟩]

/-- Three calls yield the answer of the branch that has cancelled the search, the cancellation, and the end. -/
theorem retracting_cancels_itself : ∃ s s' w' pre d post a,
    Search.start retracting.source "grab" [.output (.shared 0) none .int none] "t" = .ok s ∧
      Search.Session s (World.start ()) (pre ++ .deed d :: post) s' w' ∧ "t" ∉ d.before.cancelled ∧
        yields post = [.answer a, .failed .cancelled, .ended] ∧ (∀ d', .deed d' ∉ post) ∧
          a.entries.map Answer.Entry.value = [some (.int 1)] := by
  let s₀ : Search Unit :=
    ⟨retracting.source, "grab", "t", [.query "grab" [.output (.shared 0) none .int none]], none, false⟩
  let a : Answer := ⟨[⟨.output (.shared 0) none .int none, .int, some (.int 1), []⟩]⟩
  have hitem : (Search.next 10 s₀ (World.start ())).1.1 = .answer a := by decide +kernel
  have hcancelled : "t" ∈ (Search.next 10 s₀ (World.start ())).2.cancelled := by decide +kernel
  have hlength : (Search.deeds 10 s₀ (World.start ())).length = 2 := by decide +kernel
  rcases hnext : Search.next 10 s₀ (World.start ()) with ⟨⟨item, s₁⟩, w₁⟩
  rw [hnext] at hitem hcancelled
  change item = .answer a at hitem
  subst hitem
  obtain ⟨hpasses, hopen⟩ := Search.next_passes rfl hnext
  have ht : s₁.token ∈ w₁.cancelled := by
    rw [hpasses.token_eq]
    exact hcancelled
  have hsession : Search.Session s₀ _ _ _ _ := .call 10 hnext (by simp)
    (.call 1 (Search.next_of_cancelled hopen ht 0) (by simp)
      (.call 1 (show Search.next 1 s₁.close _ = _ from rfl) (by simp) .nil))
  obtain ⟨d₁, d₂, hdeeds⟩ := List.length_eq_two.mp hlength
  have hlinked := hpasses.linked
  rw [hdeeds] at hlinked hsession
  cases hlinked with
  | deed _ _ hlinked =>
  cases hlinked with
  | deed _ hbefore hlinked =>
  cases hlinked with
  | nil halike =>
  have hcancels : (Happening.deed d₂).Cancels "t" := by
    rw [hpasses.token_eq, halike.2] at ht
    exact ht
  have hstart : Search.start retracting.source "grab" [.output (.shared 0) none .int none] "t" = .ok s₀ := rfl
  have hlast := (Search.cancelled_for_good hstart hsession).2.1
  have hend := hlast [.outside (World.start ()), .deed d₁] (.deed d₂) _ rfl hcancels
  exact ⟨s₀, _, _, [.deed d₁], d₂, _, a, hstart, hsession, hbefore, by simp, hend.no_deed, rfl⟩

end Clausal
