import Clausal.Proofs.Footprint
import Clausal.Proofs.Sights

/-! Noninterference. A callee sees nothing of its caller but what the arguments of the call reach. Main statement:
from two calls that pass the same parameters, and whose arguments reach classes of cells that correspond, a clause
with pure callbacks comes to the same, and its callbacks are shown the same, whatever else the callers hold. -/
namespace Clausal

variable {σ τ υ : Type}

namespace Call

variable {F F' : Call σ} {β : Nat → Nat}

/-- Two calls pass the same parameters, and there is an embedding of the classes that the arguments of the one reach
into those of the other, which keeps the order of the cells, the representatives, and what these hold. -/
structure Mirrors (F F' : Call σ) (β : Nat → Nat) : Prop where
  arguments : F'.arguments = F.arguments.map (Slot.move β)
  mono : StrictMonoOn β {c | F.Reaches c}
  find : ∀ c, F.Reaches c → F'.env.store.find (β c) = β (F.env.store.find c)
  ty : ∀ c, F.Reaches c → F'.env.store.ty (β c) = F.env.store.ty c
  value : ∀ c, F.Reaches c → F'.env.store.value (β c) = F.env.store.value c
  aliases : ∀ c, F.Reaches c → F'.env.store.aliases (β c) = F.env.store.aliases c

/-- The call by itself. Nothing is left to do after it, and fresh identities are numbered from here on. -/
def alone (τ : Type) (c : Call σ) (serial : Nat) : Call τ where
  name := c.name
  arguments := c.arguments
  env := { c.env with serial := serial }
  rest := .empty

/-- Runs a clause for the call, until its scope has been closed. Nested calls are answered by these clauses in turn. -/
def evaluate (c : Call σ) (serial : Nat) (callee : Clause τ) (choices : List (Clause τ)) : Engine τ (Outcome τ) := do
  (← (c.alone τ serial).resume callee).follow choices

/-- What the callbacks are shown meanwhile, in order. -/
def sights (c : Call σ) (serial : Nat) (callee : Clause σ) (choices : List (Clause σ)) (w : World σ) : List Sight :=
  (ExceptT.run (c.evaluate serial callee.noting (choices.map Clause.noting))
    ⟨(w.host, []), w.cancelled, w.journal⟩).2.host.2

/-- What the arguments of the first call reach is the same in both environments, and the same cells are equal. -/
structure Corresponds (F : Call σ) (β : Nat → Nat) (e e' : Env) : Prop where
  ty : ∀ c, F.Reaches c → e'.store.ty (β c) = e.store.ty c
  value : ∀ c, F.Reaches c → e'.store.value (β c) = e.store.value c
  aliases : ∀ c, F.Reaches c → e'.store.aliases (β c) = e.store.aliases c
  equal : ∀ c d, F.Reaches c → F.Reaches d →
    (e'.store.find (β c) = e'.store.find (β d) ↔ e.store.find c = e.store.find d)

/-- Outcomes that the callees cannot tell apart. -/
inductive Alike (F : Call σ) (β : Nat → Nat) : Outcome τ → Outcome υ → Prop where
  | complete {e e' : Env} : F.Corresponds β e e' → Alike F β (.complete e) (.complete e')
  | failed : Alike F β .failed .failed
  | suspended {c : Call τ} {c' : Call υ} : c'.name = c.name → c'.actuals = c.actuals → F.Corresponds β c.env c'.env →
      Alike F β (.suspended c) (.suspended c')

theorem Reaches.lt (hF : ∀ slot ∈ F.arguments, slot.cell < F.env.store.cells.size) {c : Nat} (hc : F.Reaches c) :
    c < F.env.store.cells.size := by
  obtain ⟨slot, hslot, hfind⟩ := hc
  by_contra hge
  rw [Store.find_of_ge (Nat.le_of_not_lt hge)] at hfind
  have hlt := Store.find_lt (s := F.env.store) (hF slot hslot)
  omega

theorem Reaches.find {c : Nat} (hc : F.Reaches c) : F.Reaches (F.env.store.find c) := by
  obtain ⟨slot, hslot, hfind⟩ := hc
  exact ⟨slot, hslot, hfind.trans (F.env.store.find_find c).symm⟩

theorem Mirrors.reaches (h : F.Mirrors F' β) {c : Nat} (hc : F.Reaches c) : F'.Reaches (β c) := by
  have hfind' := h.find c hc
  obtain ⟨slot, hslot, hfind⟩ := hc
  refine ⟨slot.move β, ?_, ?_⟩
  · rw [h.arguments]
    exact List.mem_map_of_mem hslot
  · change F'.env.store.find (β slot.cell) = _
    rw [h.find slot.cell ⟨slot, hslot, rfl⟩, hfind', hfind]

def site (c : Call σ) : Site := ⟨c.env.store.cells.size, c.env.depth, c.env.store.narrowings.length⟩

/-- The embedding, with new cells going to new cells. -/
def image (F F' : Call σ) (β : Nat → Nat) (c : Nat) : Nat :=
  if c < F.env.store.cells.size then β c else F'.env.store.cells.size + (c - F.env.store.cells.size)

theorem image_reached (hF : ∀ slot ∈ F.arguments, slot.cell < F.env.store.cells.size) {c : Nat} (hc : F.Reaches c) :
    image F F' β c = β c := if_pos (hc.lt hF)

theorem image_new {c : Nat} (hc : F.env.store.cells.size ≤ c) :
    image F F' β c = F'.env.store.cells.size + (c - F.env.store.cells.size) := if_neg (Nat.not_lt_of_le hc)

theorem image_ge {c : Nat} (hc : F.env.store.cells.size ≤ c) : F'.env.store.cells.size ≤ image F F' β c := by
  rw [image_new hc]
  exact Nat.le_add_right _ _

variable (hF : ∀ slot ∈ F.arguments, slot.cell < F.env.store.cells.size)
  (hF' : ∀ slot ∈ F'.arguments, slot.cell < F'.env.store.cells.size)

/-- What the callees can get at: the classes of the arguments, and all cells that are made after the call. -/
def mirror (h : F.Mirrors F' β) : Mirror where
  left := F.site
  right := F'.site
  seen := {c | F.region c}
  cell := image F F' β
  seen_new := fun k => .inl (Nat.le_add_right _ k)
  cell_new := fun k => by
    have hcancel : F.env.store.cells.size + k - F.env.store.cells.size = k := Nat.add_sub_cancel_left _ k
    exact (image_new (Nat.le_add_right _ k)).trans (congrArg _ hcancel)
  mono := by
    intro c hc d hd hlt
    rcases hc with hc | hc
    · rw [image_new hc, image_new (Nat.le_trans hc (Nat.le_of_lt hlt))]
      omega
    · rw [image_reached hF hc]
      rcases hd with hd | hd
      · rw [image_new hd]
        exact Nat.lt_add_right _ ((h.reaches hc).lt hF')
      · rw [image_reached hF hd]
        exact h.mono hc hd hlt

end Call

theorem Store.Shallow.map_relative {s : Store} {depth : Nat} (h : s.Shallow depth) (c : Nat) :
    (s.listed c).map (Alias.relative depth) = ((s.listed c).map Alias.parameter).map fun p => ⟨p, 0⟩ := by
  rw [List.map_map]
  apply List.map_congr_left
  intro a ha
  exact congrArg (Alias.mk a.parameter) (Nat.sub_eq_zero_of_le (h c a ha))

namespace Call

variable {F F' : Call σ} {β : Nat → Nat} (hF : ∀ slot ∈ F.arguments, slot.cell < F.env.store.cells.size)
  (hF' : ∀ slot ∈ F'.arguments, slot.cell < F'.env.store.cells.size)

/-- A representative that the arguments reach has the same type and value as its image, and no alias of either stands
deeper than its caller's innermost scope. -/
theorem Mirrors.twins (h : F.Mirrors F' β) (hshallow : F.env.Shallow) (hshallow' : F'.env.Shallow) {c : Nat}
    (hc : F.Reaches c) (hroot : F.env.store.find c = c) :
    (mirror hF hF' h).Twins F.env.store F'.env.store c := by
  have himage : (mirror hF hF' h).cell c = β c := image_reached hF hc
  have hroot' : F'.env.store.find (β c) = β c := by rw [h.find c hc, hroot]
  have hty := h.ty c hc
  have hvalue := h.value c hc
  have haliases := h.aliases c hc
  rw [Store.ty_eq, Store.ty_eq, hroot, hroot'] at hty
  rw [Store.value_eq, Store.value_eq, hroot, hroot'] at hvalue
  rw [Store.aliases, Store.aliases, Store.entries_eq, Store.entries_eq, hroot, hroot'] at haliases
  constructor
  · rw [himage]
    exact hty
  · rw [himage]
    exact hvalue
  · rw [himage]
    exact (hshallow'.map_relative (β c)).trans ((congrArg _ haliases).trans (hshallow.map_relative c).symm)

theorem Mirrors.stores (h : F.Mirrors F' β) (hshallow : F.env.Shallow) (hshallow' : F'.env.Shallow) :
    (mirror hF hF' h).Stores F.env.store F'.env.store where
  size := ⟨0, rfl, rfl⟩
  find := fun c hc => by
    rcases hc with hc | hc
    · rw [Store.find_of_ge hc]
      exact ⟨.inl hc, Store.find_of_ge (image_ge hc)⟩
    · refine ⟨.inr hc.find, ?_⟩
      change F'.env.store.find (image F F' β c) = image F F' β (F.env.store.find c)
      rw [image_reached hF hc, image_reached hF hc.find]
      exact h.find c hc
  twins := fun c hc hroot => by
    rcases hc with hc | hc
    · exact .of_ge hc (image_ge hc)
    · exact h.twins hF hF' hshallow hshallow' hc hroot
  log := ⟨[], _, _, rfl, rfl, rfl, rfl, fun _ h => absurd h List.not_mem_nil⟩

include hF in
theorem Mirrors.moved (h : F.Mirrors F' β) : F'.arguments = F.arguments.map (Slot.move (image F F' β)) := by
  rw [h.arguments]
  apply List.map_congr_left
  intro slot hslot
  exact congrArg (Slot.mk slot.parameter) (image_reached hF ⟨slot, hslot, rfl⟩).symm

/-- Whatever the formals, the scopes that the two calls open for them correspond. -/
theorem Mirrors.opened (h : F.Mirrors F' β) (hs : F.env.Sound) (hs' : F'.env.Sound) (hshallow : F.env.Shallow)
    (hshallow' : F'.env.Shallow) (serial : Nat) (formals : List Formal) :
    (mirror hF hF' h).Envs ({ F.env with serial := serial }.openScope (formals.zip F.arguments))
      ({ F'.env with serial := serial }.openScope (moveAll (image F F' β) (formals.zip F.arguments))) where
  stores := h.stores hF hF' hshallow hshallow'
  sound := by
    have hsound : { F.env with serial := serial }.Sound := ⟨hs.valid, hs.held⟩
    exact hsound.openScope fun a ha => hF a.2 (List.of_mem_zip ha).2
  sound' := by
    have hsound : { F'.env with serial := serial }.Sound := ⟨hs'.valid, hs'.held⟩
    apply hsound.openScope
    intro a' ha'
    obtain ⟨a, ha, rfl⟩ := List.mem_map.mp ha'
    apply hF' (a.2.move (image F F' β))
    rw [h.moved hF]
    exact List.mem_map_of_mem (List.of_mem_zip ha).2
  scope := by
    refine ⟨rfl, rfl, ⟨0, 0, rfl, rfl⟩, fun slot hslot => ?_⟩
    obtain ⟨a, ha, rfl⟩ := Env.mem_slots_openScope.mp hslot
    exact .inr ⟨a.2, (List.of_mem_zip ha).2, rfl⟩
  enclosing := ⟨[], [], _, _, rfl, rfl, rfl, rfl, .nil⟩
  serial := rfl

theorem corresponds (h : F.Mirrors F' β) {e e' : Env} (hstores : (mirror hF hF' h).Stores e.store e'.store) :
    F.Corresponds β e e' := by
  have himage {c : Nat} (hc : F.Reaches c) : (mirror hF hF' h).cell c = β c := image_reached hF hc
  constructor
  · intro c hc
    rw [← himage hc]
    exact hstores.ty (.inr hc)
  · intro c hc
    rw [← himage hc]
    exact hstores.value (.inr hc)
  · intro c hc
    rw [← himage hc]
    exact hstores.aliases (.inr hc)
  · intro c d hc hd
    rw [← himage hc, ← himage hd]
    exact hstores.find_eq_iff (.inr hc) (.inr hd)

theorem Alike.of_outcomes {H : τ → υ → Prop} (h : F.Mirrors F' β) {o : Outcome τ} {o' : Outcome υ}
    (ho : (mirror hF hF' h).Outcomes H o o') : F.Alike β o o' := by
  cases ho with
  | complete hstores => exact .complete (corresponds hF hF' h hstores)
  | failed => exact .failed
  | @suspended c c' hcalls =>
      have hmoved : c'.arguments = c.arguments.map _ := hcalls.arguments.moved
      apply Alike.suspended hcalls.name
      · rw [Call.actuals, hmoved, List.map_map]
        rfl
      · exact corresponds hF hF' h hcalls.arguments.envs.stores

/-- Two calls that mirror each other are answered in lockstep by clauses that agree. -/
theorem evaluate_lockstep {H : τ → υ → Prop} {actuals actuals' : List Actual}
    (hreached : Pending.Reached actuals (.call F)) (hreached' : Pending.Reached actuals' (.call F'))
    (h : F.Mirrors F' β) {callee : Clause τ} {callee' : Clause υ} (hcallee : callee.Agrees H callee')
    {choices : List (Clause τ)} {choices' : List (Clause υ)}
    (hchoices : List.Forall₂ (Clause.Agrees H) choices choices') (serial : Nat) :
    Engine.Lockstep H (F.Alike β) (F.evaluate serial callee choices) (F'.evaluate serial callee' choices') := by
  obtain ⟨hsound, hshallow, hF⟩ := reached_sound hreached
  obtain ⟨hsound', hshallow', hF'⟩ := reached_sound hreached'
  have hresume : Engine.Lockstep H ((mirror hF hF' h).Entries H) ((F.alone τ serial).resume callee)
      ((F'.alone υ serial).resume callee') := by
    apply resume_lockstep hcallee .nil rfl rfl
    · exact Nat.zero_add _
    · rfl
    · exact h.moved hF
    · exact h.opened hF hF' hsound hsound' hshallow hshallow' (serial + 1)
  have hfollow := hresume.bind fun r r' hr _ => hr.follow hchoices
  exact hfollow.imp fun _ _ ho => .of_outcomes hF hF' h ho

theorem Mirrors.refl (F : Call σ) : F.Mirrors F id where
  arguments := (List.map_id' F.arguments).symm
  mono := strictMono_id.strictMonoOn _
  find := fun _ _ => rfl
  ty := fun _ _ => rfl
  value := fun _ _ => rfl
  aliases := fun _ _ => rfl

/-- Noting what callbacks are shown does not change what a call comes to. -/
theorem noting_unnoticed {actuals : List Actual} (hreached : Pending.Reached actuals (.call F)) {callee : Clause σ}
    {choices : List (Clause σ)} (hauth : ∀ c ∈ callee :: choices, c.Authored) (hpure : ∀ c ∈ callee :: choices, c.Pure)
    (serial : Nat) (w : World σ) (w' : World (σ × List Sight)) :
    Agree (F.Alike id) (ExceptT.run (F.evaluate serial callee.noting (choices.map Clause.noting)) w').1
      (ExceptT.run (F.evaluate serial callee choices) w).1 := by
  have hagrees : ∀ c ∈ callee :: choices, c.noting.Agrees (fun _ _ => True) c := fun c hc =>
    ((hpure c hc).agrees (hauth c hc) w.host).noting_left
  have hchoices : List.Forall₂ (Clause.Agrees fun _ _ => True) (choices.map Clause.noting) choices := by
    rw [List.forall₂_map_left_iff]
    exact List.forall₂_same.mpr fun c hc => hagrees c (List.mem_cons_of_mem callee hc)
  have hcallee := hagrees callee List.mem_cons_self
  exact (evaluate_lockstep hreached hreached (.refl F) hcallee hchoices serial w' w trivial).1

/-- A callee sees nothing of its caller but what its arguments reach. From two calls that mirror each other, a clause
with pure callbacks raises one error, or comes to outcomes that cannot be told apart, whatever clauses answer the
nested calls; and its callbacks are shown the same. Fresh identities are numbered alike. Nothing is asked of the rest
of the two callers, or of the worlds. -/
theorem sees_only_arguments {actuals actuals' : List Actual} (hreached : Pending.Reached actuals (.call F))
    (hreached' : Pending.Reached actuals' (.call F')) (h : F.Mirrors F' β) {callee : Clause σ}
    {choices : List (Clause σ)} (hauth : ∀ c ∈ callee :: choices, c.Authored)
    (hpure : ∀ c ∈ callee :: choices, c.Pure) (serial : Nat) (w w' : World σ) :
    Agree (F.Alike β) (ExceptT.run (F.evaluate serial callee choices) w).1
        (ExceptT.run (F'.evaluate serial callee choices) w').1 ∧
      F.sights serial callee choices w = F'.sights serial callee choices w' := by
  have hagrees : ∀ c ∈ callee :: choices, c.Agrees (fun _ _ => True) c := fun c hc =>
    (hpure c hc).agrees (hauth c hc) w.host
  have hcallee := hagrees callee List.mem_cons_self
  have hchoices : List.Forall₂ (Clause.Agrees fun _ _ => True) choices choices :=
    List.forall₂_same.mpr fun c hc => hagrees c (List.mem_cons_of_mem callee hc)
  have hnoting : List.Forall₂ (Clause.Agrees (Noted fun _ _ => True)) (choices.map Clause.noting)
      (choices.map Clause.noting) := by
    rw [List.forall₂_map_left_iff, List.forall₂_map_right_iff]
    exact hchoices.imp fun _ _ hc => hc.noting
  constructor
  · exact (evaluate_lockstep hreached hreached' h hcallee hchoices serial w w' trivial).1
  · exact (evaluate_lockstep hreached hreached' h hcallee.noting hnoting serial ⟨(w.host, []), w.cancelled, w.journal⟩
      ⟨(w'.host, []), w'.cancelled, w'.journal⟩ ⟨trivial, rfl⟩).2.2

end Call

/-- A clause that looks at its argument before and after giving it a value. -/
def probing : Clause Unit where
  name := "probe"
  formals := [⟨0, "seen", .any⟩]
  body := .fixed [.check fun v => .answer (.ok ((v.named "seen").toOption.all fun b => !b.isBound)),
    .bind (.formal ⟨0, "seen", .any⟩) (.literal (.int 5)), .action fun _ => .answer (.ok ())]
  name_ne := by decide
  distinct := by decide

def forwarding (f : Formal) : Clause Unit where
  name := "forward"
  formals := [⟨1, "first", .any⟩, ⟨2, "second", .any⟩]
  body := .fixed [.call "probe" [.param (.formal f)]]
  name_ne := by decide
  distinct := by decide

theorem probing_pure : probing.Authored ∧ probing.Pure := by
  constructor
  · exact Clause.authored_of_fixed rfl (by simp [Goal.Authored])
  · have hanswer {α : Type} (r : Except Error α) : (Effect.answer (Failure.lift r) : Effect Unit α).Pure :=
      ⟨r, fun _ => ⟨rfl, fun _ h => by cases h⟩⟩
    have hgoals : ∀ g ∈ ([.check fun v => .answer (.ok ((v.named "seen").toOption.all fun b => !b.isBound)),
        .bind (.formal ⟨0, "seen", .any⟩) (.literal (.int 5)), .action fun _ => .answer (.ok ())] : List (Goal Unit)),
        g.Pure := by
      simp only [List.forall_mem_cons, Goal.Pure, Term.Pure, Term.literal]
      exact ⟨fun v => hanswer (.ok _), trivial, fun v => hanswer (.ok ()), fun _ h => absurd h List.not_mem_nil⟩
    exact hgoals

def firstActual : Actual := .output (.shared 0) none .any none

def secondActual : Actual := .output (.shared 1) none .any none

def Store.ofTwo (a b : Actual) : Store := ((Store.empty.allocateFor a 0).2.allocateFor b 0).2

theorem Store.find_ofTwo (a b : Actual) (c : Nat) : (Store.ofTwo a b).find c = c := by
  unfold Store.ofTwo
  rw [Store.find_allocateFor, Store.find_allocateFor]
  exact Store.find_of_ge (Nat.zero_le c)

theorem forwarding_authored (f : Formal) : (forwarding f).Authored :=
  Clause.authored_of_fixed rfl (by simp [Goal.Authored])

/-- A caller with two cells passes on the actual that has the first of them. -/
theorem forwarding_first_stops : ∃ F : Call Unit, Pending.Reached [firstActual, secondActual] (.call F) ∧
    F.arguments = [⟨firstActual, 0⟩] ∧ F.env.store = .ofTwo firstActual secondActual ∧
      (F.sights 0 probing [] (World.start ())).length = 2 :=
  ⟨⟨_, _, _, _⟩, ⟨forwarding ⟨1, "first", .any⟩, _, _, _, _, ⟨forwarding_authored _, by decide,
    ⟨World.start (), _, rfl⟩⟩, .refl, rfl, ⟨World.start (), _, rfl⟩⟩, rfl, rfl, by decide +kernel⟩

theorem forwarding_second_stops : ∃ F : Call Unit, Pending.Reached [secondActual, firstActual] (.call F) ∧
    F.arguments = [⟨firstActual, 1⟩] ∧ F.env.store = .ofTwo secondActual firstActual :=
  ⟨⟨_, _, _, _⟩, ⟨forwarding ⟨2, "second", .any⟩, _, _, _, _, ⟨forwarding_authored _, by decide,
    ⟨World.start (), _, rfl⟩⟩, .refl, rfl, ⟨World.start (), _, rfl⟩⟩, rfl, rfl⟩

theorem forwarding_mirrors {F F' : Call Unit} (hargs : F.arguments = [⟨firstActual, 0⟩])
    (hargs' : F'.arguments = [⟨firstActual, 1⟩]) (hstore : F.env.store = .ofTwo firstActual secondActual)
    (hstore' : F'.env.store = .ofTwo secondActual firstActual) : F.Mirrors F' fun _ => 1 := by
  have honly : ∀ c, F.Reaches c → c = 0 := by
    rintro c ⟨slot, hslot, hfind⟩
    rw [hargs] at hslot
    obtain rfl := List.mem_singleton.mp hslot
    rw [hstore, Store.find_ofTwo, Store.find_ofTwo] at hfind
    exact hfind.symm
  constructor
  · rw [hargs, hargs']
    rfl
  · intro c hc d hd hlt
    rw [honly c hc, honly d hd] at hlt
    exact absurd hlt (Nat.lt_irrefl 0)
  · intro c hc
    rw [hstore', Store.find_ofTwo]
  · intro c hc
    rw [honly c hc, hstore, hstore']
    decide +kernel
  · intro c hc
    rw [honly c hc, hstore, hstore']
    decide +kernel
  · intro c hc
    rw [honly c hc, hstore, hstore', Store.aliases, Store.aliases, Store.entries_eq, Store.entries_eq,
      Store.find_ofTwo, Store.find_ofTwo]
    rfl

/-- The clause cannot tell whether it was passed the first of two cells or the second. It looks at it twice. -/
theorem probing_sees_the_same : ∃ F F' : Call Unit, F.arguments = [⟨firstActual, 0⟩] ∧
    F'.arguments = [⟨firstActual, 1⟩] ∧
    Agree (F.Alike fun _ => 1) (ExceptT.run (F.evaluate 0 probing []) (World.start ())).1
      (ExceptT.run (F'.evaluate 0 probing []) (World.start ())).1 ∧
    F.sights 0 probing [] (World.start ()) = F'.sights 0 probing [] (World.start ()) ∧
    (F.sights 0 probing [] (World.start ())).length = 2 := by
  obtain ⟨F, hF, hargs, hstore, hlength⟩ := forwarding_first_stops
  obtain ⟨F', hF', hargs', hstore'⟩ := forwarding_second_stops
  obtain ⟨hauth, hpure⟩ := probing_pure
  have hmirrors := forwarding_mirrors hargs hargs' hstore hstore'
  obtain ⟨hagree, hsights⟩ := Call.sees_only_arguments hF hF' hmirrors (List.forall_mem_singleton.mpr hauth)
    (List.forall_mem_singleton.mpr hpure) 0 (World.start ()) (World.start ())
  exact ⟨F, F', hargs, hargs', hagree, hsights, hlength⟩

end Clausal
