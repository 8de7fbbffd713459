import Clausal.Store.Basic

/-! Binding and unification. Each operation returns the store beside its result, also when it is
refused: a unification whose value does not fit has already linked the two classes. A new cell for an
actual is never refused the actual's value. -/
namespace Clausal.Store

def bindValue (s : Store) (c : Nat) (v : Value) : Except Error Unit × Store :=
  match s.value c with
  | some _ => (.error .alreadyBound, s)
  | none =>
    if (s.ty c).Accepts v.ty then
      (.ok (), s.modify (s.find c) fun cell => { cell with value := some v })
    else (.error (.typeMismatch (s.ty c) v.ty), s)

/-- Binds an unbound class; a bound one must hold the value already. -/
def bindOrCheck (s : Store) (c : Nat) (v : Value) : Except Error Bool × Store :=
  match s.value c with
  | some w => (.ok (w = v), s)
  | none =>
    match s.bindValue c v with
    | (.ok _, s') => (.ok true, s')
    | (.error e, s') => (.error e, s')

/-- Hands a representative over to an older one, which takes the given type, value and aliases.
The older one's type is recorded when this narrows it. -/
def link (s : Store) (older younger : Nat) (ty : Ty) (value : Option Value) (aliases : List Alias) :
    Store where
  cells :=
    (s.cells.modify younger fun cell =>
      { cell with parent := older, value := none, aliases := [] }).modify older fun cell =>
        { cell with ty := ty, value := value, aliases := aliases }
  narrowings := if s.ty older = ty then s.narrowings else ⟨older, s.ty older⟩ :: s.narrowings

/-- Makes one class of two, of which at most one is bound, given by their representatives. -/
def merge (s : Store) (older younger : Nat) : Except Error Bool × Store :=
  match (s.ty older).meet (s.ty younger) with
  | none => (.error (.typeMismatch (s.ty older) (s.ty younger)), s)
  | some ty =>
    let value := s.value older <|> s.value younger
    let joined := s.link older younger ty value (Alias.join (s.entries older) (s.entries younger))
    match value with
    | none => (.ok true, joined)
    | some v =>
      if ty.Accepts v.ty then (.ok true, joined)
      else (.error (.typeMismatch ty v.ty), s.link older younger ty value (s.entries older))

/-- Two bound classes unify when their values are equal, and stay apart; any others become one. -/
def unify (s : Store) (a b : Nat) : Except Error Bool × Store :=
  if s.find a = s.find b then (.ok true, s)
  else
    match s.value a, s.value b with
    | some v, some w => (.ok (v = w), s)
    | _, _ => s.merge (min (s.find a) (s.find b)) (max (s.find a) (s.find b))

def push (s : Store) (cell : Cell) : Store := { s with cells := s.cells.push cell }

/-- Makes a cell for an actual, adds the alias, and then binds the cell to the value of an input. -/
def allocateInSteps (s : Store) (a : Actual) (depth : Nat) : Except Error Nat × Store :=
  let (c, made) := s.allocate a.ty
  let named := made.addAlias c a depth
  match a.value with
  | none => (.ok c, named)
  | some v =>
    match named.bindValue c v with
    | (.ok (), bound) => (.ok c, bound)
    | (.error e, refused) => (.error e, refused)

section Push

variable (s : Store) {cell : Cell}

theorem find_push (h : cell.parent = s.cells.size) : (s.push cell).find s.cells.size = s.cells.size := by
  rw [find]
  simp [push, h]

theorem root?_push (h : cell.parent = s.cells.size) : (s.push cell).root? s.cells.size = some cell := by
  rw [root?, find_push s h]
  simp [push]

theorem modify_push (f : Cell → Cell) : (s.push cell).modify s.cells.size f = s.push (f cell) := by
  simp only [modify, push]
  congr 1
  ext i
  · simp
  · grind

theorem addAlias_push (h : cell.parent = s.cells.size) (a : Actual) (depth : Nat) :
    (s.push cell).addAlias s.cells.size a depth =
      s.push { cell with aliases := Alias.add cell.aliases ⟨a, depth⟩ } := by
  rw [addAlias, find_push s h, modify_push]

theorem bindValue_push (h : cell.parent = s.cells.size) (hunbound : cell.value = none) {v : Value}
    (hfits : cell.ty.Accepts v.ty) :
    (s.push cell).bindValue s.cells.size v = (.ok (), s.push { cell with value := some v }) := by
  have hvalue : (s.push cell).value s.cells.size = none := by
    rw [value, root?_push s h]
    exact hunbound
  have hty : (s.push cell).ty s.cells.size = cell.ty := by
    rw [ty, root?_push s h]
    rfl
  rw [bindValue, hvalue, hty]
  simp only [if_pos hfits, find_push s h, modify_push]

/-- The new cell is unbound and has the type of the actual, which the value fits. So it is bound without fail. -/
theorem allocateInSteps_eq (a : Actual) (depth : Nat) :
    s.allocateInSteps a depth = (.ok (s.allocateFor a depth).1, (s.allocateFor a depth).2) := by
  have hmade : s.allocate a.ty = (s.cells.size, s.push ⟨s.cells.size, a.ty, none, []⟩) := rfl
  have hnamed : (s.push ⟨s.cells.size, a.ty, none, []⟩).addAlias s.cells.size a depth =
      s.push ⟨s.cells.size, a.ty, none, [⟨a, depth⟩]⟩ := addAlias_push s rfl a depth
  simp only [allocateInSteps, hmade, hnamed]
  cases hv : a.value with
  | none => rw [allocateFor, hv, push]
  | some v =>
    have hbound : (s.push ⟨s.cells.size, a.ty, none, [⟨a, depth⟩]⟩).bindValue s.cells.size v =
        (.ok (), s.push ⟨s.cells.size, a.ty, some v, [⟨a, depth⟩]⟩) := bindValue_push s rfl rfl (a.fits v hv)
    simp only [hbound]
    rw [allocateFor, hv, push]

end Push

end Clausal.Store
