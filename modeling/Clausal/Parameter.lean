import Clausal.Error

/-! Parameters. A formal belongs to a clause's signature, an actual is passed at a call or stands
for a local variable of a body. Both are told apart by identity: a name is for lookups and display,
and two parameters may share one. -/
namespace Clausal

structure Formal where
  id : Nat
  name : String
  ty : Ty
deriving DecidableEq

/-- Identity of an actual. Shared ones are made once, before any query; a clause that makes its
locals anew numbers them within the instance it makes them for; a literal argument gets its
identity when it is passed. -/
inductive ActualId where
  | shared (n : Nat)
  | own (body index : Nat)
  | literal (serial : Nat)
deriving DecidableEq

namespace ActualId

def number : ActualId → Nat
  | .shared n => n
  | .own _ index => index
  | .literal serial => serial

end ActualId

/-- An argument: an input carries a value, which fits its type; an output waits for one. The tag
is for whoever made the parameter and plays no part in resolution. -/
structure Actual where
  id : ActualId
  name : Option String
  ty : Ty
  value : Option Value
  tag : Option String
  fits : ∀ v, value = some v → ty.Accepts v.ty
deriving DecidableEq

namespace Actual

def output (id : ActualId) (name : Option String) (ty : Ty) (tag : Option String) : Actual where
  id := id
  name := name
  ty := ty
  value := none
  tag := tag
  fits := fun _ h => nomatch h

def input? (id : ActualId) (name : Option String) (ty : Ty) (v : Value) (tag : Option String) :
    Except Error Actual :=
  if h : ty.Accepts v.ty then
    .ok ⟨id, name, ty, some v, tag, fun _ e => Option.some.inj e ▸ h⟩
  else .error (.typeMismatch ty v.ty)

def literal (id : ActualId) (v : Value) (tag : Option String) : Actual where
  id := id
  name := none
  ty := v.ty
  value := some v
  tag := tag
  fits := fun _ e => Option.some.inj e ▸ Or.inr rfl

/-- The name, else the value, else the number of the placeholder. -/
def text (a : Actual) : String :=
  match a.name, a.value with
  | some name, _ => name
  | none, some v => v.text
  | none, none => "_" ++ toString a.id.number

/-- Inputs flow into the formal; outputs receive whatever the formal ends up holding. -/
def Matches (a : Actual) (f : Formal) : Prop :=
  match a.value with
  | some _ => f.ty.Accepts a.ty
  | none => a.ty.Accepts f.ty

instance (a : Actual) (f : Formal) : Decidable (a.Matches f) := by
  unfold Matches
  cases a.value with
  | some v => exact inferInstanceAs (Decidable (f.ty.Accepts a.ty))
  | none => exact inferInstanceAs (Decidable (a.ty.Accepts f.ty))

def isIn (a : Actual) (as : List Actual) : Bool :=
  as.any fun b => b.id = a.id

/-- Drops repetitions and keeps the first of each identity. -/
def distinct (as : List Actual) : List Actual :=
  as.foldl (fun seen a => if a.isIn seen then seen else seen ++ [a]) []

end Actual

inductive Param where
  | formal (f : Formal)
  | actual (a : Actual)

namespace Param

def ty : Param → Ty
  | .formal f => f.ty
  | .actual a => a.ty

def text : Param → String
  | .formal f => f.name
  | .actual a => a.text

end Param
end Clausal
