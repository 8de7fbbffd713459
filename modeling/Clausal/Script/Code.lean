import Clausal.Effect

/-! The code of scripted callbacks. Code reads a view, or the one value that it was given, and
computes a value; the first failure ends it. Acts are the statements of actions: they leave notes and
cancel tokens. References are looked up when they are reached, so code may hold a reference to a
formal that does not exist as long as no run comes to it. -/
namespace Clausal.Script

/-- A reference to a formal of the clause, to one of its own locals, or to a shared parameter. -/
inductive Ref where
  | formal (name : String)
  | own (index : Nat)
  | shared (p : Param)

structure Names where
  formals : List Formal
  own : List Actual

/-- A name that is not declared is a mistake of the body's author. -/
def Names.find (n : Names) : Ref → Except Failure Param
  | .formal name =>
    match n.formals.find? fun f => f.name = name with
    | some f => .ok (.formal f)
    | none => .error (.crash (.undeclared name))
  | .own index =>
    match n.own[index]? with
    | some a => .ok (.actual a)
    | none => .error (.crash (.undeclared (toString index)))
  | .shared p => .ok p

inductive Arith where
  | add
  | sub
  | mul
  | mod

inductive Order where
  | lt
  | le

inductive Code where
  | value (v : Value)
  | source
  | get (ty : Ty) (name : String)
  | getOf (ty : Ty) (r : Ref)
  | read (name : String)
  | bound (name : String)
  | boundOf (r : Ref)
  | typeName (name : String)
  | typeOf (r : Ref)
  | aliases (name : String)
  | arith (op : Arith) (a b : Code)
  | compare (op : Order) (a b : Code)
  | eq (a b : Code)
  | not (a : Code)
  | and (a b : Code)
  | or (a b : Code)
  | cond (c a b : Code)
  | concat (a b : Code)
  | length (a : Code)
  | text (a : Code)
  | attempt (a : Code)
  | fail (e : Error)

inductive Act where
  | log (c : Code)
  | eval (c : Code)
  | dump (name : String)
  | dumpOf (written : String) (r : Ref)
  | cancel (t : Token)

/-- Where a text stands with respect to a number after an underscore. -/
inductive Masking where
  | outside
  | underscore
  | number
deriving DecidableEq

/-- Writes `#` for the digits right after each underscore. -/
def maskFrom : Masking → List Char → List Char
  | _, [] => []
  | m, c :: cs =>
    if c.isDigit ∧ m = .underscore then '#' :: maskFrom .number cs
    else if c.isDigit ∧ m = .number then maskFrom .number cs
    else c :: maskFrom (if c = '_' then .underscore else .outside) cs

def maskNumbers (s : String) : String := String.ofList (maskFrom .outside s.toList)

/-- What reports call an actual: its tag, or its text if it has none. -/
def label (a : Actual) : String := a.tag.getD ("lit:" ++ maskNumbers a.text)

/-- Sums and products wrap around; the remainder is never negative. -/
def Arith.apply : Arith → Int64 → Int64 → Int64
  | .add, a, b => a + b
  | .sub, a, b => a - b
  | .mul, a, b => a * b
  | .mod, a, b => .ofInt (a.toInt % b.toInt)

def Order.apply : Order → Int64 → Int64 → Bool
  | .lt, a, b => a < b
  | .le, a, b => a ≤ b

namespace Code

/-- Evaluates from left to right. An operand is read at the type its operation needs before the next
operand is evaluated; `and`, `or` and `cond` evaluate what they need. An attempt turns errors into
text and lets crashes pass. -/
def eval (n : Names) (v : View) (given : Option Value) : Code → Except Failure Value
  | .value x => .ok x
  | .source =>
    match given with
    | some x => .ok x
    | none => .error (.error (.unbound "it"))
  | .get ty name => Failure.lift do (← v.named name).get ty
  | .getOf ty r => do
    let p ← n.find r
    Failure.lift do (← v.referred p).get ty
  | .read name => Failure.lift do (← v.named name).read
  | .bound name => Failure.lift do return .bool (← v.named name).isBound
  | .boundOf r => do
    let p ← n.find r
    Failure.lift do return .bool (← v.referred p).isBound
  | .typeName name => Failure.lift do return .str (← v.named name).ty.name
  | .typeOf r => do
    let p ← n.find r
    Failure.lift do return .str (← v.referred p).ty.name
  | .aliases name => Failure.lift do return .str (",".intercalate ((← v.named name).aliases.map label))
  | .arith op a b => do
    let x ← Failure.lift (← a.eval n v given).asInt
    let y ← Failure.lift (← b.eval n v given).asInt
    return .int (op.apply x y)
  | .compare op a b => do
    let x ← Failure.lift (← a.eval n v given).asInt
    let y ← Failure.lift (← b.eval n v given).asInt
    return .bool (op.apply x y)
  | .eq a b => do
    let x ← a.eval n v given
    let y ← b.eval n v given
    return .bool (x = y)
  | .not a => do
    let x ← Failure.lift (← a.eval n v given).asBool
    return .bool !x
  | .and a b => do
    let x ← Failure.lift (← a.eval n v given).asBool
    if x then
      let y ← Failure.lift (← b.eval n v given).asBool
      return .bool y
    else return .bool false
  | .or a b => do
    let x ← Failure.lift (← a.eval n v given).asBool
    if x then return .bool true
    else
      let y ← Failure.lift (← b.eval n v given).asBool
      return .bool y
  | .cond c a b => do
    let x ← Failure.lift (← c.eval n v given).asBool
    if x then a.eval n v given else b.eval n v given
  | .concat a b => do
    let x ← Failure.lift (← a.eval n v given).asStr
    let y ← Failure.lift (← b.eval n v given).asStr
    return .str (x ++ y)
  | .length a => do
    let x ← Failure.lift (← a.eval n v given).asStr
    return .int (.ofNat x.length)
  | .text a => do return .str (← a.eval n v given).text
  | .attempt a =>
    match a.eval n v given with
    | .error (.error e) => .ok (.str ("!" ++ e.kind))
    | r => r
  | .fail e => .error (.error e)

end Code

namespace Act

/-- A dump notes the binding or the error. -/
def run (n : Names) (v : View) : Act → Except Failure Unit × List Signal
  | .log c =>
    match c.eval n v none with
    | .ok x => (.ok (), [.note (.value x)])
    | .error f => (.error f, [])
  | .eval c =>
    match c.eval n v none with
    | .ok _ => (.ok (), [])
    | .error f => (.error f, [])
  | .dump name => (.ok (), [.note (.named name (v.named name))])
  | .dumpOf written r =>
    match n.find r with
    | .ok p => (.ok (), [.note (.referred written (v.referred p))])
    | .error f => (.error f, [])
  | .cancel t => (.ok (), [.cancel t])

/-- Runs acts in order. The first failure ends them, and what was signalled before it stays. -/
def runAll (n : Names) (v : View) : List Act → Except Failure Unit × List Signal
  | [] => (.ok (), [])
  | a :: rest =>
    match a.run n v with
    | (.ok _, signals) =>
      let (r, more) := runAll n v rest
      (r, signals ++ more)
    | (.error f, signals) => (.error f, signals)

end Act
end Clausal.Script
