import Clausal.Goal

/-! Agendas: the goals a branch has left. An agenda is a stack of segments, so that the goals of a
callee go in front of the caller's without copying those. Main statements: read from the top
segment down, an agenda is a list, pushing appends in front of it, and the next goal is its head. -/
namespace Clausal

variable {σ : Type}

/-- Segments that have run out stay on the stack until the next goal is asked for. -/
structure Agenda (σ : Type) where
  segments : List (List (Goal σ))

namespace Agenda

def empty : Agenda σ := ⟨[]⟩

/-- Puts goals in front of all others. No goals make no segment. -/
def push (a : Agenda σ) (goals : List (Goal σ)) : Agenda σ :=
  if goals.isEmpty then a else ⟨goals :: a.segments⟩

def ofList (goals : List (Goal σ)) : Agenda σ := empty.push goals

def toList (a : Agenda σ) : List (Goal σ) := a.segments.flatten

def nextIn : List (List (Goal σ)) → Option (Goal σ × Agenda σ)
  | [] => none
  | [] :: rest => nextIn rest
  | (g :: goals) :: rest => some (g, ⟨goals :: rest⟩)

def next? (a : Agenda σ) : Option (Goal σ × Agenda σ) := nextIn a.segments

@[simp] theorem toList_push (a : Agenda σ) (goals : List (Goal σ)) : (a.push goals).toList = goals ++ a.toList := by
  cases goals with
  | nil => rfl
  | cons g rest => rfl

theorem nextIn_toList (segments : List (List (Goal σ))) :
    (nextIn segments).map (fun p => p.1 :: p.2.toList) =
      match segments.flatten with
      | [] => none
      | g :: goals => some (g :: goals) := by
  induction segments with
  | nil => rfl
  | cons s rest ih =>
    cases s with
    | nil => exact ih
    | cons g goals => rfl

theorem toList_of_next? {a b : Agenda σ} {g : Goal σ} (h : a.next? = some (g, b)) :
    a.toList = g :: b.toList := by
  have key := nextIn_toList a.segments
  rw [show nextIn a.segments = some (g, b) from h] at key
  show a.segments.flatten = _
  cases hs : a.segments.flatten with
  | nil => rw [hs] at key; cases key
  | cons x xs => rw [hs] at key; exact (Option.some.inj key).symm

theorem length_of_next? {a b : Agenda σ} {g : Goal σ} (h : a.next? = some (g, b)) :
    b.toList.length < a.toList.length := by
  rw [toList_of_next? h]
  exact Nat.lt_succ_self _

end Agenda
end Clausal
