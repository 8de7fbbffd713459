import Clausal.Value
import Std.Data.String.ToInt

/-! Values read back from their texts. Of the characters of a string only the quotation mark is escaped, so a string
may end in a backslash, and then its text looks unfinished. It is read as a whole all the same: what is between its
first and its last character is the escaped string. Main statement: values with equal texts are equal, undoing the
escape gives the string again, and the first character of a text tells the kind of the value. -/
namespace Clausal.Value

/-- Undoes the escape: a quotation mark takes the backslash before it away, and every other backslash stays. -/
def unescape : List Char → List Char
  | '\\' :: '"' :: cs => '"' :: unescape cs
  | c :: cs => c :: unescape cs
  | [] => []

/-- The string of a text in quotation marks. Where it ends is told by the end of the text, not by a mark. -/
def unquote (t : String) : String := String.ofList (unescape t.toList.tail.dropLast)

/-- The kind of value that a text can belong to. It is told by the first character. -/
def kindOf (t : String) : Ty :=
  match t.toList.head? with
  | some '"' => .str
  | some 't' | some 'f' => .bool
  | _ => .int

def ofText? (t : String) : Option Value :=
  match kindOf t with
  | .str => some (.str (unquote t))
  | .bool => some (.bool (t = "true"))
  | _ => t.toInt?.map fun n => .int (Int64.ofInt n)

/-- An escaped quotation mark begins with its backslash. So none is ever first, and none can take away a backslash that
stands before it in the string. -/
theorem head?_escaped_ne (cs : List Char) : (cs.flatMap escape).head? ≠ some '"' := by
  cases cs with
  | nil => simp
  | cons c cs => by_cases hc : c = '"' <;> simp [escape, hc]

theorem unescape_cons {c : Char} {cs : List Char} (h : cs.head? ≠ some '"') :
    unescape (c :: cs) = c :: unescape cs := by
  cases cs with
  | nil => simp [unescape]
  | cons d ds =>
    have hd : d ≠ '"' := by simpa using h
    simp [unescape, hd]

theorem unescape_escaped (cs : List Char) : unescape (cs.flatMap escape) = cs := by
  induction cs with
  | nil => rfl
  | cons c cs ih =>
    rw [List.flatMap_cons]
    by_cases hc : c = '"'
    · simp [escape, hc, unescape, ih]
    · rw [escape, if_neg hc, List.singleton_append, unescape_cons (head?_escaped_ne cs), ih]

theorem unquote_quote (s : String) : unquote (quote s) = s := by
  simp [unquote, quote, unescape_escaped]

theorem isDigit_of_mem_repr {n : Nat} {c : Char} (h : c ∈ n.repr.toList) : c.isDigit := by
  rw [Nat.repr_eq_ofList_toDigits, String.toList_ofList] at h
  exact Nat.isDigit_of_mem_toDigits (by decide) (by decide) h

theorem isDigit_or_minus_of_mem {n : Int} {c : Char} (h : c ∈ (toString n).toList) : c.isDigit ∨ c = '-' := by
  rw [Int.toString_eq_repr, Int.repr_eq_if] at h
  split at h
  · exact .inl (isDigit_of_mem_repr h)
  · rw [String.toList_append, List.mem_append] at h
    rcases h with h | h
    · exact .inr (by simpa using h)
    · exact .inl (isDigit_of_mem_repr h)

theorem kindOf_toString (n : Int) : kindOf (toString n) = .int := by
  have hwritten {c : Char} (h : (toString n).toList.head? = some c) : c.isDigit ∨ c = '-' :=
    isDigit_or_minus_of_mem (List.mem_of_head? h)
  unfold kindOf
  split
  · next h => exact absurd (hwritten h) (by decide)
  · next h => exact absurd (hwritten h) (by decide)
  · next h => exact absurd (hwritten h) (by decide)
  · rfl

theorem kindOf_text (v : Value) : kindOf v.text = v.ty := by
  cases v with
  | bool b => cases b <;> rfl
  | int n => exact kindOf_toString n.toInt
  | str s => simp [kindOf, text, quote, ty]

theorem ofText?_text (v : Value) : ofText? v.text = some v := by
  rw [ofText?, kindOf_text]
  cases v with
  | bool b => cases b <;> rfl
  | int n => simp only [ty, text, Int.toString_eq_repr, Int.toInt?_repr, Option.map_some, Int64.ofInt_toInt]
  | str s => simp only [ty, text, unquote_quote]

/-- A text belongs to one value only, whatever backslashes and quotation marks are in a string, and texts of values
of different kinds differ from their first character on. -/
theorem texts_tell_values_apart :
    (∀ v w : Value, v.text = w.text ↔ v = w) ∧
    (∀ s : String, unquote (text (.str s)) = s) ∧
    (∀ v : Value, kindOf v.text = v.ty) := by
  refine ⟨fun v w => ⟨fun h => ?_, congrArg text⟩, unquote_quote, kindOf_text⟩
  have hread : some v = some w := calc
    some v = ofText? v.text := (ofText?_text v).symm
    _ = ofText? w.text := by rw [h]
    _ = some w := ofText?_text w
  exact Option.some.inj hread

/-- A quotation mark alone, and one after a backslash. -/
example : text (.str "\"") = "\"\\\"\"" ∧ text (.str "\\\"") = "\"\\\\\"\"" := by decide

end Clausal.Value
