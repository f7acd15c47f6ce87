/-!
# Text in fields

Cutting a text at a separator: at every occurrence (`fields`), which `joined` undoes, or at the
first one (`cut`). `unwrapped` takes a mark off both ends.
-/

namespace ScriptedAgent.Text

/-- The stretches between the separators: one more than there are separators. -/
def fields (sep : Char) : List Char → List (List Char)
  | [] => [[]]
  | c :: cs =>
    if c = sep then [] :: fields sep cs
    else match fields sep cs with
      | [] => [[c]]
      | f :: fs => (c :: f) :: fs

/-- The fields with the separator between them. -/
def joined (sep : Char) : List (List Char) → List Char
  | [] => []
  | [f] => f
  | f :: fs => f ++ sep :: joined sep fs

/-- What stands before the first separator and what stands after it. -/
def cut (sep : Char) : List Char → Option (List Char × List Char)
  | [] => none
  | c :: cs => if c = sep then some ([], cs) else (cut sep cs).map fun (a, b) => (c :: a, b)

/-- The text between two marks, where it begins with one and ends with another. -/
def unwrapped (mark : Char) : List Char → Option (List Char)
  | [] => none
  | c :: cs => if c = mark ∧ cs.getLast? = some mark then some cs.dropLast else none

theorem fields_ne_nil (sep : Char) (cs : List Char) : fields sep cs ≠ [] := by
  cases cs with
  | nil => simp [fields]
  | cons c cs => unfold fields; split <;> (try split) <;> simp

end ScriptedAgent.Text
