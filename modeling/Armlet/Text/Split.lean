/-!
# Cutting a list into pieces

`pieces p xs` cuts `xs` at every element that satisfies `p`; these elements are
dropped. There is always one more piece than there are cuts, and a piece may be
empty. The same function finds the lines of a text, the words of a line, and the
lines of a token stream.
-/

namespace Armlet

/-- Puts an element in front of the first piece. -/
def consPiece {α : Type} (x : α) : List (List α) → List (List α)
  | [] => [[x]]
  | piece :: rest => (x :: piece) :: rest

/-- The pieces of a list between the elements that satisfy `p`. -/
def pieces {α : Type} (p : α → Bool) (xs : List α) : List (List α) :=
  xs.foldr (fun x ps => if p x then [] :: ps else consPiece x ps) [[]]

variable {α : Type} {p : α → Bool}

@[simp]
theorem pieces_nil : pieces p [] = [[]] := rfl

theorem pieces_cons (x : α) (xs : List α) :
    pieces p (x :: xs) = if p x then [] :: pieces p xs else consPiece x (pieces p xs) := rfl

theorem length_consPiece {x : α} {ps : List (List α)} (h : ps ≠ []) :
    (consPiece x ps).length = ps.length := by
  cases ps with
  | nil => exact absurd rfl h
  | cons piece rest => rfl

theorem pieces_ne_nil (xs : List α) : pieces p xs ≠ [] := by
  cases xs with
  | nil => simp
  | cons x xs =>
    rw [pieces_cons]
    split
    · simp
    · cases pieces p xs <;> simp [consPiece]

/-- One more piece than cuts. -/
theorem length_pieces (xs : List α) : (pieces p xs).length = xs.countP p + 1 := by
  induction xs with
  | nil => rfl
  | cons x xs ih =>
    rw [pieces_cons]
    split
    · rename_i h
      simp [ih, h]
    · rename_i h
      rw [length_consPiece (pieces_ne_nil xs), ih, List.countP_cons_of_neg h]

end Armlet
