/-!
# Lines

A text is cut into lines at each `\n`. The line feed is not part of the line, nor is one carriage
return right before it; what follows the last line feed is a line if it is not empty, and keeps
a carriage return at its end. Main statements: cutting loses nothing, and a text may be cut behind
a line feed first.
-/

namespace Dcpu16.Text

/-- Puts a character in front of the first of some pieces, where a line feed is a piece's end. -/
def consPiece (c : Char) (pieces : List (List Char)) : List (List Char) :=
  if c = '\n' then [c] :: pieces
  else match pieces with
    | [] => [[c]]
    | piece :: pieces => (c :: piece) :: pieces

/-- Cuts a text after each line feed, losing no character. -/
def pieces (cs : List Char) : List (List Char) :=
  cs.foldr consPiece []

/-- The characters of a piece without its line end. -/
def chomp (piece : List Char) : List Char :=
  match piece.reverse with
  | '\n' :: '\r' :: line => line.reverse
  | '\n' :: line => line.reverse
  | _ => piece

def lines (s : String) : List String :=
  (pieces s.toList).map fun piece => String.ofList (chomp piece)

@[simp] theorem flatten_consPiece (c : Char) (ps : List (List Char)) :
    (consPiece c ps).flatten = c :: ps.flatten := by
  unfold consPiece
  split
  · simp
  · cases ps <;> simp

/-- Cutting loses nothing. -/
@[simp] theorem flatten_pieces (cs : List Char) : (pieces cs).flatten = cs := by
  induction cs with
  | nil => rfl
  | cons c cs ih =>
    change (consPiece c (pieces cs)).flatten = c :: cs
    simp [ih]

@[simp] theorem pieces_nil : pieces [] = [] := rfl

@[simp] theorem pieces_cons (c : Char) (cs : List Char) :
    pieces (c :: cs) = consPiece c (pieces cs) := rfl

theorem pieces_ne_nil {cs : List Char} (h : cs ≠ []) : pieces cs ≠ [] := by
  intro hp
  apply h
  rw [← flatten_pieces cs, hp, List.flatten_nil]

theorem consPiece_append (c : Char) {ps : List (List Char)} (h : ps ≠ [])
    (qs : List (List Char)) : consPiece c (ps ++ qs) = consPiece c ps ++ qs := by
  obtain ⟨p, ps, rfl⟩ := List.exists_cons_of_ne_nil h
  unfold consPiece
  split <;> rfl

/-- What follows a line feed is cut on its own. -/
theorem pieces_append_newline (xs ys : List Char) :
    pieces (xs ++ '\n' :: ys) = pieces (xs ++ ['\n']) ++ pieces ys := by
  induction xs with
  | nil => rfl
  | cons c xs ih =>
    rw [List.cons_append, List.cons_append, pieces_cons, pieces_cons, ih,
      consPiece_append c (pieces_ne_nil (by simp))]

end Dcpu16.Text
