/-!
# Tables

Rows of cells are printed with the columns aligned: every cell but the last of its row is filled up
with spaces to the width of the widest cell in its column, and one space more.
-/

namespace Dcpu16.Text

/-- A row of a table: the cells that are aligned, and the last one. -/
structure TableRow where
  cells : List String
  last : String

def padRight (width : Nat) (cell : String) : String :=
  cell ++ String.ofList (List.replicate (width - cell.length) ' ')

def padLeft (width : Nat) (cell : String) : String :=
  String.ofList (List.replicate (width - cell.length) ' ') ++ cell

/-- The widths that are needed for some columns and for one more row. -/
def widen (widths : List Nat) (row : TableRow) : List Nat :=
  List.zipWith max widths (row.cells.map String.length)

/-- A row whose columns have the given widths. -/
def TableRow.text (widths : List Nat) (row : TableRow) : String :=
  String.join (List.zipWith (fun width cell => padRight width cell ++ " ") widths row.cells)
    ++ row.last ++ "\n"

/-- A table whose rows have `columns` aligned cells each. -/
def table (columns : Nat) (rows : List TableRow) : String :=
  let widths := rows.foldl widen (List.replicate columns 0)
  String.join (rows.map (TableRow.text widths))

end Dcpu16.Text
