/-!
# Edit distance

The least number of insertions, deletions and substitutions of single elements that turn one list into another,
computed row by row.
-/

namespace GraphQL

/-- The next row of the table: `diagonal` and `left` are the entries before the current one in the last row and in
this one, `above` holds the rest of the last row. -/
def editRow {α : Type} [DecidableEq α] (a : α) (diagonal left : Nat) : List α → List Nat → List Nat
  | b :: bs, up :: above =>
    let entry := min (min (diagonal + if a = b then 0 else 1) (up + 1)) (left + 1)
    entry :: editRow a up entry bs above
  | _, _ => []

/-- The row of the table for one more element of the first list. -/
def nextEditRow {α : Type} [DecidableEq α] (bs : List α) (row : List Nat) (a : α) : List Nat :=
  match row with
  | [] => []
  | corner :: above => (corner + 1) :: editRow a corner (corner + 1) bs above

def editDistance {α : Type} [DecidableEq α] (as bs : List α) : Nat :=
  (as.foldl (nextEditRow bs) (List.range (bs.length + 1))).getLastD 0

end GraphQL
