/-! # Edit distance

The least number of single-character insertions, deletions and replacements that turn one text
into another, row by row: entry `j` of a row is the distance to the first `j` characters. -/

namespace SymbolicAlgebra.Text

/-- The rest of the next row: `left` is its entry just made, `diagonal` the entry above it, and the
list holds the target characters with the entries above them. -/
def nextEntries (c : Char) : Nat → Nat → List (Char × Nat) → List Nat
  | _, _, [] => []
  | left, diagonal, (d, above) :: rest =>
    let entry := min (min (left + 1) (above + 1)) (if c = d then diagonal else diagonal + 1)
    entry :: nextEntries c entry above rest

/-- The row after one more character of the source. -/
def nextRow (target : List Char) (c : Char) : List Nat → List Nat
  | [] => []
  | first :: rest => (first + 1) :: nextEntries c (first + 1) first (target.zip rest)

/-- The edit distance of two texts. -/
def editDistance (source target : List Char) : Nat :=
  let row := source.foldl (fun row c => nextRow target c row) (List.range (target.length + 1))
  row.getLastD 0

example : editDistance "cell".toList "ceil".toList = 1 := by decide +kernel

example : editDistance "flor".toList "floor".toList = 1 := by decide +kernel

example : editDistance "".toList "sign".toList = 4 := by decide +kernel

end SymbolicAlgebra.Text
