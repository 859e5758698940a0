import ShellQuery.Awk.Test
import ShellQuery.Shell.Word

/-!
# Steps of a pipeline

Each step is one command that reads rows and writes rows. Positions of fields count from zero here
and from one in the commands.
-/

namespace ShellQuery

/-- A step of a pipeline. -/
inductive Step where
  /-- Prints the fields at the given positions. -/
  | project (positions : List Nat)
  /-- Prints the fields at the given positions of the rows that pass every test. -/
  | filter (tests : List Awk.RowTest) (positions : List Nat)
  /-- Sorts the rows by the fields at the given positions, the first one first. -/
  | sort (positions : List Nat)
  /-- Keeps a random sample of at most `size` rows. -/
  | sample (size : Nat) (seed : Option Nat)
  /-- Prints the number of rows, or of rows whose field at the position is not empty. -/
  | count (position : Option Nat)
deriving Repr

namespace Step

/-- The fields at some positions, as the arguments of a print command. -/
def fieldList (positions : List Nat) : String :=
  String.intercalate "," (positions.map Awk.fieldRef)

/-- The start of an awk command that reads and writes fields parted by the delimiter. -/
def awkWith (d : String) : String :=
  "awk -F'" ++ d ++ "' 'OFS=\"" ++ d ++ "\" "

/-- A sort key that consists of one field. -/
def sortKey (position : Nat) : String :=
  " -k " ++ toString (position + 1) ++ "," ++ toString (position + 1)

/-- The sampling program: the first `n` rows fill a reservoir, and each later row takes a random
place in it with the right probability. -/
def reservoirProgram : String :=
  "BEGIN \x7b srand(seed) \x7d " ++
  "NR <= n \x7b reservoir[NR] = $0 \x7d " ++
  "NR > n \x7b M = int(rand() * NR) + 1; if (M <= n) \x7b reservoir[M] = $0 \x7d \x7d " ++
  "END \x7b for (i = 1; i <= n && i <= NR; i++) \x7b print reservoir[i] \x7d \x7d"

/-- The command of a step on rows with the given field delimiter. -/
def text (delimiter : Char) : Step → String
  | project positions =>
    awkWith (String.ofList [delimiter]) ++ "\x7b print " ++ fieldList positions ++ " \x7d'"
  | filter tests positions =>
    awkWith (String.ofList [delimiter]) ++ "\x7b if (" ++ Awk.RowTest.conjunctionText tests ++
      ") \x7b print " ++ fieldList positions ++ " \x7d \x7d'"
  | sort positions =>
    "sort -t" ++ Shell.delimiter delimiter ++ String.join (positions.map sortKey)
  | sample size seed =>
    "awk -v seed=" ++ (match seed with | some n => toString n | none => "$RANDOM") ++
      " -v n=" ++ toString size ++ " '" ++ reservoirProgram ++ "'"
  | count none => "awk 'END \x7b print NR \x7d'"
  | count (some position) =>
    "awk -F'" ++ String.ofList [delimiter] ++ "' '" ++ Awk.fieldRef position ++
      " != \"\" \x7b n++ \x7d END \x7b print n + 0 \x7d'"

end Step

end ShellQuery
