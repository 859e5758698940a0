/-!
# Groups of join keys

A join may equate several pairs of key positions. Pairs that share a position on either side equate
all their columns, so they are folded into one group, and the columns of a group become one.
-/

namespace ShellQuery

/-- Key positions that hold equal values once every pair is satisfied, each side in the order in
which its positions became known. -/
structure KeyGroup where
  left : List Nat
  right : List Nat
deriving DecidableEq, Repr

namespace KeyGroup

/-- Whether a pair of key positions shares one with the group. -/
def touches (g : KeyGroup) (pair : Nat × Nat) : Bool :=
  g.left.contains pair.1 || g.right.contains pair.2

/-- Takes over the positions of another group. -/
def absorb (g h : KeyGroup) : KeyGroup :=
  ⟨(g.left ++ h.left).eraseDups, (g.right ++ h.right).eraseDups⟩

/-- The group of a single pair. -/
def ofPair (pair : Nat × Nat) : KeyGroup :=
  ⟨[pair.1], [pair.2]⟩

/-- Adds a pair to the first group it touches, which takes over the others it touches; a pair that
touches none starts a group of its own. -/
def addPair (groups : List KeyGroup) (pair : Nat × Nat) : List KeyGroup :=
  match groups with
  | [] => [ofPair pair]
  | g :: gs =>
    if g.touches pair then
      let others := gs.filter (·.touches pair)
      (others.reverse.foldl absorb g).absorb (ofPair pair) :: gs.filter (!·.touches pair)
    else g :: addPair gs pair

/-- Folds key pairs that share a position into groups, in the order of their first pairs. -/
def ofPairs (pairs : List (Nat × Nat)) : List KeyGroup :=
  pairs.foldl addPair []

end KeyGroup

end ShellQuery
