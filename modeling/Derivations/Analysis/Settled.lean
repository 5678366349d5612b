import Derivations.Symbol

/-!
# Settled Symbols

Some symbols can be settled one after the other: a symbol is settled if one of
its alternatives consists of settled symbols only. Symbols with an empty
alternative are settled first. They are then taken out of all other
alternatives, which may have become empty by that, and so on.

The work ends with a round in which no alternative is empty. Every other round
settles at least one symbol, so as many rounds as there are symbols are always
enough.

## Main definitions

* `Choices`: A symbol with its alternatives.
* `settledWithin`: What a number of rounds settle.
* `settled`: All symbols that can be settled.
-/

namespace Derivations

/-- A symbol with its alternatives. -/
abbrev Choices := Symbol × List (List Symbol)

namespace Choices

/-- Whether there is an empty alternative. -/
def isSettled (c : Choices) : Bool :=
  c.2.any List.isEmpty

/-- The alternatives without given symbols. -/
def without (known : List Symbol) (c : Choices) : Choices :=
  (c.1, c.2.map fun rhs => rhs.filter (!known.contains ·))

end Choices

/-- The symbols settled in a number of rounds. -/
def settledWithin : Nat → List Choices → List Symbol
  | 0, _ => []
  | rounds + 1, pending =>
    match (pending.filter (·.isSettled)).map (·.1) with
    | [] => []
    | sym :: more =>
      let known := sym :: more
      known ++ settledWithin rounds ((pending.filter (!·.isSettled)).map (·.without known))

/-- The symbols that have an alternative of settled symbols only. -/
def settled (choices : List Choices) : List Symbol :=
  settledWithin choices.length choices

end Derivations
