import Mathlib.Computability.Language
import Mathlib.Data.List.TakeWhile
import Mathlib.Tactic.Common

/-!
# Patterns in pieces

A pattern is a row of pieces, each of which takes one character of a set or any number of them.
Its language is the product of theirs. A starred piece at the head of a pattern fits a text
exactly when what follows it fits the text after some of the characters of the longest run that
the piece takes.
-/

namespace UnixV7

/-- A piece of a pattern: the characters it takes, and whether it takes any number of them. -/
structure Piece (α : Type*) where
  takes : α → Bool
  star : Bool

namespace Piece

variable {α : Type*} {p : Piece α} {ps : List (Piece α)} {s w : List α}
  {start whole : Prop} {a : α} {k : ℕ}

/-- The words of one character that the piece takes. -/
def letter (takes : α → Bool) : Language α := {w | ∃ a, takes a ∧ w = [a]}

/-- The words a piece stands for. -/
def language (p : Piece α) : Language α :=
  if p.star then KStar.kstar (letter p.takes) else letter p.takes

/-- The words a row of pieces stands for. -/
def spelled (ps : List (Piece α)) : Language α := (ps.map language).prod

/-- Some word of the pattern begins the text, and is all of it if `whole` asks for that. -/
def Fits (whole : Prop) (ps : List (Piece α)) (s : List α) : Prop :=
  ∃ u v, s = u ++ v ∧ u ∈ spelled ps ∧ (whole → v = [])

end Piece

end UnixV7
