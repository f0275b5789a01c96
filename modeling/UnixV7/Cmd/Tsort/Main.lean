import UnixV7.Library.Fuel
import Mathlib.Data.List.Induction
import Mathlib.Logic.Function.Basic

/-!
# Topological sort

`tsort.c`. A node is known by its place in the list of nodes, and its field `live` is kept apart
from the others, which do not change once the pairs are read. The empty element at the end of the
list is not listed. The words are those that `fscanf` gives for `%511s`.
-/

namespace UnixV7.Tsort

open Function Fuel

/-- The marks on a node. -/
inductive Live
  | DEAD
  | LIVE
  | ONCE
  | TWICE
  deriving DecidableEq

/-- A node: its name and its immediate predecessors. -/
structure Node where
  name : String
  inedges : List ℕ
  deriving DecidableEq

/-- The nodes and their marks. -/
structure Graph where
  nodes : List Node
  live : ℕ → Live

/-- Why a run has no result. -/
inductive Fault
  | timeout
  | error (s : String)

/-- What is written in one pass of the last loop: notes about a cycle, and a name. -/
structure Line where
  notes : List String
  name : String
  deriving DecidableEq

namespace Graph

/-- The list before the first pair. -/
def empty : Graph := ⟨[], fun _ => .DEAD⟩

/-- `i->name` -/
def name (g : Graph) (i : ℕ) : Option String := g.nodes[i]?.map Node.name

/-- `i->inedges` -/
def inedges (g : Graph) (i : ℕ) : List ℕ := (g.nodes[i]?.map Node.inedges).getD []

/-- Turn a string into a node. -/
def index (g : Graph) (s : String) : Graph × ℕ :=
  match g.nodes.findIdx? (·.name = s) with
  | some i => (g, i)
  | none => (⟨g.nodes ++ [⟨s, []⟩], update g.live g.nodes.length .LIVE⟩, g.nodes.length)

/-- Is `i` present on the predecessor list of `j`? -/
def present (g : Graph) (i j : ℕ) : Bool := (g.inedges j).contains i

/-- Is there any live predecessor for `i`? -/
def anypred (g : Graph) (i : ℕ) : Bool := (g.inedges i).any (g.live · = .LIVE)

/-- Put `i` on the predecessor list of `j`. -/
def link (g : Graph) (i j : ℕ) : Graph :=
  { g with nodes := g.nodes.modify j fun n => { n with inedges := i :: n.inedges } }

/-- One pair of the input. -/
def pair (g : Graph) (precedes follows : String) : Graph :=
  let (g, i) := g.index precedes
  let (g, j) := g.index follows
  if i = j || g.present i j then g else g.link i j

/-- The first loop of `main`. -/
def read : List String → Graph → Except Fault Graph
  | [], g => .ok g
  | [_], _ => .error (.error "odd data")
  | precedes :: follows :: words, g => read words (g.pair precedes follows)

/-- The first predecessor of `i` that is not dead. -/
def follow (g : Graph) (i : ℕ) : Option ℕ := (g.inedges i).find? (g.live · ≠ .DEAD)

/-- The loops of `findloop`: the nodes passed, from one mark to another, and where they end. -/
def walk (mark mark' : Live) (failure : String) :
    ℕ → Graph → ℕ → Except Fault (List ℕ × Graph × ℕ)
  | 0, _, _ => .error .timeout
  | fuel + 1, g, i =>
      if g.live i = mark then
        let g := { g with live := update g.live i mark' }
        match g.follow i with
        | none => .error (.error failure)
        | some j =>
            walk mark mark' failure fuel g j >>= fun passed =>
              .ok (i :: passed.1, passed.2.1, passed.2.2)
      else .ok ([], g, i)

/-- The nodes that are not dead are live again. -/
def revive (g : Graph) : Graph :=
  { g with live := fun j => if j < g.nodes.length ∧ g.live j ≠ .DEAD then .LIVE else g.live j }

/-- Given that there is a cycle, find some node in it. -/
def findloop (g : Graph) (fuel : ℕ) : Except Fault (List String × Graph × ℕ) :=
  let i := ((List.range g.nodes.length).find? (g.live · = .LIVE)).getD g.nodes.length
  walk .LIVE .ONCE "error 1" fuel g i >>= fun passed =>
    walk .ONCE .TWICE "error 2" fuel passed.2.1 passed.2.2 >>= fun passed =>
      .ok ("cycle in reverse order" :: passed.1.filterMap passed.2.1.name, passed.2.1.revive,
        passed.2.2)

/-- The live nodes without a live predecessor: the first of them is printed next, and one in a
cycle if there is none. -/
def sweep (g : Graph) (fuel : ℕ) : Except Fault (List String × Graph × ℕ) :=
  match (List.range g.nodes.length).find? fun i => g.live i = .LIVE && !g.anypred i with
  | some i => .ok ([], g, i)
  | none => g.findloop fuel

/-- `i->live = DEAD` -/
def kill (g : Graph) (i : ℕ) : Graph := { g with live := update g.live i .DEAD }

/-- The second loop of `main`. -/
def order : ℕ → Graph → Except Fault (List Line)
  | 0, _ => .error .timeout
  | fuel + 1, g =>
      if (List.range g.nodes.length).any (g.live · = .LIVE) then
        g.sweep fuel >>= fun found =>
          order fuel (found.2.1.kill found.2.2) >>= fun lines =>
            .ok (⟨found.1, (found.2.1.name found.2.2).getD ""⟩ :: lines)
      else .ok []

end Graph

/-- `main` -/
def main (words : List String) (fuel : ℕ) : Except Fault (List Line) :=
  Graph.empty.read words >>= Graph.order fuel

end UnixV7.Tsort
