import SymbolicRegression.Program.Basic
import SymbolicRegression.Random.Uniform

/-!
# Crossover

A child of two programs: the first parent with a random subtree replaced by a random subtree of
the second. A child longer than the limit is dropped in favour of the first parent.

Grafting joins the parts that two places cut out, whatever they are; splicing also insists on
places in order and on a child that is exactly one formula.

## Main definitions

* `SymbolicRegression.Sites` — the places of the two subtrees.
* `SymbolicRegression.chooseSites` — random places.
* `SymbolicRegression.graft` — the parts that two places cut out, joined.
* `SymbolicRegression.splice` — the child that two places give.
* `SymbolicRegression.crossover` — the child of two programs.
-/

set_option autoImplicit false

namespace SymbolicRegression

/-- The stretch of the first parent that goes and the stretch of the second that comes. -/
structure Sites where
  /-- Where the first stretch starts. -/
  start1 : Nat
  /-- Where the first stretch stops. -/
  stop1 : Nat
  /-- Where the second stretch starts. -/
  start2 : Nat
  /-- Where the second stretch stops. -/
  stop2 : Nat
  deriving DecidableEq, Repr

/-- The length of the child when the first parent has `length1` opcodes. -/
def Sites.childLength (sites : Sites) (length1 : Nat) : Nat :=
  length1 - (sites.stop1 - sites.start1) + (sites.stop2 - sites.start2)

/-- Where the subtree at an offset stops, or the end of the sequence if it holds no subtree
there. -/
def Program.extent (p : Program) (start : Nat) : Nat := (subtreeEnd p.code start).getD p.length

variable {σ : Type} [WordSource σ]

/-- A random subtree of either parent. -/
def chooseSites (parent1 parent2 : Program) : Draw σ Sites := do
  let start1 ← Draw.below parent1.length
  let start2 ← Draw.below parent2.length
  return ⟨start1, parent1.extent start1, start2, parent2.extent start2⟩

/-- What stands before the first stretch, the second stretch, and what stands after the first
one. -/
def graft (parent1 parent2 : Program) (sites : Sites) : Except Fault Program :=
  if sites.start1 ≤ parent1.length ∧ sites.stop1 ≤ parent1.length ∧
      sites.start2 ≤ sites.stop2 ∧ sites.stop2 ≤ parent2.length then
    .ok ⟨parent1.code.take sites.start1 ++ (parent2.code.take sites.stop2).drop sites.start2 ++
      parent1.code.drop sites.stop1⟩
  else .error .sitesOutside

/-- The first parent with its stretch replaced by that of the second, which must give exactly one
formula. -/
def splice (parent1 parent2 : Program) (sites : Sites) : Except Fault Program := do
  if sites.stop1 < sites.start1 then throw .sitesOutside
  (← graft parent1 parent2 sites).certify

/-- The child of two programs, or the first parent when the child is longer than `maxLength`. -/
def crossover (parent1 parent2 : Program) (maxLength : Nat) : Draw σ Program := do
  let sites ← chooseSites parent1 parent2
  if maxLength < sites.childLength parent1.length then return parent1
  else splice parent1 parent2 sites

end SymbolicRegression
