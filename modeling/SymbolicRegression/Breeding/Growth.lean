import SymbolicRegression.Program.Basic
import SymbolicRegression.Random.Uniform
import SymbolicRegression.Storage

/-!
# Random growth

Random programs, grown into a buffer of fixed capacity. The root is always an operator. Below it
a fair coin decides between an operator and a terminal until the depth budget is spent, and then
only terminals are placed. A program that does not fit into the buffer is given up and another
one is tried.

## Main definitions

* `SymbolicRegression.Buffer` — the slots that growth writes.
* `SymbolicRegression.Growing.grow` — grow a subtree at a slot.
* `SymbolicRegression.Generator.ofLimits` — a generator of programs within limits.
* `SymbolicRegression.Generator.generate` — a random program.
-/

set_option autoImplicit false

namespace SymbolicRegression

/-- A row of slots, all zero at first. The slots past the last one written are not stored. -/
structure Buffer where
  /-- The number of slots. -/
  capacity : Nat
  /-- The slots up to the last one written. -/
  stored : Array Opcode

namespace Buffer

/-- A buffer with nothing written. -/
def empty (capacity : Nat) : Buffer := ⟨capacity, #[]⟩

/-- The opcode in a slot. -/
def get (b : Buffer) (slot : Nat) : Opcode := b.stored.getD slot 0

/-- Write an opcode into a slot. -/
def write (b : Buffer) (slot : Nat) (op : Opcode) : Buffer :=
  if slot < b.stored.size then { b with stored := b.stored.setIfInBounds slot op }
  else { b with stored := (b.stored ++ Array.replicate (slot - b.stored.size) 0).push op }

/-- The opcodes in the first `n` slots. -/
def take (b : Buffer) (n : Nat) : List Opcode := (List.range n).map b.get

end Buffer

variable {σ : Type} [WordSource σ]

/-- The opcode of a random operator. -/
def randomOperator : Draw σ Opcode := do
  return Operator.firstOpcode + UInt8.ofNat (← Draw.below Operator.all.length)

/-- The opcode of a random terminal among `terminals`. An opcode has eight bits, so terminals past
255 are counted from zero again. -/
def randomTerminal (terminals : Nat) : Draw σ Opcode := do
  return UInt8.ofNat (← Draw.below terminals)

/-- A computation that draws words and writes a buffer. -/
abbrev Growing (σ : Type) := StateT Buffer (Draw σ)

namespace Growing

/-- Write a drawn opcode into a slot. -/
def place (slot : Nat) (draw : Draw σ Opcode) : Growing σ Unit := do
  let op ← draw
  modify (·.write slot op)

/-- Place a random terminal. The slot after it is next. -/
def growLeaf (terminals slot : Nat) : Growing σ (Option Nat) := do
  place slot (randomTerminal terminals)
  return some (slot + 1)

/-- Place a random operator, and after it two operands, each grown from the slot where what
stands before it ends. -/
def growNode (operand : Nat → Growing σ (Option Nat)) (slot : Nat) : Growing σ (Option Nat) := do
  place slot randomOperator
  match ← operand (slot + 1) with
  | none => return none
  | some right => operand right

/-- Grow an operand of at most the given depth at a slot, and give the slot after it; nothing if
the buffer is too small. -/
def growOperand (terminals : Nat) : (depth slot : Nat) → Growing σ (Option Nat)
  | 0, slot => do
    if slot < (← get).capacity then growLeaf terminals slot else return none
  | depth + 1, slot => do
    if slot < (← get).capacity then
      if ← (Draw.coin 0.5 : Draw σ Bool) then growNode (growOperand terminals depth) slot
      else growLeaf terminals slot
    else return none

/-- Grow a subtree at a slot, and give the slot after it; nothing if the buffer is too small. At
the first slot stands the root, which is an operator whatever the depth is. -/
def grow (terminals depth slot : Nat) : Growing σ (Option Nat) := do
  if slot = 0 then
    if 0 < (← get).capacity then growNode (growOperand terminals (depth - 1)) 0
    else return none
  else growOperand terminals depth slot

/-- Grow programs until one fits, at most `attempts` times. -/
def growUntilFit (terminals depth : Nat) : Nat → Growing σ Program
  | 0 => throw .supplyExhausted
  | attempts + 1 => do
    match ← grow terminals depth 0 with
    | some stop => return ⟨(← get).take stop⟩
    | none => growUntilFit terminals depth attempts

end Growing

/-- A source of random programs over the first `terminals` terminals. -/
structure Generator where
  /-- The slots for growth. -/
  buffer : Buffer
  /-- The number of terminals. -/
  terminals : Nat
  /-- The depth budget below the root. -/
  depth : Nat

namespace Generator

/-- A generator with nothing in its buffer. -/
def fresh (maxLength terminals depth : Nat) : Generator :=
  ⟨Buffer.empty maxLength, terminals, depth⟩

/-- A generator of programs of at most `maxLength` opcodes. There must be a terminal, and an opcode
for every terminal. An opcode takes one byte. -/
def ofLimits (maxLength terminals depth : Nat) : Except Fault Generator := do
  if terminals = 0 ∨ Operator.firstOpcode.toNat < terminals then throw (.terminalRange terminals)
  Storage.reserve 1 maxLength
  return fresh maxLength terminals depth

/-- Grow a subtree at a slot. -/
def grow (g : Generator) (depth slot : Nat) : Draw σ (Option Nat × Generator) := do
  let (stop, buffer) ← (Growing.grow g.terminals depth slot).run g.buffer
  return (stop, { g with buffer })

/-- A random program. Every attempt takes a word, so no more attempts are made than there are
words left. -/
def generate (g : Generator) : Draw σ (Program × Generator) := do
  let (p, buffer) ← (Growing.growUntilFit g.terminals g.depth (← get).left).run g.buffer
  return (p, { g with buffer })

/-- As many random programs as asked for, after those made before. -/
def generateMany : Nat → Generator → Array Program → Draw σ (Array Program)
  | 0, _, done => return done
  | n + 1, g, done => do
    let (p, g) ← g.generate
    generateMany n g (done.push p)

end Generator

end SymbolicRegression
