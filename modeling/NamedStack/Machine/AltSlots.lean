import NamedStack.Machine.State

/-!
# Slots on the alt stack

Values whose place on the main stack cannot be known are routed to the alt stack. They live in slots
at its bottom, in a fixed order; other items may lie above them. Reading a slot brings a copy of its
value to the main stack, or the value itself if it is read for the last time, which removes the
slot. Writing a slot replaces its value by the item on top of the main stack.
-/

namespace NamedStack

/-- The values to be routed to the alt stack. -/
structure Routing where
  /-- Items of the initial stack, with their depths there. -/
  assumptions : List (Name × Int) := []
  /-- Assigned names, in the order of their first assignments. -/
  vars : List Name := []
  deriving DecidableEq, Repr

/-- Whether nothing is routed. -/
def Routing.isEmpty (r : Routing) : Bool := r.assumptions.isEmpty && r.vars.isEmpty

/-- The names that have a slot, bottom of the alt stack first. -/
abbrev AltSlots := List Name

namespace AltSlots

/-- The index of a name's slot. -/
def slot? (slots : AltSlots) (name : Name) : Option Nat := slots.findIdx? (· = name)

/-- Whether a name has a slot. -/
def routed (slots : AltSlots) (name : Name) : Bool := (slots.slot? name).isSome

/-- Opcodes, as often as it is asked for. -/
def repeated (n : Nat) (os : List Opcode) : List Step := (List.replicate n (os.map Step.op)).flatten

/-- Items of the initial stack in the order in which they are moved: the deepest first, so that the
depths of the others do not change. -/
def byDepth (l : List (Name × Int)) : List (Name × Int) :=
  l.mergeSort fun a b => a.2 > b.2 || a.2 = b.2 && Bytes.le a.1 b.1

/-- The steps that move an item of the initial stack to the alt stack, unless its depth cannot be
pushed. -/
def moveIn (depth : Int) : Except Fault (List Step) :=
  (Instr.ofInt depth).map fun i => [.of i, .op .roll, .op .toAltStack]

/-- Give items of the initial stack slots. A depth that cannot be pushed ends this, with the slots
that were given before. -/
def addItems : List (Name × Int) → AltSlots × List Step →
    Except (Fault × AltSlots) (AltSlots × List Step)
  | [], acc => .ok acc
  | (name, depth) :: rest, (slots, setup) =>
    match moveIn depth with
    | .error f => .error (f, slots)
    | .ok steps => addItems rest (slots ++ [name], setup ++ steps)

/-- Whether a program assigns a name. -/
def assigns (steps : List Step) (name : Name) : Bool :=
  steps.any fun s => decide (s.instr = .assign name)

/-- Give variables slots with a placeholder each. -/
def addVariables (steps : List Step) : List Name → AltSlots × List Step → AltSlots × List Step
  | [], acc => acc
  | name :: rest, (slots, setup) =>
    if routed slots name || !assigns steps name then addVariables steps rest (slots, setup)
    else addVariables steps rest (slots ++ [name], setup ++ [.number 0, .op .toAltStack])

/-- The slots for a routing, and the steps that fill them at the start of a program. Items of the
initial stack get slots only if that is enabled. -/
def setup (enabled : Bool) (steps : List Step) (r : Routing) :
    Except (Fault × AltSlots) (AltSlots × List Step) := do
  let moved ← addItems (if enabled then byDepth r.assumptions else []) ([], [])
  return addVariables steps r.vars moved

/-- The number of items above a slot; it is a failure if the alt stack does not reach up to it. -/
def above (slots : AltSlots) (altHeight : Nat) (name : Name) : Except Cause (Option (Nat × Nat)) :=
  match slots.slot? name with
  | none => .ok none
  | some i =>
    if altHeight < i + 1 then .error (.altStack name i altHeight)
    else .ok (some (i, altHeight - 1 - i))

/-- The steps that bring a routed value to the main stack, and the slots after that; nothing for a
name without a slot. -/
def get (slots : AltSlots) (altHeight : Nat) (name : Name) (last : Bool) :
    Except Cause (Option (List Step × AltSlots)) := do
  match ← slots.above altHeight name with
  | none => return none
  | some (i, n) =>
    let fetch := repeated n [.fromAltStack] ++ [Step.op .fromAltStack]
    let putBack := repeated n [.swap, .toAltStack]
    if last then return some (fetch ++ putBack, slots.eraseIdx i)
    else return some (fetch ++ [.op .dup, .op .toAltStack] ++ putBack, slots)

/-- The steps that move the item on top of the main stack into a name's slot; nothing for a name
without one. -/
def set (slots : AltSlots) (altHeight : Nat) (name : Name) : Except Cause (Option (List Step)) := do
  match ← slots.above altHeight name with
  | none => return none
  | some (_, n) =>
    return some (repeated n [.fromAltStack] ++
      [.op .fromAltStack, .op .drop, .number n, .op .roll, .op .toAltStack] ++
      repeated n [.toAltStack])

end AltSlots

end NamedStack
