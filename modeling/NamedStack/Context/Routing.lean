import NamedStack.Context.Basic
import NamedStack.Machine.AltSlots

/-!
# Which values are routed, and which reads are doubled

A value has to live on the alt stack if its place on the main stack depends on the path taken. That
is so for an item of the initial stack that is read after an uneven conditional, one whose arms
leave different heights. It is so for a name that is assigned more than once, at least once inside
of a conditional, and for a name that is assigned before an uneven conditional and read after it.

When an opcode reads two items and both are reads of the same value, the second read must not take
the value away from the first.
-/

namespace NamedStack

/-- A second read of a value directly after a first one, both for the same opcode. -/
structure Duplicate where
  name : Name
  index : Nat
  opcode : Opcode
  deriving DecidableEq, Repr

/-- The doubled reads from a position on. -/
def Duplicate.from (i : Nat) : List Instr → List Duplicate
  | .assume a :: .assume b :: .op o :: rest =>
    let further := Duplicate.from (i + 1) (.assume b :: .op o :: rest)
    if a = b && o.isBinary then { name := b, index := i + 1, opcode := o } :: further else further
  | _ :: rest => Duplicate.from (i + 1) rest
  | [] => []

namespace Context

/-- The doubled reads of a program. -/
def duplicates (ctx : Context) : List Duplicate := Duplicate.from 0 (Step.instrs ctx.steps)

/-- A closed conditional: its two arms and the position of its end. -/
structure Conditional where
  first : Branch
  second : Option Branch
  endIf : Nat

/-- The closed conditionals of a program, in the order in which they open. -/
def conditionals (ctx : Context) : List Conditional :=
  ctx.branches.filterMap fun b =>
    match b.isTrue, b.endIf with
    | true, some endIf => some { first := b, second := b.sibling >>= (ctx.branches[·]?), endIf }
    | _, _ => none

/-- Whether the arms of a conditional leave different heights; a missing arm adds nothing. -/
def isUneven (ctx : Context) (c : Conditional) : Bool :=
  ctx.armDelta c.first != (c.second.map ctx.armDelta).getD 0

/-- The uneven conditionals of a program. -/
def uneven (ctx : Context) : List Conditional := ctx.conditionals.filter ctx.isUneven

/-- A conditional that ends between two positions. -/
def crossed? (cs : List Conditional) (after : Int) (before : Nat) : Option Conditional :=
  cs.find? fun c => c.endIf < before && after < c.endIf

/-- The first read of a value that comes after an uneven conditional, and that conditional. -/
def strandedRead? (ctx : Context) (uneven : List Conditional) (name : Name) :
    Option (Nat × Conditional) :=
  (ctx.assumptions.of name).findSome? fun i => (crossed? uneven (-1) i).map fun c => (i, c)

/-- The items of the initial stack that have to be routed, with their depths. -/
def routedAssumptions (ctx : Context) (t : Table) (enabled : Bool) (uneven : List Conditional) :
    Except Cause (List (Name × Int)) :=
  ctx.assumptions.names.foldlM (fun acc name =>
    match ctx.strandedRead? uneven name with
    | none => .ok acc
    | some (i, c) =>
      if enabled then
        match t.place? name with
        | some (_, depth) => .ok (acc ++ [(name, depth)])
        | none => .ok acc
      else .error (.uneven name i c.endIf)) []

/-- Whether an assigned name has to be routed. -/
def isMutable (ctx : Context) (uneven : List Conditional) (name : Name) : Bool :=
  let writes := ctx.assignments.of name
  let first := writes.head?.getD 0
  (writes.length > 1 && writes.any fun i => ctx.nestLevel i > 0) ||
    (ctx.reads.of name).any fun v =>
      match crossed? uneven first v with
      | some c => c.first.marker > first
      | none => false

/-- The assigned names that have to be routed, in the order of their first assignments. -/
def routedVariables (ctx : Context) (uneven : List Conditional) : List Name :=
  (ctx.assignments.names.filter (ctx.isMutable uneven)).mergeSort fun a b =>
    (ctx.assignments.of a).head?.getD 0 ≤ (ctx.assignments.of b).head?.getD 0

/-- The values of a program that have to be routed; it is a failure if an item of the initial stack
has to be routed and must not. -/
def routing (ctx : Context) (t : Table) (o : Options) : Except Cause Routing := do
  let uneven := ctx.uneven
  return {
    assumptions := ← ctx.routedAssumptions t o.useAltStack uneven
    vars := ctx.routedVariables uneven }

end Context

end NamedStack
