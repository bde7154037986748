import NamedStack.Context.Branch
import NamedStack.Options
import NamedStack.Scope

/-!
# The context of a program

Everything that is known of a program as it stands: the arms of its conditionals, the places where
names are read and written, and the effect of each opcode as far as the literals before it tell. A
program has a context only if its conditionals are balanced, every value that it reads from the
initial stack is declared there and, unless that is allowed, no hash is compared with a literal of
another size.
-/

namespace NamedStack

/-- The places where names occur, in program order. -/
abbrev Occurrences := List (Nat × Name)

namespace Occurrences

/-- The places of one name. -/
def of (o : Occurrences) (name : Name) : List Nat :=
  o.filterMap fun p => if p.2 = name then some p.1 else none

/-- The names that occur, sorted, each one once. -/
def names (o : Occurrences) : List Name := Bytes.sort (o.map (·.2)).eraseDups

/-- The number of places of a name after a position. -/
def countAfter (o : Occurrences) (name : Name) (i : Nat) : Nat :=
  ((o.of name).filter (i < ·)).length

end Occurrences

/-- What is known of a program. -/
structure Context where
  steps : List Step
  branches : List Branch
  /-- Reads of items of the initial stack. -/
  assumptions : Occurrences
  /-- Writes of names. -/
  assignments : Occurrences
  /-- Reads of other names. -/
  reads : Occurrences
  /-- The initial stack, bottom first. -/
  stack : List Name

namespace Context

/-- The counts of a multisignature check at a position, from the literals before it: the number of
keys directly in front, and the number of signatures in front of so many instructions more. -/
def multisigAt? (steps : List Step) (i : Nat) : Option Multisig := do
  let keys ← Step.intAt? steps (i - 1)
  if keys < 0 then none
  let sigs ← Step.intAt? steps (i - 2 - keys)
  if sigs < 0 then none
  return { sigs := sigs.toNat, keys := keys.toNat }

/-- A step at a position with the effect that the literals before it tell. The items of a
multisignature check are its two counts, the keys, the signatures and one more. -/
def refine (steps : List Step) (i : Nat) (s : Step) : Step :=
  match s.instr with
  | .op .pick | .op .roll =>
    match Step.intAt? steps (i - 1) with
    | some n => { s with args := [1, n + 2] }
    | none => s
  | .op .ifDup =>
    match Step.intAt? steps (i - 1) with
    | some n => { s with delta := if n = 0 then 0 else 1 }
    | none => s
  | .op .checkMultiSig => multisig 1
  | .op .checkMultiSigVerify => multisig 0
  | _ => s
where
  /-- The step as a multisignature check with so many results. -/
  multisig (results : Int) : Step :=
    match multisigAt? steps i with
    | some m =>
      let n := 3 + m.keys + m.sigs
      { s with
        delta := results - n
        args := (List.range n).map fun (k : Nat) => (k : Int) + 1
        multisig := some m }
    | none => s

/-- Whether a name stands for an item of the initial stack. -/
def isStackItem (t : Table) (name : Name) : Bool :=
  (t.lookup? name).map (·.kind) == some .stackItem

/-- The places of instructions that a test gives a name. -/
def occurrences (steps : List Step) (name? : Instr → Option Name) : Occurrences :=
  steps.zipIdx.filterMap fun p => (name? p.1.instr).map fun name => (p.2, name)

/-- The item of the initial stack that an instruction reads. -/
def assumed? (t : Table) : Instr → Option Name
  | .assume name => some name
  | .var name => if isStackItem t name then some name else none
  | _ => none

/-- The name that an instruction writes. -/
def assigned? : Instr → Option Name
  | .assign name => some name
  | _ => none

/-- The name, other than of an item of the initial stack, that an instruction reads. -/
def variableRead? (t : Table) : Instr → Option Name
  | .var name => if isStackItem t name then none else some name
  | _ => none

/-- The first comparison, from a position on, of a hash with a literal of another size. -/
def badComparison? (i : Nat) : List Instr → Option Cause
  | .op h :: lit :: eq :: rest =>
    match h.hashSize?, lit.literal?, decide (eq = .op .equal ∨ eq = .op .equalVerify) with
    | some want, some data, true =>
      if data.length = want then badComparison? (i + 1) (lit :: eq :: rest)
      else some (.badComparison i h.name data.length want)
    | _, _, _ => badComparison? (i + 1) (lit :: eq :: rest)
  | _ :: rest => badComparison? (i + 1) rest
  | [] => none

/-- The first places of the names that the initial stack does not have. -/
def undeclared (t : Table) (reads : Occurrences) : Occurrences :=
  reads.filter fun p => (t.place? p.2).isNone && (reads.of p.2).head? == some p.1

/-- The name to report of those that the initial stack does not have, with its first place; they are
counted round and round. -/
def undeclared? (t : Table) (reads : Occurrences) (reported : Nat) : Option (Nat × Name) :=
  let names := undeclared t reads
  names[reported % names.length]?

/-- The context of a program, given what its names stand for. -/
def of (t : Table) (o : Options) (steps : List Step) : Except Cause Context := do
  let branches ← Branch.ofInstrs (Step.instrs steps)
  let ctx : Context :=
    { steps := steps.zipIdx.map fun p => refine steps p.2 p.1
      branches
      assumptions := occurrences steps (assumed? t)
      assignments := occurrences steps assigned?
      reads := occurrences steps (variableRead? t)
      stack := t.stack }
  match undeclared? t ctx.assumptions o.reported with
  | some (i, name) => .error (.undeclared name i)
  | none =>
    match if o.allowInvalidComparisons then none else badComparison? 0 (Step.instrs steps) with
    | some c => .error c
    | none => return ctx

/-- The number of conditionals around a position. -/
def nestLevel (ctx : Context) (i : Nat) : Nat := Branch.nestLevel ctx.branches i

/-- The number of reads of an item of the initial stack after a position. -/
def followingReads (ctx : Context) (name : Name) (i : Nat) : Nat :=
  ctx.assumptions.countAfter name i

/-- The number of reads of a name after a position and before it is next assigned. -/
def followingUses (ctx : Context) (name : Name) (i : Nat) : Nat :=
  let limit := ((ctx.assignments.of name).find? (i < ·)).getD ctx.steps.length
  ((ctx.reads.of name).filter fun v => i < v && v < limit).length

/-- Whether a step adds to the height at a position: it does unless it lies in an arm in which the
position does not, except that the first arm of a conditional stands for the whole of it after its
end. -/
def counts (ctx : Context) (i pos : Nat) : Bool :=
  ctx.branches.all fun b =>
    !b.contains i || b.contains pos ||
      b.isTrue && !((b.sibling >>= (ctx.branches[·]?)).any fun s => s.contains pos)

/-- The height of the stack in front of a position. -/
def heightAt (ctx : Context) (i : Nat) : Int :=
  ctx.stack.length +
    ((ctx.steps.take i).zipIdx.filterMap fun p =>
      if ctx.counts p.2 i then some p.1.delta else none).foldr (· + ·) 0

/-- The net number of items that an arm adds; a conditional in it counts with its first arm. -/
def armDelta (ctx : Context) (b : Branch) : Int :=
  let stop := b.stop.getD b.start
  (((ctx.steps.take stop).zipIdx.drop b.start).filterMap fun p =>
    if ctx.branches.any fun n => n.nest > b.nest && n.contains p.2 && !n.isTrue then none
    else some p.1.delta).foldr (· + ·) 0

/-- The step after a position. -/
def next? (ctx : Context) (i : Nat) : Option Step := ctx.steps[i + 1]?

end Context

end NamedStack
