import NamedStack.Context.Routing
import NamedStack.Resolve.Expand

/-!
# Resolving one reference

A session holds a program while its references are resolved, with what its names stand for and the
slots on the alt stack. This module says what a single reference is replaced by: a read by the steps
that bring its value to the top, or by nothing if the value is there already and is not needed
again; a write by the steps that store into a slot, or by nothing once no later read needs the name.
-/

namespace NamedStack

/-- How much was done, inner scripts included. -/
structure Tally where
  /-- Passes over a program. -/
  passes : Nat := 0
  /-- References replaced. -/
  replaced : Nat := 0
  deriving DecidableEq, Repr

/-- A program while its references are resolved. -/
structure Session where
  steps : List Step
  table : Table
  slots : AltSlots := []
  /-- References replaced in this program itself. -/
  replacements : Nat := 0
  tally : Tally := {}
  deriving DecidableEq, Repr

/-- Computations on a session; a failure keeps what was done so far. -/
abbrev SessionM := EStateM Failure Session

namespace Session

/-- Fail with a cause. -/
def refuse {α : Type} (c : Cause) : SessionM α := throw (.of c)

/-- What has a cause instead of a result fails with it. -/
def orRefuse {α : Type} : Except Cause α → SessionM α
  | .ok a => pure a
  | .error c => refuse c

/-- What has a failure instead of a result fails with it. -/
def orFail {α : Type} : Except Failure α → SessionM α
  | .ok a => pure a
  | .error f => throw f

/-- Bind the assigned names that stand for nothing yet. -/
def bindAssigned (t : Table) (steps : List Step) : Table :=
  steps.foldl (fun t s => match s.instr with
    | .assign name =>
      if (t.lookup? name).isSome then t else t.declare ⟨name, .variable, .assigned 0⟩
    | _ => t) t

/-- Record how often each variable is assigned. -/
def recordAssigned (t : Table) (assignments : Occurrences) : Table :=
  assignments.names.foldl (fun t name => match t.lookup? name with
    | some { kind := .variable, .. } =>
      t.update ⟨name, .variable, .assigned (assignments.of name).length⟩
    | _ => t) t

/-- The context of the session's program. The steps take on what it says about their effects. -/
def currentContext (o : Options) : SessionM Context := do
  modify fun s => { s with table := bindAssigned s.table s.steps }
  let s ← get
  let ctx ← orRefuse (Context.of s.table o s.steps)
  modify fun s =>
    { s with steps := ctx.steps, table := recordAssigned s.table ctx.assignments }
  return ctx

/-- Replace steps of the program from a position on. -/
def splice (i n : Nat) (new : List Step) : SessionM Unit :=
  modify fun s =>
    { s with
      steps := s.steps.take i ++ new ++ s.steps.drop (i + n)
      replacements := s.replacements + 1
      tally := { s.tally with replaced := s.tally.replaced + 1 } }

/-- A replacement: the new steps and the number of steps that they replace. -/
abbrev Replacement := List Step × Nat

/-- The machine in front of a position. -/
def machineAt (ctx : Context) (i : Nat) : SessionM Machine :=
  match (Machine.start ctx.stack).run (ctx.steps.take i) with
  | .ok m => pure m
  | .error _ => throw (.fault .outOfRange)

/-- The steps that bring the item at a position of the stack to the top: the item itself if it is
moved, else a copy. -/
def fetch (ctx : Context) (i : Nat) (name : Name) (pos : Int) (move : Bool) :
    Except Cause Replacement :=
  let depth := ctx.heightAt i - 1 - pos
  if depth < 0 then .error (.notLocated name i (some depth))
  else if move && depth = 0 then .ok ([], 1)
  else .ok ([.number depth, .op (if move then .roll else .pick)], 1)

/-- The reads at the front of steps whose values lie next to each other on the initial stack, in
order, and have no slot. -/
def adjacentReads (t : Table) (slots : AltSlots) (above : Option Int) : List Step → List Step
  | [] => []
  | s :: rest =>
    match s.instr with
    | .assume name =>
      if slots.routed name then []
      else match t.place? name with
        | some (_, depth) =>
          if above.all fun d => depth = d - 1 then s :: adjacentReads t slots (some depth) rest
          else []
        | none => []
    | _ => []

/-- Whether reads at a position find their values on top of the stack in order, each read for the
last time. -/
def onTop (ctx : Context) (m : Machine) (i : Nat) (reads : List Step) : Bool :=
  reads.zipIdx.all fun p =>
    match p.1.instr with
    | .assume name =>
      !p.1.shared && ctx.followingReads name (i + p.2) = 0 && ctx.nestLevel (i + p.2) = 0 &&
        (m.locate? name).any fun (pos : Nat) =>
          (pos : Int) = ctx.heightAt i - reads.length + p.2
    | _ => false

/-- The number of reads at a position that need no steps: the longest run of adjacent reads that
find their values on top. -/
def elidable (ctx : Context) (t : Table) (slots : AltSlots) (m : Machine) (i : Nat) : Nat :=
  let reads := adjacentReads t slots none (ctx.steps.drop i)
  longest reads reads.length
where
  /-- The longest front of the reads, of at most that length, that is on top. -/
  longest (reads : List Step) : Nat → Nat
    | 0 => 0
    | n + 1 => if onTop ctx m i (reads.take (n + 1)) then n + 1 else longest reads n

/-- The place of a read value: where the machine has it, else a copy of it, else its place on the
initial stack. -/
def placeOf? (t : Table) (m : Machine) (name : Name) : Option Int :=
  match m.locate? name with
  | some pos => some pos
  | none =>
    match m.locateAny? name with
    | some pos => some pos
    | none => (t.place? name).map (·.1)

/-- The steps from a slot of the alt stack, if the name has one. -/
def fromSlot (m : Machine) (name : Name) (last : Bool) : SessionM (Option Replacement) := do
  match ← orRefuse ((← get).slots.get m.altHeight name last) with
  | some (steps, slots) =>
    modify fun s => { s with slots }
    return some (steps, 1)
  | none => return none

/-- The replacement of a read of the initial stack. -/
def readAssumption (ctx : Context) (i : Nat) (name : Name) (shared : Bool) :
    SessionM Replacement := do
  let m ← machineAt ctx i
  let last := ctx.followingReads name i = 0 && ctx.nestLevel i = 0
  match ← fromSlot m name last with
  | some r => return r
  | none =>
    let s ← get
    match elidable ctx s.table s.slots m i with
    | 0 =>
      match placeOf? s.table m name with
      | some pos => orRefuse (fetch ctx i name pos (last && !shared))
      | none => refuse (.undeclared name i)
    | n => return ([], n)

/-- The replacement of a read of an assigned name. -/
def readVariable (ctx : Context) (i : Nat) (name : Name) : SessionM Replacement := do
  let m ← machineAt ctx i
  let last := ctx.followingUses name i = 0 && ctx.nestLevel i = 0
  match ← fromSlot m name last with
  | some r => return r
  | none =>
    match m.locate? name with
    | some pos => orRefuse (fetch ctx i name pos last)
    | none => refuse (.notLocated name i none)

/-- The replacement of a write. It stays in place, to label its value, while a later read may need
it. -/
def writeName (ctx : Context) (i : Nat) (name : Name) : SessionM (Option Replacement) := do
  let m ← machineAt ctx i
  match ← orRefuse ((← get).slots.set m.altHeight name) with
  | some steps => return some (steps, 1)
  | none =>
    if ctx.reads.countAfter name i > 0 || ctx.assumptions.countAfter name i > 0 then return none
    else return some ([], 1)

/-- A data item for the position of a failure. -/
def atIndex (i : Nat) : Note := .data [Cause.natItem "index" i]

/-- The replacement of a read by name, which may be of the initial stack, of a parameter or of an
assigned name. -/
def readName (ctx : Context) (i : Nat) (name : Name) : SessionM Replacement := do
  match (← get).table.lookup? name with
  | none => throw ((Failure.of (.undefined name)).note (atIndex i))
  | some sym =>
    match sym.kind, sym.value with
    | .stackItem, _ => readAssumption ctx i name false
    | .variable, _ => readVariable ctx i name
    | .argument, .content ops => return (Step.ofList ops, 1)
    | .argument, _ => throw (.fault .wrongType)
    | kind, _ => refuse (.wrongKind name kind.render)

/-- The replacement of a call. -/
def expandCall (i : Nat) (name : Name) (args : List (List Instr)) : SessionM Replacement := do
  match Expand.call (← get).table name args with
  | .ok ops => return (Step.ofList ops, 1)
  | .error f => throw (f.note (atIndex i))

end Session

end NamedStack
