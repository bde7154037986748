import NamedStack.Peephole.Rules
import NamedStack.Resolve.Measure
import NamedStack.Resolve.Session

/-!
# Resolving a program

First the calls at the top level are expanded, from the left, until none is left; the rest of the
analysis then sees every reference. Next the values that need a slot on the alt stack are found and
the steps that fill the slots are put in front. Then passes follow: each one optimizes the program,
finds its context and replaces the first reference that it can, until nothing is left to replace.
Inner scripts are resolved the same way, each in a scope of its own with an empty initial stack, and
replaced if that changes them.

The recursion is bounded by numbers read off the program: the references in it, the depth of its
calls and the depth of its inner scripts. They are enough as long as no name stands for a parameter,
as in the table of a program. What parameters stand for is not counted in them: where a program
reads parameters, it can take more passes, or go on forever if a parameter leads back to itself. So
each of the bounds is taken larger by a number `extra`, and a result is one of resolving without
bounds if it is not that a bound was reached, whatever the number.
-/

namespace NamedStack

namespace Session

/-- How an inner script is resolved. -/
abbrev InnerResult := List Instr → SessionM (Option Replacement)

/-- The replacement of the instruction at a position. -/
def visit (inner : InnerResult) (ctx : Context) (i : Nat) (s : Step) :
    SessionM (Option Replacement) := do
  match s.instr with
  | .op _ | .push _ => return none
  | .assume name => return some (← readAssumption ctx i name s.shared)
  | .var name => return some (← readName ctx i name)
  | .assign name => writeName ctx i name
  | .call name args => return some (← expandCall i name args)
  | .inner ops => inner ops

/-- The first replacement for the steps from a position on. -/
def firstReplacement (inner : InnerResult) (ctx : Context) (i : Nat) :
    List Step → SessionM (Option (Nat × Replacement))
  | [] => return none
  | s :: rest => do
    match ← visit inner ctx i s with
    | some r => return some (i, r)
    | none => firstReplacement inner ctx (i + 1) rest

/-- One pass: whether something was replaced. -/
def pass (inner : InnerResult) (o : Options) (opt : Option Peephole.Optimizer) : SessionM Bool := do
  modify fun s => { s with tally := { s.tally with passes := s.tally.passes + 1 } }
  match opt with
  | some opt => modify fun s => { s with steps := opt.run s.steps }
  | none => pure ()
  let ctx ← currentContext o
  match ← firstReplacement inner ctx 0 ctx.steps with
  | some (i, new, n) =>
    splice i n new
    return true
  | none => return false

/-- The number of references left in the program. -/
def references (s : Session) : Nat := Measure.referencesList (Step.instrs s.steps)

/-- Passes until one of them leaves fewer references, after which it goes on with `next`, or nothing
is left to replace. Passes in between make inner scripts simpler. -/
def settle (next : SessionM Unit) (pass : SessionM Bool) : Nat → SessionM Unit
  | 0 => throw (.fault .endless)
  | n + 1 => do
    let before := (← get).references
    if ← pass then
      if (← get).references < before then next else settle next pass n
    else pure ()

/-- Passes until nothing is left to replace, for at most so many references. -/
def resolve (pass : SessionM Bool) (extra : Nat) : Nat → SessionM Unit
  | 0 => throw (.fault .endless)
  | n + 1 => do
    let slack := Measure.slackList (Step.instrs (← get).steps)
    settle (resolve pass extra n) pass (slack + extra + 1)

/-- Expand the calls in steps that stand at a position of the program. The calls that an expansion
leaves are handed on. Returns the position after the steps. -/
def expandWith (deeper : Nat → List Step → SessionM Nat) (o : Options) (i : Nat) :
    List Step → SessionM Nat
  | [] => return i
  | s :: rest => do
    match s.instr with
    | .call name args =>
      let _ ← currentContext o
      let (new, n) ← expandCall i name args
      splice i n new
      expandWith deeper o (← deeper i new) rest
    | _ => expandWith deeper o (i + 1) rest

/-- Expand the calls in steps that stand at a position of the program, where calls are nested so
deep in arguments of calls. -/
def expandDeep (o : Options) : Nat → Nat → List Step → SessionM Nat
  | 0 => expandWith (fun _ _ => throw (.fault .endless)) o
  | n + 1 => expandWith (expandDeep o n) o

/-- Expand all calls of the program, from the left. -/
def expandCalls (o : Options) (extra : Nat) : SessionM Unit := do
  let steps := (← get).steps
  let _ ← expandDeep o (Measure.callHeightList (Step.instrs steps) + extra) 0 steps

/-- Mark the second of two reads of one value by one opcode. -/
def markDuplicates (ds : List Duplicate) (steps : List Step) : List Step :=
  steps.zipIdx.map fun p => { p.1 with shared := ds.any fun d => d.index = p.2 }

/-- Find the values that need a slot and put the steps that fill the slots in front. -/
def route (o : Options) : SessionM Unit := do
  let ctx ← currentContext o
  let routing ← orRefuse (ctx.routing (← get).table o)
  match AltSlots.setup o.useAltStack (← get).steps routing with
  | .error (f, _) => throw (.fault f)
  | .ok (slots, setup) =>
    modify fun s => { s with slots, steps := setup ++ markDuplicates ctx.duplicates s.steps }

/-- Resolve the references of the program, given how inner scripts are resolved. -/
def resolveWith (inner : InnerResult) (o : Options) (opt : Option Peephole.Optimizer)
    (extra : Nat) : SessionM Unit := do
  expandCalls o extra
  route o
  resolve (pass inner o opt) extra ((← get).references + extra + 1)

/-- Resolve an inner script in a scope of its own, given how a program is resolved. -/
def innerWith (run : SessionM Unit) (ops : List Instr) : SessionM (Option Replacement) := do
  let s ← get
  let table := (s.table.enter .innerScript).declareStack []
  match run { steps := Step.ofList ops, table, tally := s.tally } with
  | .ok _ child =>
    set { s with tally := child.tally }
    let new := Step.instrs child.steps
    return if new = ops then none else some ([Step.of (.inner new)], 1)
  | .error f child =>
    set { s with tally := child.tally }
    throw f

/-- Resolve the references of a program whose inner scripts are nested so deep. -/
def resolveDeep (o : Options) (opt : Option Peephole.Optimizer) (extra : Nat) :
    Nat → SessionM Unit
  | 0 => resolveWith (fun _ => throw (.fault .endless)) o opt extra
  | n + 1 => resolveWith (innerWith (resolveDeep o opt extra n)) o opt extra

end Session

/-- What came of resolving a program: the session as it was left, and why it failed if it did. -/
structure Resolution where
  session : Session
  failure : Option Failure

/-- Resolve the references of a program, with what its names stand for, where all bounds are larger
by a number than the program alone asks for. -/
def resolveWithin (extra : Nat) (t : Table) (o : Options) (opt : Option Peephole.Optimizer)
    (ops : List Instr) : Resolution :=
  match Session.resolveDeep o opt extra (Measure.scriptDepth t ops + extra)
      { steps := Step.ofList ops, table := t } with
  | .ok _ s => { session := s, failure := none }
  | .error f s => { session := s, failure := some f }

/-- Resolve the references of a program, with what its names stand for. The bounds are those that
the program asks for if no name stands for a parameter. -/
def resolve (t : Table) (o : Options) (opt : Option Peephole.Optimizer) (ops : List Instr) :
    Resolution :=
  resolveWithin 0 t o opt ops

end NamedStack
