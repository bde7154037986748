import NamedStack.Log
import NamedStack.Metrics.Registry
import NamedStack.Resolve.Run
import NamedStack.Script.Token
import NamedStack.Source.Parser

/-!
# Compiling one unit

A source is read, its references are resolved, the result is optimized and serialized. With names
left as they are, the program is only checked and optimized, and has no script. A fault while
compiling is a failure like others, of a kind of its own; a fault while reading is not caught. Each
attempt also says what was counted and what is logged.
-/

namespace NamedStack

/-- One unit to compile. -/
structure Source where
  name : Name
  content : Bytes
  /-- Whether the content is a serialized script in hexadecimal instead of a program. -/
  hex : Bool := false
  deriving DecidableEq, Repr

/-- What compiling a unit gives. -/
structure Output where
  name : Name
  ops : List Instr
  /-- The serialized program, unless names were left as they are. -/
  script : Option Bytes
  replacements : Nat
  deriving DecidableEq, Repr

/-- What is counted while compiling. -/
structure Counts where
  compiles : Nat := 0
  errors : Nat := 0
  tally : Tally := {}
  deriving DecidableEq, Repr

namespace Counts

/-- Two counts together. -/
def add (a b : Counts) : Counts :=
  { compiles := a.compiles + b.compiles
    errors := a.errors + b.errors
    tally :=
      { passes := a.tally.passes + b.tally.passes
        replaced := a.tally.replaced + b.tally.replaced } }

/-- The counters with their names. -/
def registry (c : Counts) : Metrics.Registry :=
  { counters :=
      [(text "txsc.compile", Int64.ofNat c.compiles),
        (text "txsc.compile.error", Int64.ofNat c.errors),
        (text "txsc.inline.pass", Int64.ofNat c.tally.passes),
        (text "txsc.inline.replace", Int64.ofNat c.tally.replaced)] }

end Counts

/-- What came of compiling a unit. -/
structure Attempt where
  outcome : Except Failure Output
  counts : Counts
  /-- The keys and values of each log entry. -/
  entries : List (List Scalar)

/-- What a fault says of itself. -/
def Fault.message : Fault → Bytes
  | .outOfRange => text "index out of range"
  | .wrongType => text "wrong type of value"
  | .raised msg => msg
  | .endless => text "no end in sight"

namespace Source

/-- The program in a source. -/
def read (s : Source) : Except Failure Program :=
  if s.hex then
    match Script.decodeHex s.content with
    | .ok ops => .ok { ops }
    | .error c => fail c
  else Program.parse s.content

end Source

namespace Program

/-- Compile a program with its names resolved, and say how much was done. -/
def compileResolved (name : Name) (p : Program) (o : Options) : Except Failure Output × Tally :=
  let optimizer : Peephole.Optimizer := { enabled := o.peephole }
  let r := NamedStack.resolve (Table.ofProgram p) o (some optimizer) p.ops
  let outcome : Except Failure Output :=
    match r.failure with
    | some f => .error (f.context "inline")
    | none =>
      let ops := Step.instrs (optimizer.run r.session.steps)
      match Script.serialize ops with
      | .ok script => .ok { name, ops, script, replacements := r.session.replacements }
      | .error e => .error ((Failure.problem e).context "emit")
  (outcome, r.session.tally)

/-- Check and optimize a program with its names as they are. -/
def compileNamed (name : Name) (p : Program) (o : Options) : Except Failure Output :=
  match Context.of (Table.ofProgram p) o (Step.ofList p.ops) with
  | .error c => .error ((Failure.of c).context "contextualize")
  | .ok ctx =>
    let optimizer : Peephole.Optimizer := { enabled := o.peephole }
    .ok { name, ops := Step.instrs (optimizer.run ctx.steps), script := none, replacements := 0 }

/-- Compile a program, and say how much was done. -/
def produce (name : Name) (p : Program) (o : Options) : Except Failure Output × Tally :=
  if o.inlineNames then p.compileResolved name o else (p.compileNamed name o, {})

/-- The log entry of a unit that compiled. -/
def logOutput (out : Output) : List Scalar :=
  [.str (text "ops"), .int out.ops.length, .str (text "bytes"), .int (out.script.getD []).length,
    .str (text "replacements"), .int out.replacements]

/-- Compile a program. -/
def compile (name : Name) (p : Program) (o : Options) : Attempt :=
  match p.produce name o with
  | (.ok out, tally) =>
    { outcome := .ok out, counts := { compiles := 1, tally }, entries := [logOutput out] }
  | (.error (.problem e), tally) =>
    { outcome := .error (.problem e)
      counts := { compiles := 1, errors := 1, tally }
      entries := [Log.failure (some e.report) []] }
  | (.error (.fault f), tally) =>
    let e : Problem := { cause := .internal f.message }
    { outcome := .error (.problem e)
      counts := { compiles := 1, errors := 1, tally }
      entries := [Log.recovered (.str f.message), Log.failure (some e.report) []] }

end Program

/-- Read and compile a unit. -/
def Source.compile (s : Source) (o : Options) : Attempt :=
  match s.read with
  | .ok p => p.compile s.name o
  | .error (.problem e) =>
    let e := e.note (.context (text "parse"))
    { outcome := .error (.problem e)
      counts := { errors := 1 }
      entries := [Log.failure (some e.report) []] }
  | .error (.fault f) => { outcome := .error (.fault f), counts := {}, entries := [] }

end NamedStack
