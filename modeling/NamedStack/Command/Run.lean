import NamedStack.Address.ScriptHash
import NamedStack.Command.Directory
import NamedStack.Command.Flags
import NamedStack.Compile.Batch
import NamedStack.Engine.Run
import NamedStack.Script.Disassembly

/-!
# The command

The command compiles the named files, or what it is given as input, and prints the result of each.
All that it does is a function of its arguments, the environment, its input and the files: an exit
code and what is written to the two outputs.
-/

namespace NamedStack.Command

/-- What the command did. -/
structure Outcome where
  code : Nat := 0
  out : Bytes := []
  err : Bytes := []
  deriving DecidableEq, Repr

namespace Outcome

/-- End with a line of complaint. -/
def refuse (code : Nat) (line : Bytes) : Outcome := { code, err := line ++ text "\n" }

/-- What was written before, and then this. -/
def after (out err : Bytes) (o : Outcome) : Outcome :=
  { o with out := out ++ o.out, err := err ++ o.err }

end Outcome

/-- A complaint of the command. -/
def complain (b : Bytes) : Bytes := text "txsc: " ++ b

/-- What a failure is reported as; a fault has only its own message. -/
def diagnose : Failure → Bytes
  | .problem p => p.report.diagnostic
  | .fault f => f.message

/-- The signature script that pushes the given values; only literals and small integers are taken.
-/
def pushes (values : Bytes) : Except Failure Bytes := do
  let ops ← Program.assemble values
  match ops.zipIdx.find? fun p => p.1.literal?.isNone with
  | some (i, index) =>
    fail (.badFlag (i.render ++ text " at " ++ Bytes.ofNat index ++ text " is not a push"))
  | none => (Script.serialize ops).mapError .problem

/-- What the command is going to do. -/
structure Plan where
  settings : Settings
  net : Network
  /-- The signature script, if scripts are to be run. -/
  sig : Option Bytes
  files : List Bytes

/-- The names of the rules, each followed by its forms. -/
def ruleLines : Bytes :=
  Peephole.rules.flatMap fun r =>
    text r.name ++ text "\n" ++ r.forms.flatMap fun f => text "\t" ++ f ++ text "\n"

/-- The formats of the output. -/
def formats : List Bytes := [text "hex", text "asm", text "ir"]

/-- Check the settings, and say what to do with the rest of the arguments; or the outcome, if there
is nothing left to do. -/
def check (defaults s : Settings) (files : List Bytes) : Except Outcome Plan :=
  if s.rules then .error { out := ruleLines }
  else if !formats.contains s.format then .error { code := 2, err := usage defaults }
  else if !s.options.inlineNames && s.format ≠ text "ir" then
    .error (.refuse 2 (complain (text "-inline=false needs -f ir")))
  else
    match Network.ofName s.net with
    | .error c => .error (.refuse 2 (complain c.report.diagnostic))
    | .ok net =>
      if s.exec.isEmpty then .ok { settings := s, net, sig := none, files }
      else
        match pushes s.exec with
        | .error f => .error (.refuse 2 (complain (text "-exec: " ++ diagnose f)))
        | .ok sig => .ok { settings := s, net, sig := some sig, files }

/-- What to do for an environment and arguments; or the outcome, if there is nothing left to do. -/
def plan (env : Environment) (args : List Bytes) : Except Outcome Plan :=
  match defaults env with
  | .error c => .error (.refuse 1 c.report.diagnostic)
  | .ok d =>
    match readFlags d args with
    | .error e => .error { code := if e = .help then 0 else 2, err := e.line ++ usage d }
    | .ok (s, files) => check d s files

namespace Plan

/-- The source with a name and a content. -/
def source (p : Plan) (name content : Bytes) : Source :=
  { name, content, hex := p.settings.hex }

/-- The sources in the named files. -/
def readSources (p : Plan) (read : Bytes → Except FileError Bytes) :
    List Bytes → Except Outcome (List Source)
  | [] => .ok []
  | name :: rest =>
    match read name with
    | .error e => .error (.refuse 2 (complain (e.message name)))
    | .ok content =>
      match p.readSources read rest with
      | .error o => .error o
      | .ok others => .ok (p.source name content :: others)

/-- The sources to compile: the named files, or else the input. -/
def sources (p : Plan) (input : Bytes) (read : Bytes → Except FileError Bytes) :
    Except Outcome (List Source) :=
  if p.files.isEmpty then .ok [p.source (text "-") input] else p.readSources read p.files

/-- A result in the format of the output. -/
def format (p : Plan) (r : Output) : Except Cause Bytes :=
  if p.settings.format = text "asm" then Script.disassemble (r.script.getD [])
  else if p.settings.format = text "ir" then .ok (Instr.renderList r.ops)
  else .ok (Hex.encode (r.script.getD []))

/-- The lines for the output that pays to a script's hash. -/
def scriptHashLines (p : Plan) (label script : Bytes) : Bytes :=
  let s := ScriptHash.of script p.net
  label ++ text "hash160 " ++ Hex.encode s.hash ++ text "\n" ++
    label ++ text "output " ++ Hex.encode s.output ++ text "\n" ++
    label ++ text "address " ++ s.address ++ text "\n"

/-- Print one result, with a label in front of each line. -/
def print (p : Plan) (label : Bytes) (r : Output) : Outcome :=
  match p.format r with
  | .error c => .refuse 1 (complain c.report.message)
  | .ok line =>
    let out := label ++ line ++ text "\n" ++
      (match p.settings.p2sh, r.script with
        | true, some script => p.scriptHashLines label script
        | _, _ => [])
    match p.sig, r.script with
    | some sig, some script =>
      match Engine.execute script sig with
      | .ok _ => { out := out ++ label ++ text "exec ok\n" }
      | .error e =>
        (Outcome.refuse 1 (complain (label ++ (Cause.execute e).report.diagnostic))).after out []
    | _, _ => { out }

/-- Print results one after another, up to one that fails. -/
def printAll (p : Plan) (several : Bool) : List Output → Outcome
  | [] => {}
  | r :: rest =>
    let first := p.print (if several then r.name ++ text ": " else []) r
    if first.code = 0 then (p.printAll several rest).after first.out first.err else first

/-- The log of a batch. -/
def log (stamp : Log.Stamp) (sources : List Source) (s : Batch.State) : Bytes :=
  (sources.zip s.attempts).flatMap fun q =>
    q.2.entries.flatMap (Log.entry { stamp with unit := q.1.name })

/-- The detail of a failure on a line of its own. -/
def detailLine : Failure → Bytes
  | .problem e => if e.report.detail.isEmpty then [] else e.report.detail ++ text "\n"
  | .fault _ => []

/-- The outcome of a batch that failed; a fault of a job ends the command at once. -/
def failed (f : Failure) : Outcome :=
  match f with
  | .problem _ => { code := 1, err := complain (diagnose f) ++ text "\n" ++ detailLine f }
  | .fault fault => .refuse 2 (text "panic: " ++ fault.message)

/-- Compile sources and print the results. -/
def compile (p : Plan) (stamp : Log.Stamp) (sources : List Source) : Outcome :=
  let s := Batch.compileAll sources p.settings.options
  let log := if p.settings.verbose then log stamp sources s else []
  match s.conclude with
  | .error (.failed f) => (failed f).after [] log
  | .error .calledOff => (Outcome.refuse 1 (complain (text "context canceled"))).after [] log
  | .ok results =>
    let o := (p.printAll (1 < results.length) results).after [] log
    if p.settings.verbose && o.code = 0 then
      let counts := (s.attempts.map (·.counts)).foldl Counts.add {}
      { o with err := o.err ++ counts.registry.counterLines }
    else o

/-- Carry out a plan. -/
def run (p : Plan) (stamp : Log.Stamp) (input : Bytes) (read : Bytes → Except FileError Bytes) :
    Outcome :=
  match p.sources input read with
  | .error o => o
  | .ok sources => p.compile stamp sources

end Plan

/-- Run the command. -/
def run (stamp : Log.Stamp) (env : Environment) (args : List Bytes) (input : Bytes)
    (read : Bytes → Except FileError Bytes) : Outcome :=
  match plan env args with
  | .error o => o
  | .ok p => p.run stamp input read

end NamedStack.Command
