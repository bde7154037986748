import NamedStack.Engine.Effect
import NamedStack.Script.Token

/-!
# Running scripts

The engine runs the tokens of a script one after another on a main stack and a second stack beside
it. Conditionals keep a stack of their own, which says whether code is run; opcodes are counted also
where it is not. A spend is accepted if a script that only pushes data, and then the script of the
output, run to their ends and leave a true value on top.
-/

namespace NamedStack.Engine

/-- The state of an open conditional. -/
inductive Cond where
  /-- The arm that runs. -/
  | taken
  /-- The arm that does not run. -/
  | skipped
  /-- A conditional inside of code that does not run. -/
  | inert
  deriving DecidableEq, Repr

namespace Cond

/-- The state after the other arm begins. -/
def toggle : Cond → Cond
  | .taken => .skipped
  | .skipped => .taken
  | .inert => .inert

/-- The state of a conditional that opens in code that runs. -/
def ofBool (b : Bool) : Cond := if b then .taken else .skipped

end Cond

/-- What the engine works on. -/
structure State where
  main : Stack
  alt : Stack := []
  /-- The open conditionals, the innermost first. -/
  conds : List Cond := []
  /-- The number of opcodes counted so far. -/
  ops : Nat := 0
  deriving DecidableEq, Repr

/-- The most opcodes of a script, those that only push not counted. -/
def maxOps : Nat := 201

/-- The most items on both stacks together. -/
def maxItems : Nat := 1000

namespace State

/-- Whether code is run. -/
def running (s : State) : Bool :=
  match s.conds with
  | [] => true
  | c :: _ => c = .taken

/-- Count opcodes, up to the limit. -/
def count (n : Nat) (s : State) : Except ExecError State :=
  if maxOps < s.ops + n then .error .limitExceeded else .ok { s with ops := s.ops + n }

/-- The state, if it has not too many items. -/
def bounded (s : State) : Except ExecError State :=
  if maxItems < s.main.length + s.alt.length then .error .limitExceeded else .ok s

/-- Put an item on the main stack. -/
def push (item : Bytes) (s : State) : State := { s with main := item :: s.main }

/-- Act on the main stack. -/
def onMain (f : Stack → Option Stack) (s : State) : Except ExecError State :=
  match f s.main with
  | some main => .ok { s with main }
  | none => .error .opcodeFailed

/-- Open a conditional; in code that runs, an item says which arm is taken. -/
def openCond (test : Bytes → Bool) (s : State) : Except ExecError State :=
  if s.running then
    match s.main with
    | a :: main => .ok { s with main, conds := .ofBool (test a) :: s.conds }
    | [] => .error .opcodeFailed
  else .ok { s with conds := .inert :: s.conds }

/-- Go on to the other arm of the innermost conditional. -/
def flip (s : State) : Except ExecError State :=
  match s.conds with
  | c :: conds => .ok { s with conds := c.toggle :: conds }
  | [] => .error .unbalanced

/-- Close the innermost conditional. -/
def close (s : State) : Except ExecError State :=
  match s.conds with
  | _ :: conds => .ok { s with conds }
  | [] => .error .unbalanced

end State

/-- Run an opcode that is no part of a conditional. -/
def perform (valid : Checker) (o : Opcode) (s : State) : Except ExecError State :=
  match o with
  | .toAltStack =>
    match s.main with
    | a :: main => .ok { s with main, alt := a :: s.alt }
    | [] => .error .opcodeFailed
  | .fromAltStack =>
    match s.alt with
    | a :: alt => .ok { s with main := a :: s.main, alt }
    | [] => .error .opcodeFailed
  | .checkMultiSig | .checkMultiSigVerify =>
    match multisig s.main with
    | none => .error .opcodeFailed
    | some m => do (← s.count m.keys.length).onMain (effect valid o)
  | o => s.onMain (effect valid o)

/-- Run an opcode: those of conditionals always, the others in code that runs. -/
def exec (valid : Checker) (o : Opcode) (s : State) : Except ExecError State :=
  match o with
  | .opIf => s.openCond isTrue
  | .opNotIf => s.openCond fun a => !isTrue a
  | .opElse => s.flip
  | .opEndIf => s.close
  | o => if s.running then perform valid o s else .ok s

/-- Whether a code fails wherever it stands, also in code that does not run. -/
def isForbidden (code : UInt8) : Bool :=
  code = 0x65 || code = 0x66 ||
    match Opcode.ofCode? code with
    | some (.disabled _) => true
    | _ => false

/-- The codes up to this one only push. -/
def lastPush : UInt8 := 0x60

/-- Run a code without data. -/
def execCode (valid : Checker) (code : UInt8) (s : State) : Except ExecError State :=
  match Opcode.ofCode? code with
  | some o => exec valid o s
  | none => if s.running then .error .opcodeFailed else .ok s

/-- Run a token. -/
def step (valid : Checker) (s : State) (t : Script.Token) : Except ExecError State :=
  match t with
  | .push _ data =>
    if Script.maxElement < data.length then .error .limitExceeded
    else (if s.running then s.push data else s).bounded
  | .op code =>
    if isForbidden code then .error .opcodeFailed
    else do
      let s ← if lastPush < code then s.count 1 else .ok s
      (← execCode valid code s).bounded

/-- Run tokens one after another. -/
def run (valid : Checker) (s : State) (ts : List Script.Token) : Except ExecError State :=
  ts.foldlM (step valid) s

/-- Run tokens to the end, where no conditional may be open. -/
def complete (valid : Checker) (s : State) (ts : List Script.Token) : Except ExecError State := do
  let s ← run valid s ts
  if s.conds = [] then .ok s else .error .unbalanced

/-- The tokens of a script that is not too long and has no flaw. -/
def load (script : Bytes) : Except ExecError (List Script.Token) :=
  if Script.maxLen < script.length then .error .scriptTooBig
  else
    match Script.tokens script with
    | (_, some _) => .error .malformed
    | (ts, none) => .ok ts

/-- Whether tokens only push. -/
def isPushOnly (ts : List Script.Token) : Bool := ts.all fun t => t.code ≤ lastPush

/-- Whether the run that left a stack is accepted. -/
def judge : Stack → Except ExecError Unit
  | [] => .error .emptyStack
  | a :: _ => if isTrue a then .ok () else .error .falseResult

/-- Whether a signature script spends an output with a script. Between the two only the main stack
is kept. -/
def spend (valid : Checker) (output sig : Bytes) : Except ExecError Unit := do
  if output.isEmpty && sig.isEmpty then .error .bothEmpty
  else
    let first ← load sig
    if !isPushOnly first then .error .notPushOnly
    else
      let second ← load output
      let s ← complete valid { main := [] } first
      let s ← complete valid { main := s.main } second
      judge s.main

/-- Whether a signature script spends an output, where no signature is valid. -/
def execute (output sig : Bytes) : Except ExecError Unit := spend .none output sig

end NamedStack.Engine
