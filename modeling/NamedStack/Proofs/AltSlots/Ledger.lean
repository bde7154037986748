import NamedStack.Proofs.AltSlots.Setup

/-!
# Runs of programs that use slots

A program that uses slots reads and writes them, does other things to the main stack, and puts items
above the slots for a while. The ledger says what this should come to: it keeps the value of each
name, and knows nothing of an alt stack. The engine, on the other hand, runs the setup and then the
steps for each read and write as soon as they are asked for.
-/

namespace NamedStack.AltSlots

open Script (Piece)
open Engine

/-- What a program does. -/
inductive Event where
  /-- Read a name, maybe for the last time. -/
  | get (name : Name) (last : Bool)
  /-- Write a name. -/
  | set (name : Name)
  /-- Run code that moves nothing between the stacks. -/
  | code (ts : List Script.Token)
  /-- Put the top of the main stack above the slots. -/
  | stash
  /-- Take the item back that was put above the slots last. -/
  | unstash

/-! ### The ledger -/

/-- What the values of names should be. -/
structure Ledger where
  main : Stack
  conds : List Cond := []
  /-- The values that have a slot. -/
  values : List (Name × Bytes)
  /-- The items above the slots, the last one first. -/
  extra : Stack := []

namespace Ledger

/-- The engine with the main stack alone. -/
def state (g : Ledger) : State := { main := g.main, conds := g.conds }

/-- The ledger after a token, if the engine can run it. -/
def token (valid : Checker) (g : Ledger) (t : Script.Token) : Option Ledger :=
  match step valid g.state t with
  | .ok s => some { g with main := s.main, conds := s.conds }
  | .error _ => none

/-- Read a name; nothing happens if it has no slot. -/
def get (g : Ledger) (name : Name) (last : Bool) : Ledger :=
  match g.values.lookup name with
  | none => g
  | some v =>
    { g with
      main := v :: g.main
      values := if last then g.values.filter fun p => p.1 != name else g.values }

/-- Write the top of the main stack to a name; nothing happens if it has no slot. -/
def set (g : Ledger) (name : Name) : Option Ledger :=
  match g.values.lookup name, g.main with
  | none, _ => some g
  | some _, [] => none
  | some _, w :: main =>
    some { g with main, values := g.values.map fun p => if p.1 = name then (name, w) else p }

/-- The ledger after an event. Slots are used in code that runs. -/
def step (valid : Checker) (g : Ledger) (e : Event) : Option Ledger :=
  match e with
  | .code ts => if ts.all keepsAlt then ts.foldlM (token valid) g else none
  | .get name last => if g.state.running then some (g.get name last) else none
  | .set name => if g.state.running then g.set name else none
  | .stash =>
    match g.state.running, g.main with
    | true, a :: main => some { g with main, extra := a :: g.extra }
    | _, _ => none
  | .unstash =>
    match g.state.running, g.extra with
    | true, a :: extra => some { g with main := a :: g.main, extra }
    | _, _ => none

/-- The ledger after events. -/
def run (valid : Checker) (g : Ledger) (es : List Event) : Option Ledger := es.foldlM (step valid) g

/-- The ledger at the start: the moved items of the initial stack have slots and the others stay on
the main stack, above what lies below them; then come the variables, with empty values. -/
def start (names : List Name) (items : List Bytes) (below : Stack) (r : Routing)
    (prog : List Step) : Ledger where
  main := (((names.zip items).filter fun p => !r.moves p.1).map (·.2)).reverse ++ below
  values := ((names.zip items).filter fun p => r.moves p.1) ++
    (r.newVariables prog).map fun x => (x, [])

end Ledger

/-! ### The engine -/

/-- The slots, and the engine whose alt stack they are on. -/
structure Live where
  slots : AltSlots
  state : State

/-- Why a run stops. -/
inductive Halt where
  /-- The alt stack is not as high as the slots say. -/
  | refused (c : Cause)
  /-- A step has no form in a script. -/
  | unwritten (p : Problem)
  /-- The engine fails. -/
  | failed (e : ExecError)

namespace Live

/-- Run tokens. -/
def tokens (valid : Checker) (l : Live) (ts : List Script.Token) : Except Halt Live :=
  match run valid l.state ts with
  | .ok state => .ok { l with state }
  | .error e => .error (.failed e)

/-- Run steps, after which the slots are new. -/
def steps (valid : Checker) (l : Live) (steps : List Step) (slots : AltSlots) : Except Halt Live :=
  match Script.pieces 0 (Step.instrs steps) with
  | .ok ps => tokens valid { l with slots } (ps.map Piece.token)
  | .error p => .error (.unwritten p)

/-- Do what an event asks for; slots are used at the height that the alt stack has. -/
def step (valid : Checker) (l : Live) (e : Event) : Except Halt Live :=
  match e with
  | .code ts => l.tokens valid ts
  | .get name last =>
    match l.slots.get l.state.alt.length name last with
    | .error c => .error (.refused c)
    | .ok none => .ok l
    | .ok (some (steps, slots)) => l.steps valid steps slots
  | .set name =>
    match l.slots.set l.state.alt.length name with
    | .error c => .error (.refused c)
    | .ok none => .ok l
    | .ok (some steps) => l.steps valid steps l.slots
  | .stash => l.steps valid [.op .toAltStack] l.slots
  | .unstash => l.steps valid [.op .fromAltStack] l.slots

/-- Do what events ask for. -/
def run (valid : Checker) (l : Live) (es : List Event) : Except Halt Live :=
  es.foldlM (step valid) l

/-- The alt stack holds the values of the ledger in the order of the slots, under the items above
them, and the main stack is that of the ledger. -/
structure Agrees (l : Live) (g : Ledger) : Prop where
  slots : l.slots = g.values.map (·.1)
  main : l.state.main = g.main
  conds : l.state.conds = g.conds
  alt : l.state.alt = g.extra ++ (g.values.map (·.2)).reverse

/-- A run agrees with the ledger, unless a limit is exceeded. -/
def Tracks (x : Except Halt Live) (g : Ledger) : Prop :=
  match x with
  | .ok l => l.Agrees g
  | .error h => h = .failed .limitExceeded

end Live

end NamedStack.AltSlots
