import NamedStack.Step

/-!
# The simulated stack

A machine that runs steps on items of which only names and known numbers are kept, so that named
values can be located. An opcode that finds too few items takes anonymous ones. After a conditional
the items on which both arms agree are kept; if the arms leave different heights, the first arm
counts. The only thing that stops the machine is a `PICK` or `ROLL` with a known negative number.

Stacks are lists with the top first; positions are counted from the bottom.
-/

namespace NamedStack

/-- A simulated item. -/
structure Item where
  /-- The value that the item holds; empty if it is anonymous. -/
  name : Name := []
  /-- Whether the item is a copy of the named value. -/
  copy : Bool := false
  /-- The number that the item holds, if it is known. -/
  num : Option Int := none
  deriving DecidableEq, Repr

namespace Item

/-- An item of which nothing is known. -/
def anonymous : Item := {}

/-- An item that holds a known number. -/
def number (n : Int) : Item := { num := some n }

/-- A copy of an item. -/
def duplicate (i : Item) : Item := if i.name.isEmpty then i else { i with copy := true }

/-- The written form of an item. -/
def render (i : Item) : Bytes :=
  if i.name.isEmpty then
    match i.num with
    | some n => Bytes.ofInt n
    | none => text "_"
  else if i.copy then i.name ++ text "'" else i.name

end Item

/-- A conditional that is open. -/
structure Frame where
  /-- The main stack when the conditional was entered. -/
  entry : List Item
  /-- The alt stack when the conditional was entered. -/
  alt : List Item
  /-- The main stack at the end of the arm before, once there was an `ELSE`. -/
  arm : Option (List Item) := none
  deriving DecidableEq, Repr

/-- A simulated machine. -/
structure Machine where
  /-- The names of the items on the initial stack, bottom first. -/
  initial : List Name := []
  main : List Item := []
  alt : List Item := []
  frames : List Frame := []
  deriving DecidableEq, Repr

namespace Machine

/-- A machine with an initial stack, bottom first. -/
def start (names : List Name) : Machine :=
  { initial := names, main := (names.map fun n => { name := n }).reverse }

/-- The machine as it was at its start. -/
def reset (m : Machine) : Machine := start m.initial

/-- The height of the main stack. -/
def height (m : Machine) : Nat := m.main.length

/-- The height of the alt stack. -/
def altHeight (m : Machine) : Nat := m.alt.length

/-- The position of the highest item that satisfies a test. -/
def highest? (m : Machine) (p : Item → Bool) : Option Nat :=
  (m.main.findIdx? p).map fun i => m.height - 1 - i

/-- The position of the item that holds a named value and is no copy. -/
def locate? (m : Machine) (name : Name) : Option Nat :=
  m.highest? fun i => i.name = name && !i.copy

/-- The position of the highest item that holds a named value, copy or not. -/
def locateAny? (m : Machine) (name : Name) : Option Nat :=
  m.highest? fun i => i.name = name

/-- Put items on the main stack, the last one on top. -/
def push (m : Machine) (items : List Item) : Machine := { m with main := items.reverse ++ m.main }

/-- The item at a distance from the top. -/
def peek (m : Machine) (n : Nat) : Item := m.main[n]?.getD .anonymous

/-- Take the item on top. -/
def pop (m : Machine) : Item × Machine := (m.peek 0, { m with main := m.main.tail })

/-- Drop items from the top. -/
def drop (m : Machine) (n : Nat) : Machine := { m with main := m.main.drop n }

/-- Take the item at a distance from the top. -/
def take (m : Machine) (n : Nat) : Item × Machine :=
  (m.peek n, { m with main := m.main.eraseIdx n })

/-- Put copies of items at distances from the top on the stack, the last one on top. -/
def pushCopies (m : Machine) (ns : List Nat) : Machine :=
  m.push (ns.map fun n => (m.peek n).duplicate)

/-- Move the item at a distance from the top to the top. -/
def raise (m : Machine) (n : Nat) : Machine := (m.take n).2.push [(m.take n).1]

/-- Move the item at a distance from the top, and then the one above it, to the top. -/
def raisePair (m : Machine) (n : Nat) : Machine :=
  let (a, m) := m.take n
  let (b, m) := m.take (n - 1)
  m.push [a, b]

/-- Name the item on top; no other item keeps that name. -/
def assign (m : Machine) (name : Name) : Machine :=
  let cleared := m.main.map fun i =>
    if i.name = name then { i with name := [], copy := false } else i
  match cleared with
  | [] => { m with main := [{ name }] }
  | top :: rest => { m with main := { top with name, copy := false } :: rest }

/-- Join the stacks that two arms leave. -/
def merge (first second : List Item) : List Item :=
  if first.length = second.length then
    List.zipWith (fun a b => if a = b then a else .anonymous) first second
  else first

/-- Run an opcode whose effect is its number of arguments and its height change. -/
def generic (m : Machine) (s : Step) : Machine :=
  let m := m.drop s.args.length
  m.push (List.replicate (s.args.length + s.delta).toNat .anonymous)

/-- Run an opcode. The machine stops at a known negative number for `PICK` or `ROLL`; the machine it
leaves then has taken the number. -/
def runOp (m : Machine) (s : Step) (o : Opcode) : Except Machine Machine :=
  match o with
  | .small n => .ok (m.push [.number n.val])
  | .opIf | .opNotIf =>
    let m := m.drop 1
    .ok { m with frames := { entry := m.main, alt := m.alt } :: m.frames }
  | .opElse =>
    match m.frames with
    | [] => .ok m
    | f :: rest =>
      .ok { m with main := f.entry, alt := f.alt, frames := { f with arm := some m.main } :: rest }
  | .opEndIf =>
    match m.frames with
    | [] => .ok m
    | f :: rest =>
      let main := match f.arm with
        | some arm => merge arm m.main
        | none => merge m.main f.entry
      .ok { m with main, frames := rest }
  | .toAltStack =>
    let (i, m) := m.pop
    .ok { m with alt := i :: m.alt }
  | .fromAltStack =>
    match m.alt with
    | [] => .ok (m.push [.anonymous])
    | i :: rest => .ok ({ m with alt := rest }.push [i])
  | .ifDup =>
    let top := m.peek 0
    let doubles := match top.num with
      | some n => n != 0
      | none => s.delta == 1
    .ok (if doubles then m.push [top.duplicate] else m)
  | .depth => .ok (m.push [.number m.height])
  | .drop => .ok (m.drop 1)
  | .drop2 => .ok (m.drop 2)
  | .dup => .ok (m.pushCopies [0])
  | .dup2 => .ok (m.pushCopies [1, 0])
  | .dup3 => .ok (m.pushCopies [2, 1, 0])
  | .nip => .ok (m.take 1).2
  | .over => .ok (m.pushCopies [1])
  | .over2 => .ok (m.pushCopies [3, 2])
  | .pick =>
    let (i, m) := m.pop
    match i.num with
    | none => .ok (m.push [.anonymous])
    | some n => if n < 0 then .error m else .ok (m.pushCopies [n.toNat])
  | .roll =>
    let (i, m) := m.pop
    match i.num with
    | none => .ok m
    | some n => if n < 0 then .error m else .ok (m.raise n.toNat)
  | .rot => .ok (m.raise 2)
  | .rot2 => .ok (m.raisePair 5)
  | .swap => .ok (m.raise 1)
  | .swap2 => .ok (m.raisePair 3)
  | .tuck => .ok { m with main := m.main.take 2 ++ (m.peek 0).duplicate :: m.main.drop 2 }
  | .size => .ok (m.push [.anonymous])
  | _ => .ok (m.generic s)

/-- Run a step. -/
def step (m : Machine) (s : Step) : Except Machine Machine :=
  match s.instr with
  | .op o => m.runOp s o
  | .push data =>
    .ok (m.push [match ScriptNum.read? data with
      | some n => .number n
      | none => .anonymous])
  | .inner _ => .ok (m.push [.anonymous])
  | .assign name => .ok (m.assign name)
  | .assume name | .var name => .ok (m.push [{ name, copy := true }])
  | .call _ _ => .ok m

/-- Run steps in order. -/
def run (m : Machine) (steps : List Step) : Except Machine Machine := steps.foldlM step m

end Machine

end NamedStack
