import NamedStack.Step

/-!
# Arms of conditionals

Each arm of a conditional is a branch: the range of steps between its markers. Branches are listed
in the order in which they open, and the two arms of one conditional name each other by their places
in that list. A conditional has at most one `ELSE`.
-/

namespace NamedStack

/-- One arm of a conditional. -/
structure Branch where
  /-- Whether this is the first arm. -/
  isTrue : Bool
  /-- The position after the marker that opens the arm. -/
  start : Nat
  /-- The position of the marker that ends the arm, once it is known. -/
  stop : Option Nat := none
  /-- The number of conditionals around the arm, its own included. -/
  nest : Nat
  /-- The place of the other arm in the list of branches. -/
  sibling : Option Nat := none
  /-- The position of the marker that opens the arm. -/
  marker : Nat
  /-- The position of the marker that closes the conditional, once it is known. -/
  endIf : Option Nat := none
  deriving DecidableEq, Repr

namespace Branch

/-- Whether a position lies in the arm. -/
def contains (b : Branch) (i : Nat) : Bool :=
  match b.stop with
  | some stop => b.start ≤ i && i < stop
  | none => false

/-- Whether the conditional of the arm is closed. -/
def closed (b : Branch) : Bool := b.endIf.isSome

/-- Whether two places in a list of branches are the arms of one conditional. -/
def areSiblings (bs : List Branch) (i j : Nat) : Bool :=
  i != j && (bs[i]? >>= sibling) == some j && (bs[j]? >>= sibling) == some i

/-- The places of the arms that contain a position, from the outside in. -/
def containing (bs : List Branch) (i : Nat) : List Nat :=
  (bs.zipIdx.filter fun p => p.1.contains i).map (·.2)

/-- The number of conditionals around a position. -/
def nestLevel (bs : List Branch) (i : Nat) : Nat :=
  (bs.filter fun b => b.contains i).foldl (fun n b => max n b.nest) 0

/-- The branches seen so far, and the places of those still open, innermost first. -/
structure Scan where
  branches : List Branch := []
  opened : List Nat := []

/-- Go past the marker that opens a conditional. -/
def Scan.openArm (s : Scan) (i : Nat) : Scan where
  branches := s.branches ++
    [{ isTrue := true, start := i + 1, nest := s.opened.length + 1, marker := i }]
  opened := s.branches.length :: s.opened

/-- Go past the marker between two arms; nothing if there is no first arm to end. -/
def Scan.splitArm (s : Scan) (i : Nat) : Option Scan :=
  match s.opened with
  | [] => none
  | cur :: rest =>
    match s.branches[cur]? with
    | none => none
    | some b =>
      if b.isTrue then
        let place := s.branches.length
        some
          { branches := s.branches.set cur { b with stop := some i, sibling := some place } ++
              [{ isTrue := false, start := i + 1, nest := b.nest, sibling := some cur,
                 marker := i }]
            opened := place :: rest }
      else none

/-- Go past the marker that closes a conditional; nothing if none is open. -/
def Scan.closeArm (s : Scan) (i : Nat) : Option Scan :=
  match s.opened with
  | [] => none
  | cur :: rest =>
    match s.branches[cur]? with
    | none => none
    | some b =>
      let ended := s.branches.set cur { b with stop := some i, endIf := some i }
      some
        { branches := match b.sibling with
            | some sib => ended.modify sib fun b => { b with endIf := some i }
            | none => ended
          opened := rest }

/-- Go past a step. -/
def Scan.step (s : Scan) (i : Nat) (instr : Instr) : Except Cause Scan :=
  match instr with
  | .op .opIf | .op .opNotIf => .ok (s.openArm i)
  | .op .opElse =>
    match s.splitArm i with
    | some s => .ok s
    | none => .error (.unbalanced i instr.render)
  | .op .opEndIf =>
    match s.closeArm i with
    | some s => .ok s
    | none => .error (.unbalanced i instr.render)
  | _ => .ok s

/-- Go past steps from a position on. -/
def Scan.run (s : Scan) (i : Nat) : List Instr → Except Cause Scan
  | [] => .ok s
  | instr :: rest => do (← s.step i instr).run (i + 1) rest

/-- The branches of a program; it is a failure if its conditionals are not balanced. -/
def ofInstrs (instrs : List Instr) : Except Cause (List Branch) := do
  let s ← ({} : Scan).run 0 instrs
  match s.opened with
  | [] => return s.branches
  | cur :: _ =>
    let marker := ((s.branches[cur]?).map (·.marker)).getD 0
    .error (.unbalanced marker (((instrs[marker]?).map Instr.render).getD []))

end Branch

end NamedStack
