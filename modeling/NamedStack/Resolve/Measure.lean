import NamedStack.Resolve.Expand

/-!
# How far resolving can go

Numbers that bound the work of resolving a program: the references in it, how deep calls are nested
in arguments of calls, how deep inner scripts can be nested once all calls are expanded, and how
often inner scripts without references can still become simpler. They are those of the program and
of function bodies; what the parameters of a table stand for is not counted.
-/

namespace NamedStack.Measure

mutual

/-- The number of references in an instruction, at any depth. -/
def references : Instr → Nat
  | .op _ | .push _ => 0
  | .assume _ | .assign _ | .var _ => 1
  | .call _ args => 1 + referencesBlocks args
  | .inner ops => referencesList ops

/-- The number of references in a program. -/
def referencesList : List Instr → Nat
  | [] => 0
  | i :: rest => references i + referencesList rest

/-- The number of references in programs. -/
def referencesBlocks : List (List Instr) → Nat
  | [] => 0
  | ops :: rest => referencesList ops + referencesBlocks rest

end

mutual

/-- How deep calls are nested in arguments of calls. -/
def callHeight : Instr → Nat
  | .call _ args => 1 + callHeightBlocks args
  | _ => 0

/-- How deep calls are nested in a program. -/
def callHeightList : List Instr → Nat
  | [] => 0
  | i :: rest => max (callHeight i) (callHeightList rest)

/-- How deep calls are nested in programs. -/
def callHeightBlocks : List (List Instr) → Nat
  | [] => 0
  | ops :: rest => max (callHeightList ops) (callHeightBlocks rest)

end

mutual

/-- How deep inner scripts are nested in an instruction, a call itself counting for so many
levels. -/
def nesting (perCall : Nat) : Instr → Nat
  | .call _ args => perCall + nestingBlocks perCall args
  | .inner ops => 1 + nestingList perCall ops
  | _ => 0

/-- How deep inner scripts are nested in a program. -/
def nestingList (perCall : Nat) : List Instr → Nat
  | [] => 0
  | i :: rest => max (nesting perCall i) (nestingList perCall rest)

/-- How deep inner scripts are nested in programs. -/
def nestingBlocks (perCall : Nat) : List (List Instr) → Nat
  | [] => 0
  | ops :: rest => max (nestingList perCall ops) (nestingBlocks perCall rest)

end

/-- How deep inner scripts are nested in bodies whose calls are expanded to a depth. -/
def bodyNesting (bodies : List (List Instr)) : Nat → Nat
  | 0 => 0
  | n + 1 => (bodies.map (nestingList (bodyNesting bodies n))).foldl max 0

/-- How deep inner scripts can be nested in a program once its calls are expanded. -/
def scriptDepth (t : Table) (ops : List Instr) : Nat :=
  let bodies := Expand.bodies t
  nestingList (bodyNesting bodies bodies.length) ops

mutual

/-- A bound on how often the inner scripts in an instruction can become simpler. -/
def slack : Instr → Nat
  | .inner ops => 2 * ops.length + 1 + slackList ops
  | _ => 0

/-- A bound on how often the inner scripts in a program can become simpler. -/
def slackList : List Instr → Nat
  | [] => 0
  | i :: rest => slack i + slackList rest

end

end NamedStack.Measure
