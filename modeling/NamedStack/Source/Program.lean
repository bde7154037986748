import NamedStack.Instr

/-!
# Programs

A program names the items of its initial stack, defines functions and has instructions. Its written
form has one line for the stack, one for each function and one for the instructions, each only if
there is something to write.
-/

namespace NamedStack

/-- A function that calls are replaced by. -/
structure Function where
  name : Name
  params : List Name
  body : List Instr
  deriving DecidableEq, Repr

/-- A program. -/
structure Program where
  /-- The names of the items on the initial stack, bottom first. -/
  stack : List Name := []
  functions : List Function := []
  ops : List Instr := []
  deriving DecidableEq, Repr

/-- Names with a comma and a space between two of them. -/
def Name.commaList (names : List Name) : Bytes := Bytes.join (text ", ") names

/-- The tokens of a function definition. -/
def Function.tokens (f : Function) : List Bytes :=
  Instr.form "func" (Name.commaList (f.name :: f.params)) :: Instr.blockTokens [f.body]

/-- The written form of a function definition. -/
def Function.render (f : Function) : Bytes := Bytes.join (text " ") f.tokens

/-- The lines of the written form. -/
def Program.lines (p : Program) : List Bytes :=
  (if p.stack.isEmpty then [] else [Instr.form "stack" (Name.commaList p.stack)]) ++
    p.functions.map Function.render ++
    (if p.ops.isEmpty then [] else [Instr.renderList p.ops])

/-- The written form of a program. -/
def Program.render (p : Program) : Bytes := Bytes.join (text "\n") p.lines

end NamedStack
