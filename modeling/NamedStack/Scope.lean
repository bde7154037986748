import NamedStack.Source.Program

/-!
# Scopes

What names stand for. A table is a stack of scopes that is never empty; a name is looked up from the
innermost scope outward, and the scope of an inner script hides everything around it but functions.
A scope may declare an initial stack of its own.
-/

namespace NamedStack

/-- What kind of thing a name stands for. -/
inductive SymbolKind where
  /-- An item of the initial stack. -/
  | stackItem
  /-- A name given by an assignment. -/
  | variable
  | function
  /-- A parameter during a call. -/
  | argument
  /-- Any other kind, by its number. -/
  | other (n : Int)
  deriving DecidableEq, Repr

/-- The wording of a kind. -/
def SymbolKind.render : SymbolKind → Bytes
  | .stackItem => text "stack_item"
  | .variable => text "var"
  | .function => text "func"
  | .argument => text "func_arg"
  | .other n => text "Kind(" ++ Bytes.ofInt n ++ text ")"

/-- What is known of a name. -/
inductive SymbolValue where
  /-- The place of an item on the initial stack, from the bottom and from the top. -/
  | place (height depth : Int)
  /-- The number of assignments to a name. -/
  | assigned (count : Int)
  /-- A function definition. -/
  | definition (params : List Name) (body : List Instr)
  /-- The instructions bound to a parameter. -/
  | content (ops : List Instr)
  | unknown
  deriving DecidableEq, Repr

/-- A name with what it stands for. -/
structure Symbol where
  name : Name
  kind : SymbolKind
  value : SymbolValue
  deriving DecidableEq, Repr

/-- Why a scope was opened. -/
inductive ScopeKind where
  | general | function | conditional | innerScript
  /-- Any other reason, by its number. -/
  | other (n : Int)
  deriving DecidableEq, Repr

/-- The bindings of one scope, at most one for a name. -/
structure Scope where
  kind : ScopeKind
  symbols : List Symbol := []
  /-- The initial stack that the scope declares, bottom first. -/
  stack : Option (List Name) := none
  deriving DecidableEq, Repr

namespace Scope

/-- The binding of a name in this scope. -/
def find? (s : Scope) (name : Name) : Option Symbol := s.symbols.find? fun sym => sym.name = name

/-- Put a binding in place of the one for the same name, or behind the others. -/
def insertInto (sym : Symbol) : List Symbol → List Symbol
  | [] => [sym]
  | s :: rest => if s.name = sym.name then sym :: rest else s :: insertInto sym rest

/-- Bind a name in this scope. -/
def insert (s : Scope) (sym : Symbol) : Scope := { s with symbols := insertInto sym s.symbols }

/-- Declare the initial stack of this scope, bottom first. -/
def declareStack (s : Scope) (names : List Name) : Scope :=
  names.zipIdx.foldl (fun s p =>
    s.insert ⟨p.1, .stackItem, .place p.2 (names.length - 1 - p.2)⟩) { s with stack := some names }

end Scope

/-- A stack of scopes. -/
structure Table where
  /-- The innermost scope. -/
  current : Scope := { kind := .general }
  /-- The scopes around it, from the inside out. -/
  outer : List Scope := []
  deriving DecidableEq, Repr

namespace Table

/-- All scopes, from the inside out. -/
def scopes (t : Table) : List Scope := t.current :: t.outer

/-- The number of scopes. -/
def depth (t : Table) : Nat := t.scopes.length

/-- Whether a binding can be seen, given that a scope of an inner script lies between or not. -/
def visible (hidden : Bool) (sym : Symbol) : Bool := !hidden || sym.kind = .function

/-- Look a name up in scopes from the inside out. -/
def lookupIn (name : Name) (hidden : Bool) : List Scope → Option Symbol
  | [] => none
  | s :: rest =>
    let further := lookupIn name (hidden || s.kind = .innerScript) rest
    match s.find? name with
    | some sym => if visible hidden sym then some sym else further
    | none => further

/-- The binding that a name refers to. -/
def lookup? (t : Table) (name : Name) : Option Symbol := lookupIn name false t.scopes

/-- The binding that a name refers to; it is a failure if there is none. -/
def lookup (t : Table) (name : Name) : Except Cause Symbol :=
  match t.lookup? name with
  | some sym => .ok sym
  | none => .error (.undefined name)

/-- Open a scope. -/
def enter (t : Table) (kind : ScopeKind) : Table :=
  { current := { kind }, outer := t.scopes }

/-- Close the innermost scope; the outermost one stays. -/
def leave (t : Table) : Except Fault Table :=
  match t.outer with
  | [] => .error (.raised (text "symbols: EndScope without BeginScope"))
  | s :: rest => .ok { current := s, outer := rest }

/-- Bind a name in the innermost scope. -/
def declare (t : Table) (sym : Symbol) : Table := { t with current := t.current.insert sym }

/-- Exchange the binding of a name where it is found. -/
def updateIn (sym : Symbol) (hidden : Bool) : List Scope → List Scope
  | [] => []
  | s :: rest =>
    let further := s :: updateIn sym (hidden || s.kind = .innerScript) rest
    match s.find? sym.name with
    | some old => if visible hidden old then s.insert sym :: rest else further
    | none => further

/-- Exchange the binding that a name refers to, if there is one. -/
def update (t : Table) (sym : Symbol) : Table :=
  match updateIn sym false t.scopes with
  | [] => t
  | s :: rest => { current := s, outer := rest }

/-- Bind a name: where it is bound already, else in the innermost scope. -/
def assign (t : Table) (sym : Symbol) : Table :=
  if (t.lookup? sym.name).isSome then t.update sym else t.declare sym

/-- Declare the initial stack of the innermost scope, bottom first. -/
def declareStack (t : Table) (names : List Name) : Table :=
  { t with current := t.current.declareStack names }

/-- The initial stack of the nearest scope that declares one, up to an inner script. -/
def stackIn : List Scope → Option (List Name)
  | [] => none
  | s :: rest =>
    match s.stack with
    | some names => some names
    | none => if s.kind = .innerScript then none else stackIn rest

/-- The declared initial stack, bottom first. -/
def stack? (t : Table) : Option (List Name) := stackIn t.scopes

/-- The initial stack, bottom first; empty if none is declared. -/
def stack (t : Table) : List Name := t.stack?.getD []

/-- The place of a name on the initial stack, from the bottom and from the top. -/
def place? (t : Table) (name : Name) : Option (Int × Int) :=
  match t.lookup? name with
  | some { kind := .stackItem, value := .place height depth, .. } => some (height, depth)
  | _ => none

/-- The table of a program: its initial stack and its functions. -/
def ofProgram (p : Program) : Table :=
  p.functions.foldl (fun t f => t.declare ⟨f.name, .function, .definition f.params f.body⟩)
    (({} : Table).declareStack p.stack)

end Table

end NamedStack
