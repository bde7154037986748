import NamedStack.Failure
import NamedStack.Text.Blank

/-!
# Settings from the environment

A variable has a name and a default, which also fixes its type. Loading takes the values of the
environment where there are any that are not empty. A value that cannot be read leaves the default;
every variable is tried, and the first failure is reported.
-/

namespace NamedStack

/-- The values of the environment by name. -/
abbrev Environment := Bytes → Option Bytes

namespace Environment

/-- The value of a variable. -/
inductive Value where
  | int (n : Int)
  | bool (b : Bool)
  | str (b : Bytes)
  | list (items : List Bytes)
  deriving DecidableEq, Repr

/-- A variable with its current value. -/
structure Variable where
  name : Bytes
  value : Value
  deriving DecidableEq, Repr

/-- The items of a text between commas, without white space around them and without empty ones. -/
def items (b : Bytes) : List Bytes :=
  ((Bytes.splitOn 44 b).map Text.trim).filter fun i => !i.isEmpty

/-- Read a text as a value of the same type as another one. -/
def readAs (name b : Bytes) : Value → Except Cause Value
  | .int _ =>
    match Text.readInt b with
    | .ok n => .ok (.int n)
    | .error e => .error (.badSetting name "Atoi" b e)
  | .bool _ =>
    match Text.readBool b with
    | .ok x => .ok (.bool x)
    | .error e => .error (.badSetting name "ParseBool" b e)
  | .str _ => .ok (.str b)
  | .list _ => .ok (.list (items b))

/-- Load one variable; a value that cannot be read leaves it as it was. -/
def loadOne (env : Environment) (v : Variable) : Variable × Option Cause :=
  match env v.name with
  | none | some [] => (v, none)
  | some b =>
    match readAs v.name b v.value with
    | .ok value => ({ v with value }, none)
    | .error c => (v, some c)

/-- Load variables, with the first failure. -/
def load (env : Environment) (vs : List Variable) : List Variable × Option Cause :=
  let loaded := vs.map env.loadOne
  (loaded.map (·.1), loaded.findSome? (·.2))

end Environment

end NamedStack
