import NamedStack.Scope

/-!
# Expansion of calls

A call stands for the body of its function with the parameters replaced by the arguments. Calls in
the body are expanded as well, after their own arguments; names that are no parameters stay. A
function that is being expanded cannot be called again. The number of functions bounds how deep
calls can be nested, and with it the recursion.
-/

namespace NamedStack.Expand

/-- How a call is expanded: its result, given the name and the arguments. -/
abbrev CallResult := Name → List (List Instr) → Except Failure (List Instr)

mutual

/-- An instruction of a body, with parameters and calls replaced. -/
def substitute (t : Table) (call : CallResult) : Instr → Except Failure (List Instr)
  | .var name =>
    match t.lookup? name with
    | some { kind := .argument, value := .content ops, .. } => .ok ops
    | some { kind := .argument, .. } => .error (.fault .wrongType)
    | _ => .ok [.var name]
  | .call name args => do call name (← substituteBlocks t call args)
  | .inner ops => do return [.inner (← substituteList t call ops)]
  | i => .ok [i]

/-- A body, with parameters and calls replaced. -/
def substituteList (t : Table) (call : CallResult) : List Instr → Except Failure (List Instr)
  | [] => .ok []
  | i :: rest => do
    let front ← substitute t call i
    return front ++ (← substituteList t call rest)

/-- Arguments, with parameters and calls replaced. -/
def substituteBlocks (t : Table) (call : CallResult) :
    List (List Instr) → Except Failure (List (List Instr))
  | [] => .ok []
  | ops :: rest => do
    let front ← substituteList t call ops
    return front :: (← substituteBlocks t call rest)

end

/-- The table inside of a function: a scope in which the parameters stand for the arguments. -/
def bind (t : Table) (params : List Name) (args : List (List Instr)) : Table :=
  (params.zip args).foldl (fun t p => t.declare ⟨p.1, .argument, .content p.2⟩) (t.enter .function)

/-- The expansion of a call while other functions are being expanded, at most `fuel` deep. -/
def callIn : Nat → Table → List Name → CallResult
  | 0, _, _, _, _ => .error (.fault .endless)
  | fuel + 1, t, calling, name, args =>
    match t.lookup? name with
    | none => fail (.undefined name)
    | some { kind := .function, value := .definition params body, .. } =>
      if args.length ≠ params.length then fail (.arity name params.length args.length)
      else if calling.contains name then fail (.recursiveCall name)
      else
        let inside := bind t params args
        substituteList inside (callIn fuel inside (name :: calling)) body
    | some _ => fail (.notAFunction name)

/-- The bodies of all functions in a table. -/
def bodies (t : Table) : List (List Instr) :=
  t.scopes.flatMap fun s => s.symbols.filterMap fun sym =>
    match sym.kind, sym.value with
    | .function, .definition _ body => some body
    | _, _ => none

/-- The expansion of a call. -/
def call (t : Table) : CallResult := callIn ((bodies t).length + 1) t []

end NamedStack.Expand
