import NamedStack.Template

/-!
# Peephole rules

A rule has a name, the forms it shortens, written for a reader, and an action. Most actions are
lists of exchanges of runs that match a template, applied one after another; two look at the whole
program. No action adds, removes or reorders references and inner scripts.
-/

namespace NamedStack.Peephole

/-- An exchange of every run that matches a template for other steps. -/
structure Exchange where
  template : Template
  /-- What stands in place of a run. -/
  replace : List Step → List Step

/-- What a rule does to a program. -/
inductive Action where
  /-- Exchanges, applied in order. -/
  | exchanges (rs : List Exchange)
  /-- Drop the verifications at the end. -/
  | dropTrailingVerify
  /-- Put one return in front of a program that returns anywhere. -/
  | promoteReturn

/-- A named simplification of programs. -/
structure Rule where
  name : String
  /-- What is replaced by what. -/
  forms : List Bytes
  action : Action

/-- Whether a step is a given opcode. -/
def isOp (o : Opcode) (s : Step) : Bool := (Matcher.op o).accepts s.instr

/-- The program without the verifications at its end. -/
def withoutTrailingVerify (steps : List Step) : List Step :=
  (steps.reverse.dropWhile (isOp .verify)).reverse

/-- The program with one return in front, if it returns anywhere but only there. -/
def returningFirst (steps : List Step) : List Step :=
  match Template.positions (.op .opReturn) steps with
  | [] | [0] => steps
  | _ => Step.op .opReturn :: steps.filter fun s => !isOp .opReturn s

/-- Apply exchanges in order and say whether any of them changed something. -/
def Exchange.inOrder (rs : List Exchange) (steps : List Step) : List Step × Bool :=
  rs.foldl (fun acc r =>
    let out := r.template.replace r.replace acc.1
    (out.steps, acc.2 || out.changed)) (steps, false)

/-- Apply an action and say whether it changed the program. -/
def Action.apply (a : Action) (steps : List Step) : List Step × Bool :=
  match a with
  | .exchanges rs => Exchange.inOrder rs steps
  | .dropTrailingVerify =>
    let out := withoutTrailingVerify steps
    (out, out.length != steps.length)
  | .promoteReturn =>
    match Template.positions (.op .opReturn) steps with
    | [] | [0] => (steps, false)
    | _ => (returningFirst steps, true)

/-- Apply a rule and say whether it changed the program. -/
def Rule.apply (r : Rule) (steps : List Step) : List Step × Bool := r.action.apply steps

/-- The names of opcodes, or an underscore for none. -/
def opcodeNames : List Opcode → Bytes
  | [] => text "_"
  | os => Bytes.join (text " ") (os.map Opcode.name)

/-- A form for a reader. -/
def form (before after : List Opcode) : Bytes :=
  opcodeNames before ++ text " -> " ++ opcodeNames after

/-- The exchange of a run of opcodes for other opcodes. -/
def Exchange.ofOpcodes (before after : List Opcode) : Exchange :=
  { template := Template.ops before, replace := fun _ => after.map Step.op }

/-- A rule of exchanges of opcodes for opcodes. -/
def fixedRule (name : String) (pairs : List (List Opcode × List Opcode)) : Rule :=
  { name
    forms := pairs.map fun p => form p.1 p.2
    action := .exchanges (pairs.map fun p => Exchange.ofOpcodes p.1 p.2) }

end NamedStack.Peephole
