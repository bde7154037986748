import NamedStack.Instr

/-!
# Steps

A step is an instruction at its place in a program, together with what is known of its effect there.
The effect of an opcode starts as its table says and is refined once the literals before it are
known; what was found stays with the step while the program around it changes. Two steps count
as the same when their instructions are.
-/

namespace NamedStack

/-- The numbers of signatures and keys of a multisignature check. -/
structure Multisig where
  sigs : Nat
  keys : Nat
  deriving DecidableEq, Repr

/-- An instruction with what is known of its effect. -/
structure Step where
  instr : Instr
  /-- The net number of items added to the stack. -/
  delta : Int
  /-- The positions of the items read, the top of the stack being 1. -/
  args : List Int
  /-- The counts of a multisignature check, once they are known. -/
  multisig : Option Multisig := none
  /-- Whether this is the second of two reads of one value by one opcode. -/
  shared : Bool := false
  deriving DecidableEq, Repr

namespace Step

/-- A step about which nothing is known but its instruction. -/
def of (i : Instr) : Step :=
  { instr := i, delta := i.delta, args := (i.opcode?.map (·.info.args)).getD [] }

/-- The step of an opcode. -/
def op (o : Opcode) : Step := of (.op o)

/-- The step that pushes an integer. -/
def number (n : Int) : Step := of (.number n)

/-- A program as steps about which nothing is known. -/
def ofList (ops : List Instr) : List Step := ops.map of

/-- The instructions of steps. -/
def instrs (steps : List Step) : List Instr := steps.map (·.instr)

/-- The written form of steps. -/
def render (steps : List Step) : Bytes := Instr.renderList (instrs steps)

/-- The integer that the step at a position pushes. -/
def intAt? (steps : List Step) (i : Int) : Option Int :=
  match i with
  | .ofNat i => steps[i]? >>= fun s => s.instr.toInt?
  | .negSucc _ => none

/-- A program comes back from its steps. -/
theorem instrs_ofList (ops : List Instr) : instrs (ofList ops) = ops := by
  simp only [instrs, ofList, List.map_map]
  exact List.map_id'' (fun _ => rfl) ops

end Step

end NamedStack
