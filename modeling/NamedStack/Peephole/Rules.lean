import NamedStack.Peephole.Rule

/-!
# The rule set

The rules in the order in which they are applied, and the optimizer that applies all of them until a
program stops changing or the allowed number of passes is reached.
-/

namespace NamedStack.Peephole

/-- An opcode followed by a verification is the opcode that verifies. -/
def mergeVerify : Rule :=
  fixedRule "merge_op_and_verify"
    [([.equal, .verify], [.equalVerify]),
      ([.binary .numEqual, .verify], [.numEqualVerify]),
      ([.checkSig, .verify], [.checkSigVerify]),
      ([.checkMultiSig, .verify], [.checkMultiSigVerify])]

/-- Moving an item to the alt stack and back does nothing, and the other way round. -/
def altStackOps : Rule :=
  fixedRule "alt_stack_ops"
    [([.toAltStack, .fromAltStack], []), ([.fromAltStack, .toAltStack], [])]

/-- Picks and rolls of known small depth, and pairs of stack opcodes, have shorter forms. -/
def stackOps : Rule :=
  fixedRule "stack_ops"
    [([.one, .pick], [.over]),
      ([.one, .roll, .drop], [.nip]),
      ([.zero, .pick], [.dup]),
      ([.zero, .roll], []),
      ([.one, .roll, .one, .roll], []),
      ([.one, .roll], [.swap]),
      ([.nip, .drop], [.drop2]),
      ([.over, .over], [.dup2]),
      ([.drop, .drop], [.drop2])]

/-- The exchanges for a literal or a value on which an operation with a fixed number has a short
form. -/
def shortcut (number math short : Opcode) : List Exchange :=
  [{ template := [.value, .op number, .op math]
     replace := fun run => run.take 1 ++ [Step.op short] },
    { template := [.op number, .value, .op math]
      replace := fun run => (run.drop 1).take 1 ++ [Step.op short] },
    { template := [.assumption, .op number, .op math]
      replace := fun run => run.take 1 ++ [Step.op short] }]

/-- Arithmetic with one and two has shorter forms. -/
def arithmeticShortcuts : Rule where
  name := "arithmetic_shortcut_ops"
  forms := ["OP_2 OP_DIV -> OP_2DIV", "OP_1 OP_SUB -> OP_1SUB", "OP_1 OP_NEGATE -> OP_1NEGATE",
    "x OP_1 OP_ADD -> x OP_1ADD", "x OP_2 OP_MUL -> x OP_2MUL"].map text
  action := .exchanges <|
    [.ofOpcodes [.two, .disabled .div] [.disabled .div2],
      .ofOpcodes [.one, .binary .sub] [.unary .sub1],
      .ofOpcodes [.one, .unary .negate] [.minusOne]] ++
    shortcut .one (.binary .add) (.unary .add1) ++
    shortcut .two (.disabled .mul) (.disabled .mul2)

/-- A negated condition is the opposite conditional. -/
def conditionalShortcuts : Rule :=
  fixedRule "conditional_shortcut_ops" [([.unary .not, .opIf], [.opNotIf])]

/-- Two hashes in a row have an opcode of their own. -/
def hashShortcuts : Rule :=
  fixedRule "hash_shortcut_ops"
    [([.hash .sha256, .hash .sha256], [.hash .hash256]),
      ([.hash .sha256, .hash .ripemd160], [.hash .hash160])]

/-- Adding or subtracting zero changes no number. -/
def nullArithmetic : Rule where
  name := "remove_null_arithmetic"
  forms := ["OP_0 OP_SUB -> _", "x OP_0 OP_ADD -> x", "OP_0 x OP_ADD -> x"].map text
  action := .exchanges
    [.ofOpcodes [.zero, .binary .sub] [],
      { template := [.notMarker, .op .zero, .op (.binary .add)]
        replace := fun run => run.take 1 },
      { template := [.op .zero, .operand, .op (.binary .add)]
        replace := fun run => (run.drop 1).take 1 }]

/-- A conditional without content only takes its condition. -/
def nullConditionals : Rule :=
  fixedRule "remove_null_conditionals"
    [([.opElse, .opEndIf], [.opEndIf]), ([.opIf, .opEndIf], [.drop])]

/-- A verification at the end checks what the end of a script checks anyway. -/
def trailingVerifications : Rule where
  name := "remove_trailing_verifications"
  forms := [text "OP_VERIFY (at the end) -> _"]
  action := .dropTrailingVerify

/-- Whether a step pushes a number of at most four bytes in its shortest form. -/
def isStrictNumber (s : Step) : Bool :=
  match s.instr.literal? with
  | some data => (ScriptNum.parse data true ScriptNum.maxLen).isOk
  | none => false

/-- Numbers in shortest form differ as byte strings exactly if they differ as numbers. -/
def arithmeticOps : Rule where
  name := "use_arithmetic_ops"
  forms := [text "x y OP_EQUAL OP_NOT -> x y OP_NUMNOTEQUAL"]
  action := .exchanges
    [{ template := [.value, .value, .op .equal, .op (.unary .not)]
       replace := fun run =>
        if (run.take 2).all isStrictNumber then run.take 2 ++ [Step.op (.binary .numNotEqual)]
        else run }]

/-- The opcode that pushes what a step pushes, if that is a small integer in shortest form. -/
def smallPush? (s : Step) : Option Opcode :=
  match s.instr with
  | .push data =>
    match ScriptNum.parse data true ScriptNum.maxLen with
    | .ok n => (SmallInt.ofInt? n).map .small
    | .error _ => none
  | _ => none

/-- A pushed small integer has an opcode of its own. -/
def smallIntOpcodes : Rule where
  name := "use_small_int_opcodes"
  forms := [text "0x05 -> OP_5"]
  action := .exchanges
    [{ template := [.push]
       replace := fun run => run.map fun s => match smallPush? s with
        | some o => Step.op o
        | none => s }]

/-- A program that returns anywhere returns at once. -/
def promotedReturn : Rule where
  name := "promote_return"
  forms := [text "x OP_RETURN -> OP_RETURN x"]
  action := .promoteReturn

/-- The opcodes for which the order of the two operands does not matter. -/
def commutative : List Opcode :=
  [.binary .add, .disabled .mul, .binary .boolAnd, .binary .boolOr, .binary .numEqual,
    .numEqualVerify, .binary .numNotEqual, .binary .min, .binary .max, .disabled .and,
    .disabled .or, .disabled .xor, .equal, .equalVerify]

/-- A swap before an opcode that takes its operands in any order does nothing. -/
def commutativeOperations : Rule :=
  fixedRule "commutative_operations" (commutative.map fun o => ([.swap, o], [o]))

/-- The rules in the order in which they are applied. -/
def rules : List Rule :=
  [mergeVerify, altStackOps, stackOps, arithmeticShortcuts, conditionalShortcuts, hashShortcuts,
    nullArithmetic, nullConditionals, trailingVerifications, arithmeticOps, smallIntOpcodes,
    promotedReturn, commutativeOperations]

/-- The number of passes that are allowed unless another is asked for. -/
def defaultMaxPasses : Nat := 5

/-- Apply every rule once, in order. -/
def pass (steps : List Step) : List Step := rules.foldl (fun acc r => (r.apply acc).1) steps

/-- Apply all rules until the instructions stop changing, at most so many times. -/
def passes : Nat → List Step → List Step
  | 0, steps => steps
  | n + 1, steps =>
    let out := pass steps
    if Step.instrs out = Step.instrs steps then out else passes n out

/-- An optimizer: whether it does anything, and the number of passes it is allowed. -/
structure Optimizer where
  enabled : Bool
  maxPasses : Nat := defaultMaxPasses
  deriving DecidableEq, Repr

/-- Optimize a program. Whether a pass has changed it is told by its instructions. Their texts would
tell the same as long as all names in them are valid: by `Instr.eq_of_renderList_eq` two such
programs with the same text have the same instructions. -/
def Optimizer.run (o : Optimizer) (steps : List Step) : List Step :=
  if o.enabled then passes o.maxPasses steps else steps

end NamedStack.Peephole
