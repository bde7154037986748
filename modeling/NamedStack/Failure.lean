import NamedStack.Report

/-!
# Failures of the compiler

Every failure has a cause, which is a value with the facts of the case, and may carry notes that
were added on its way up. The wording lives here and nowhere else: a cause is turned into a report
with its kind, message, details and data items, and the notes are applied to that report.

Apart from failures there are faults: a computation that steps outside of the values it is defined
for. A fault ends the computation without a report of its own.
-/

namespace NamedStack

/-- The kinds of failure. -/
inductive Kind where
  | numTooBig | numNotMinimal | badToken | badSyntax | undefined | unbalancedConditional
  | unevenConditional | invalidComparison | undeclaredAssumption | arity | recursiveCall | locate
  | altStack | unresolved | unsupported | script | net | execute | internal | badSetting
  | badFlag | tokenTooLong
  deriving DecidableEq, Repr

/-- The wording of a kind. -/
def Kind.message : Kind → Bytes
  | .numTooBig => text "script number too big"
  | .numNotMinimal => text "script number not minimally encoded"
  | .badToken => text "bad token"
  | .badSyntax => text "syntax error"
  | .undefined => text "undefined name"
  | .unbalancedConditional => text "unbalanced conditional"
  | .unevenConditional => text "assumption encountered after uneven conditional"
  | .invalidComparison => text "invalid hash comparison"
  | .undeclaredAssumption => text "undeclared assumption"
  | .arity => text "wrong number of arguments"
  | .recursiveCall => text "recursive function call"
  | .locate => text "cannot locate value on stack"
  | .altStack => text "alt stack out of sync"
  | .unresolved => text "unresolved reference"
  | .unsupported => text "unsupported opcode"
  | .script => text "invalid script"
  | .net => text "unknown network"
  | .execute => text "script execution failed"
  | .internal => text "internal compiler error"
  | .badSetting => text "invalid environment value"
  | .badFlag => text "invalid flag value"
  | .tokenTooLong => text "bufio.Scanner: token too long"

/-- How a sequence of tokens fails to be a program. -/
inductive Malformed where
  /-- The text ended before this closing token. -/
  | missing (close : Bytes)
  /-- A closing token that closes nothing. -/
  | unexpected (close : Bytes)
  /-- An opening brace that follows neither a call nor a function head. -/
  | strayBrace
  /-- A declaration inside of brackets or braces. -/
  | notAtTop (keyword : Bytes)
  /-- A function declaration without a name. -/
  | unnamedFunction
  /-- A function declaration without a body. -/
  | noBody (name : Name)
  /-- A declaration where only instructions are allowed. -/
  | declarations
  deriving DecidableEq, Repr

/-- The wording of a malformed sequence of tokens. -/
def Malformed.message : Malformed → Bytes
  | .missing close => text "missing " ++ Text.quote close
  | .unexpected close => text "unexpected " ++ Text.quote close
  | .strayBrace => text "unexpected \"\x7b\" outside call or func"
  | .notAtTop keyword => keyword ++ text "(...) must be at top level"
  | .unnamedFunction => text "func() needs a name"
  | .noBody name => text "func(" ++ name ++ text ") needs a body"
  | .declarations => text "declarations are not allowed here"

/-- The wording of a failure to read hexadecimal text. -/
def Hex.Error.message : Hex.Error → Bytes
  | .invalid b => text "encoding/hex: invalid byte: " ++ Text.codePoint b
  | .oddLength => text "encoding/hex: odd length hex string"

/-- Why bytes cannot be made into a script, or are none. -/
inductive ScriptFlaw where
  /-- One more opcode would make the script too long. -/
  | opcodeOverflow
  /-- A push of that encoded size would make the script too long. -/
  | dataOverflow (size : Nat)
  /-- A pushed element has that many bytes, which is too many. -/
  | elementTooBig (size : Nat)
  /-- The opcode needs more bytes than there are. -/
  | truncated (opcode : Bytes) (needs left : Nat)
  /-- The opcode announces more data than there is. -/
  | overrun (opcode : Bytes) (announced : Int) (left : Nat)
  /-- The script is not hexadecimal text. -/
  | notHex (e : Hex.Error)
  deriving DecidableEq, Repr

/-- The wording of a script's flaw. -/
def ScriptFlaw.message : ScriptFlaw → Bytes
  | .opcodeOverflow =>
    text "adding an opcode would exceed the maximum allowed canonical script length of 10000"
  | .dataOverflow size =>
    text "adding " ++ Bytes.ofNat size ++
      text " bytes of data would exceed the maximum allowed canonical script length of 10000"
  | .elementTooBig size =>
    text "adding a data element of " ++ Bytes.ofNat size ++
      text " bytes would exceed the maximum allowed script element size of 520"
  | .truncated opcode needs left =>
    text "opcode " ++ opcode ++ text " requires " ++ Bytes.ofNat needs ++
      text " bytes, but script only has " ++ Bytes.ofNat left ++ text " remaining"
  | .overrun opcode announced left =>
    text "opcode " ++ opcode ++ text " pushes " ++ Bytes.ofInt announced ++
      text " bytes, but script only has " ++ Bytes.ofNat left ++ text " remaining"
  | .notHex e => e.message

/-- Why a run of two scripts is not accepted. -/
inductive ExecError where
  /-- The run ended with a false value on top of the stack. -/
  | falseResult
  /-- The run ended with an empty stack. -/
  | emptyStack
  /-- Both scripts are empty. -/
  | bothEmpty
  /-- The signature script does more than push data. -/
  | notPushOnly
  /-- A script is longer than the limit. -/
  | scriptTooBig
  /-- A script is no sequence of opcodes. -/
  | malformed
  /-- An opcode failed. -/
  | opcodeFailed
  /-- A limit on operations, elements or items was passed. -/
  | limitExceeded
  /-- A conditional is not closed, or was never opened. -/
  | unbalanced
  deriving DecidableEq, Repr

/-- The wording of a run that is not accepted. -/
def ExecError.message : ExecError → Bytes
  | .falseResult => text "false stack entry at end of script execution"
  | .emptyStack => text "stack empty at end of script execution"
  | .bothEmpty => text "false stack entry at end of script execution"
  | .notPushOnly => text "signature script is not push only"
  | .scriptTooBig => text "script size is larger than max allowed size"
  | .malformed => text "script does not parse"
  | .opcodeFailed => text "script failed an opcode"
  | .limitExceeded => text "script exceeds an execution limit"
  | .unbalanced => text "script has an unbalanced conditional"

/-- What went wrong, with the facts of the case. -/
inductive Cause where
  | numTooBig (size : Nat) (limit : Int)
  | numNotMinimal (bytes : Bytes)
  | badToken (token : Bytes)
  | badHexToken (token : Bytes) (e : Hex.Error)
  | tokenTooLong
  | malformed (flaw : Malformed)
  | undefined (name : Name)
  | notAFunction (name : Name)
  | wrongKind (name : Name) (kind : Bytes)
  | unbalanced (index : Nat) (opcode : Bytes)
  | uneven (name : Name) (index endIf : Nat)
  | badComparison (index : Nat) (opcode : Bytes) (size want : Nat)
  | undeclared (name : Name) (index : Nat)
  | arity (name : Name) (want got : Nat)
  | recursiveCall (name : Name)
  | notLocated (name : Name) (index : Nat) (depth : Option Int)
  | altStack (name : Name) (slot altLen : Nat)
  | unresolved (index : Nat) (instr : Bytes)
  | unsupported (offset : Nat) (code : UInt8)
  | script (flaw : ScriptFlaw)
  | unknownNet (name : Bytes)
  | execute (e : ExecError)
  | internal (detail : Bytes)
  | badSetting (name : Bytes) (reader : String) (value : Bytes) (e : Text.NumeralError)
  | badFlag (detail : Bytes)
  deriving DecidableEq, Repr

namespace Cause

/-- The kind of a cause. -/
def kind : Cause → Kind
  | .numTooBig .. => .numTooBig
  | .numNotMinimal .. => .numNotMinimal
  | .badToken .. | .badHexToken .. => .badToken
  | .tokenTooLong => .tokenTooLong
  | .malformed .. => .badSyntax
  | .undefined .. | .notAFunction .. | .wrongKind .. => .undefined
  | .unbalanced .. => .unbalancedConditional
  | .uneven .. => .unevenConditional
  | .badComparison .. => .invalidComparison
  | .undeclared .. => .undeclaredAssumption
  | .arity .. => .arity
  | .recursiveCall .. => .recursiveCall
  | .notLocated .. => .locate
  | .altStack .. => .altStack
  | .unresolved .. => .unresolved
  | .unsupported .. => .unsupported
  | .script .. => .script
  | .unknownNet .. => .net
  | .execute .. => .execute
  | .internal .. => .internal
  | .badSetting .. => .badSetting
  | .badFlag .. => .badFlag

/-- A data item that holds a number. -/
def natItem (key : String) (n : Nat) : Bytes × Scalar := (text key, .int n)

/-- A data item that holds a text. -/
def strItem (key : String) (b : Bytes) : Bytes × Scalar := (text key, .str b)

/-- The detail that a cause adds to the wording of its kind. -/
def detail : Cause → Bytes
  | .numTooBig size limit =>
    Bytes.ofNat size ++ text " bytes, limit " ++ Bytes.ofInt limit
  | .numNotMinimal bytes => Hex.encode bytes
  | .badToken token | .badHexToken token _ => token
  | .malformed flaw => flaw.message
  | .notAFunction name => name ++ text " is not a function"
  | .wrongKind name kind => name ++ text " is a " ++ kind
  | .internal d | .badFlag d => d
  | _ => []

/-- The data items of a cause. -/
def data : Cause → List (Bytes × Scalar)
  | .undefined name | .recursiveCall name | .unknownNet name | .badSetting name .. =>
    [strItem "name" name]
  | .unbalanced index opcode => [natItem "index" index, strItem "opcode" opcode]
  | .uneven name index endIf =>
    [strItem "name" name, natItem "index" index, natItem "endif" endIf]
  | .badComparison index opcode size want =>
    [natItem "index" index, strItem "opcode" opcode, natItem "size" size, natItem "want" want]
  | .undeclared name index => [strItem "name" name, natItem "index" index]
  | .arity name want got => [strItem "name" name, natItem "want" want, natItem "got" got]
  | .notLocated name index none => [strItem "name" name, natItem "index" index]
  | .notLocated name index (some depth) =>
    [strItem "name" name, natItem "index" index, (text "depth", .int depth)]
  | .altStack name slot altLen =>
    [strItem "name" name, natItem "slot" slot, natItem "altlen" altLen]
  | .unresolved index instr => [natItem "index" index, strItem "instruction" instr]
  | .unsupported offset code => [natItem "offset" offset, natItem "opcode" code.toNat]
  | _ => []

/-- The wording before any detail: that of the kind, or of what lies under it. -/
def base : Cause → Bytes
  | .badHexToken _ e => e.message
  | .script flaw => flaw.message
  | .execute e => e.message
  | .badSetting _ reader value e => Text.numeralMessage reader value e
  | c => c.kind.message

/-- The report of a cause. -/
def report (c : Cause) : Report Kind :=
  let r : Report Kind := { root := c.kind, message := c.base }
  let r := match c.detail with
    | [] => r
    | d => r.addDetail d
  match c.data with
  | [] => r
  | items => r.withData items

end Cause

/-- Something added to a failure on its way up. -/
inductive Note where
  /-- Context in front of the message. -/
  | context (msg : Bytes)
  /-- Data items. -/
  | data (items : List (Bytes × Scalar))
  deriving DecidableEq, Repr

/-- A cause with its notes, the first one added first. -/
structure Problem where
  cause : Cause
  notes : List Note := []
  deriving DecidableEq, Repr

namespace Problem

/-- The problem with one more note. -/
def note (n : Note) (p : Problem) : Problem := { p with notes := p.notes ++ [n] }

/-- The kind of the problem's cause. -/
def kind (p : Problem) : Kind := p.cause.kind

/-- The report of the cause with all notes applied. -/
def report (p : Problem) : Report Kind :=
  p.notes.foldl (fun r n => match n with
    | .context msg => r.wrap msg
    | .data items => r.withData items) p.cause.report

end Problem

/-- How a computation can step outside of the values it is defined for. -/
inductive Fault where
  /-- A position outside of a sequence, or a number that has no encoding. -/
  | outOfRange
  /-- A value of the wrong type. -/
  | wrongType
  /-- A broken precondition, with a message. -/
  | raised (message : Bytes)
  /-- A computation that would not come to an end. -/
  | endless
  deriving DecidableEq, Repr

/-- Why a computation has no result. -/
inductive Failure where
  | problem (p : Problem)
  | fault (f : Fault)
  deriving DecidableEq, Repr

namespace Failure

/-- The failure with a bare cause. -/
def of (c : Cause) : Failure := .problem { cause := c }

/-- The failure with one more note; a fault takes none. -/
def note (n : Note) : Failure → Failure
  | .problem p => .problem (p.note n)
  | .fault f => .fault f

/-- The failure with context in front of its message. -/
def context (msg : String) : Failure → Failure := note (.context (text msg))

end Failure

/-- Fail with a bare cause. -/
def fail {α : Type} (c : Cause) : Except Failure α := .error (.of c)

end NamedStack
