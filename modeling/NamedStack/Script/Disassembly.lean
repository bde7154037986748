import NamedStack.Script.Token

/-!
# Disassembly

A script on one line: small integers as numbers, pushed data in hexadecimal and every other code by
its name, also a code that the compiler does not support.
-/

namespace NamedStack.Script

/-- The name of a code that is no supported opcode. -/
def foreignName (code : UInt8) : Bytes :=
  match code with
  | 0x50 => text "OP_RESERVED"
  | 0x62 => text "OP_VER"
  | 0x65 => text "OP_VERIF"
  | 0x66 => text "OP_VERNOTIF"
  | 0x89 => text "OP_RESERVED1"
  | 0x8A => text "OP_RESERVED2"
  | 0xBA => text "OP_CHECKSIGADD"
  | 0xFA => text "OP_SMALLINTEGER"
  | 0xFB => text "OP_PUBKEYS"
  | 0xFD => text "OP_PUBKEYHASH"
  | 0xFE => text "OP_PUBKEY"
  | 0xFF => text "OP_INVALIDOPCODE"
  | _ => text "OP_UNKNOWN" ++ Bytes.ofNat code.toNat

/-- The short text of a code without data. -/
def codeText (code : UInt8) : Bytes :=
  match Opcode.ofCode? code with
  | some (.small n) => Bytes.ofInt n.val
  | some o => o.name
  | none => foreignName code

/-- The short text of a token. -/
def Token.short : Token → Bytes
  | .op code => codeText code
  | .push _ data => Hex.encode data

/-- The script on one line. -/
def disassemble (script : Bytes) : Except Cause Bytes :=
  match tokens script with
  | (_, some flaw) => .error (.script flaw)
  | (ts, none) => .ok (Bytes.join (text " ") (ts.map Token.short))

end NamedStack.Script
