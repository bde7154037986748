import NamedStack.Hash.Ripemd160
import NamedStack.Hash.Sha1
import NamedStack.Hash.Sha256
import NamedStack.Opcode

/-!
# The hash functions of scripts

The five hash opcodes, two of which are a composition: a hash of a hash.
-/

namespace NamedStack

namespace Hash

/-- SHA-256 twice. -/
def double (m : Bytes) : Bytes := Sha256.hash (Sha256.hash m)

/-- The hash that an output commits to: RIPEMD-160 of SHA-256. -/
def hash160 (m : Bytes) : Bytes := Ripemd160.hash (Sha256.hash m)

end Hash

/-- The function that a hash opcode computes. -/
def HashOp.apply : HashOp → Bytes → Bytes
  | .ripemd160 => Hash.Ripemd160.hash
  | .sha1 => Hash.Sha1.hash
  | .sha256 => Hash.Sha256.hash
  | .hash160 => Hash.hash160
  | .hash256 => Hash.double

end NamedStack
