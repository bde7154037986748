import NamedStack.Address.Base58
import NamedStack.Failure

/-!
# Outputs that pay to a script's hash

Such an output names a script by its hash, and its address depends on the network.
-/

namespace NamedStack

/-- The networks. -/
inductive Network where
  | mainnet | testnet3 | regtest | simnet | signet
  deriving DecidableEq, Repr

namespace Network

/-- The name of a network. -/
def name : Network → Bytes
  | .mainnet => text "mainnet"
  | .testnet3 => text "testnet3"
  | .regtest => text "regtest"
  | .simnet => text "simnet"
  | .signet => text "signet"

/-- All networks. -/
def all : List Network := [.mainnet, .testnet3, .regtest, .simnet, .signet]

/-- The version in front of a script hash in an address. -/
def version : Network → UInt8
  | .mainnet => 0x05
  | .testnet3 | .regtest | .signet => 0xC4
  | .simnet => 0x7B

/-- The text in lower case, as far as network names are concerned: the ASCII letters, and the two
characters outside of ASCII (dotted I and the Kelvin sign) whose lower-case form is an ASCII
letter. -/
def lower : Bytes → Bytes
  | [] => []
  | 0xC4 :: 0xB0 :: rest => 105 :: lower rest
  | 0xE2 :: 0x84 :: 0xAA :: rest => 107 :: lower rest
  | c :: rest => (if 65 ≤ c ∧ c ≤ 90 then c + 32 else c) :: lower rest

/-- The network with a name; case does not matter. -/
def ofName (b : Bytes) : Except Cause Network :=
  match all.find? fun n => n.name = lower b with
  | some n => .ok n
  | none => .error (.unknownNet b)

end Network

/-- An output that pays to a script's hash. -/
structure ScriptHash where
  hash : Bytes
  /-- The script of the output: hash the given script, and compare. -/
  output : Bytes
  address : Bytes
  deriving DecidableEq, Repr

/-- The output that pays to a script on a network. -/
def ScriptHash.of (script : Bytes) (net : Network) : ScriptHash :=
  let hash := Hash.hash160 script
  { hash
    output := [0xA9, 0x14] ++ hash ++ [0x87]
    address := Base58.encodeChecked net.version hash }

end NamedStack
