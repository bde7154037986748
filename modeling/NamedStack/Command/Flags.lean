import NamedStack.Environment
import NamedStack.Options

/-!
# Flags of the command

A flag is written with one or two hyphens. A truth value is set by the flag alone or with `=` and a
value; any other flag takes its value after `=` or from the next argument. Flags end at the first
argument that is none, or after two hyphens. Some defaults come from the environment.
-/

namespace NamedStack.Command

/-- What the flags and the environment set. -/
structure Settings where
  format : Bytes := text "hex"
  hex : Bool := false
  p2sh : Bool := false
  rules : Bool := false
  exec : Bytes := []
  net : Bytes := text "mainnet"
  verbose : Bool := false
  options : Options := {}
  deriving DecidableEq, Repr

/-- The flags, in the order of their names. -/
inductive Flag where
  | allowInvalid | altStack | exec | format | inlineNames | net | p2sh | peephole | rules | verbose
  | hex
  deriving DecidableEq, Repr

namespace Flag

/-- All flags, in the order of their names. -/
def all : List Flag :=
  [.allowInvalid, .altStack, .exec, .format, .inlineNames, .net, .p2sh, .peephole, .rules, .verbose,
    .hex]

/-- The name of a flag. -/
def name : Flag → Bytes
  | .allowInvalid => text "allow-invalid-comparisons"
  | .altStack => text "altstack"
  | .exec => text "exec"
  | .format => text "f"
  | .inlineNames => text "inline"
  | .net => text "net"
  | .p2sh => text "p2sh"
  | .peephole => text "peephole"
  | .rules => text "rules"
  | .verbose => text "v"
  | .hex => text "x"

/-- What the value of a flag is called; a truth value has no name. -/
def argument? : Flag → Option Bytes
  | .exec => some (text "values")
  | .format => some (text "format")
  | .net => some (text "network")
  | _ => none

/-- What a flag is for. -/
def purpose : Flag → Bytes
  | .allowInvalid => text "allow hash comparisons against literals of the wrong size"
  | .altStack => text "move values read after uneven conditionals to the alt stack"
  | .exec => text "run each script against the pushed values"
  | .format => text "output format: hex, asm or ir"
  | .inlineNames => text "resolve names to stack operations"
  | .net => text "network for -p2sh addresses"
  | .p2sh => text "also print the pay-to-script-hash output"
  | .peephole => text "run peephole optimizations"
  | .rules => text "list the peephole rules and exit"
  | .verbose => text "log to stderr and print metrics"
  | .hex => text "read serialized scripts in hex"

/-- The value of a flag: a text or a truth value. -/
def value (s : Settings) : Flag → Bytes ⊕ Bool
  | .allowInvalid => .inr s.options.allowInvalidComparisons
  | .altStack => .inr s.options.useAltStack
  | .exec => .inl s.exec
  | .format => .inl s.format
  | .inlineNames => .inr s.options.inlineNames
  | .net => .inl s.net
  | .p2sh => .inr s.p2sh
  | .peephole => .inr s.options.peephole
  | .rules => .inr s.rules
  | .verbose => .inr s.verbose
  | .hex => .inr s.hex

/-- Set a flag that takes a text. -/
def setText (b : Bytes) (s : Settings) : Flag → Settings
  | .exec => { s with exec := b }
  | .format => { s with format := b }
  | .net => { s with net := b }
  | _ => s

/-- Set a flag that is a truth value. -/
def setBool (b : Bool) (s : Settings) : Flag → Settings
  | .allowInvalid => { s with options.allowInvalidComparisons := b }
  | .altStack => { s with options.useAltStack := b }
  | .inlineNames => { s with options.inlineNames := b }
  | .p2sh => { s with p2sh := b }
  | .peephole => { s with options.peephole := b }
  | .rules => { s with rules := b }
  | .verbose => { s with verbose := b }
  | .hex => { s with hex := b }
  | .exec | .format | .net => s

/-- The default of a flag as the usage text shows it, which leaves out false and empty values. -/
def shownDefault (s : Settings) (f : Flag) : Bytes :=
  match f.value s with
  | .inl [] | .inr false => []
  | .inl b => text " (default " ++ Text.quote b ++ text ")"
  | .inr true => text " (default true)"

/-- The line or lines of the usage text for a flag. -/
def usage (s : Settings) (f : Flag) : Bytes :=
  let start := text "  -" ++ f.name ++ ((f.argument?.map (text " " ++ ·)).getD [])
  start ++ (if start.length ≤ 4 then text "\t" else text "\n    \t") ++ f.purpose ++
    f.shownDefault s ++ text "\n"

end Flag

/-- The usage text before the flags. -/
def help : Bytes :=
  Bytes.join (text "\n") <| List.map text <|
    ["Usage: txsc [flags] [file...]",
      "",
      "Command txsc reads programs from the named files, or from stdin",
      "if there are none, compiles each one and prints the result.",
      "",
      "A program is assembly with named values:",
      "",
      "\tstack(sig, pubkey)",
      "\tfunc(check, h) \x7b HASH160 var(h) EQUALVERIFY \x7d",
      "\tassume(pubkey) DUP call(check) \x7b 0x... \x7d assume(sig) SWAP CHECKSIG",
      "",
      "With -x the input is a serialized script in hex instead.",
      "",
      "With -exec each compiled script is run by the script engine",
      "against a spending input that pushes the given values, for",
      "example -exec \"0x3045... 0x02...\". With -v the engine traces",
      "each step to stderr.",
      "",
      "Exit code 0 indicates success.",
      "Exit code 1 indicates a compile error.",
      "Exit code 2 indicates a usage or I/O error.",
      "",
      "Environment variables set the defaults of the matching flags:",
      "TXSC_ALLOW_INVALID_COMPARISONS, TXSC_ALTSTACK, TXSC_PEEPHOLE,",
      "TXSC_INLINE, TXSC_NET and TXSC_VERBOSE.",
      "",
      "Flags:",
      ""]

/-- The usage text, with the given defaults. -/
def usage (defaults : Settings) : Bytes := help ++ Flag.all.flatMap (Flag.usage defaults)

/-- The variables of the environment that set defaults, with what holds without them. -/
def envDefaults : List Environment.Variable :=
  [⟨text "TXSC_ALLOW_INVALID_COMPARISONS", .bool false⟩, ⟨text "TXSC_ALTSTACK", .bool true⟩,
    ⟨text "TXSC_PEEPHOLE", .bool true⟩, ⟨text "TXSC_INLINE", .bool true⟩,
    ⟨text "TXSC_NET", .str (text "mainnet")⟩, ⟨text "TXSC_VERBOSE", .bool false⟩]

/-- Take over the value of a variable. -/
def applyVariable (s : Settings) (v : Environment.Variable) : Settings :=
  let flag? : Option Flag :=
    [(text "TXSC_ALLOW_INVALID_COMPARISONS", Flag.allowInvalid), (text "TXSC_ALTSTACK", .altStack),
      (text "TXSC_PEEPHOLE", .peephole), (text "TXSC_INLINE", .inlineNames),
      (text "TXSC_NET", .net), (text "TXSC_VERBOSE", .verbose)].lookup v.name
  match flag?, v.value with
  | some f, .bool b => f.setBool b s
  | some f, .str b => f.setText b s
  | _, _ => s

/-- The defaults that the environment sets. -/
def defaults (env : Environment) : Except Cause Settings :=
  match env.load envDefaults with
  | (_, some c) => .error c
  | (vs, none) => .ok (vs.foldl applyVariable {})

/-- Why arguments cannot be read. -/
inductive FlagError where
  | badForm (arg : Bytes)
  | undefined (name : Bytes)
  | badBool (value name : Bytes)
  | needsArgument (name : Bytes)
  /-- No error: the usage text was asked for. -/
  | help
  deriving DecidableEq, Repr

/-- The line for an error, which the usage text follows. -/
def FlagError.line : FlagError → Bytes
  | .badForm arg => text "bad flag syntax: " ++ arg ++ text "\n"
  | .undefined name => text "flag provided but not defined: -" ++ name ++ text "\n"
  | .badBool value name =>
    text "invalid boolean value " ++ Text.quote value ++ text " for -" ++ name ++
      text ": parse error\n"
  | .needsArgument name => text "flag needs an argument: -" ++ name ++ text "\n"
  | .help => []

/-- An argument taken apart. -/
inductive Arg where
  /-- No flag; flags end before it. -/
  | plain
  /-- Two hyphens; flags end after it. -/
  | stop
  /-- A flag, by its name and the value written into the same argument. -/
  | flag (name : Bytes) (value : Option Bytes)
  /-- Neither. -/
  | bad

/-- A flag without its hyphens; an equals sign after the first character starts the value. -/
def splitFlag (b : Bytes) : Arg :=
  match b with
  | [] => .bad
  | c :: rest =>
    if c = 45 ∨ c = 61 then .bad
    else
      let more := rest.takeWhile (· ≠ 61)
      match rest.drop more.length with
      | [] => .flag (c :: more) none
      | _ :: value => .flag (c :: more) (some value)

/-- Take an argument apart. -/
def Arg.of : Bytes → Arg
  | [45, 45] => .stop
  | 45 :: 45 :: name => splitFlag name
  | 45 :: c :: name => splitFlag (c :: name)
  | _ => .plain

/-- Read arguments up to the first that is no flag, and give the rest. -/
def readFlags (s : Settings) : List Bytes → Except FlagError (Settings × List Bytes)
  | [] => .ok (s, [])
  | arg :: rest =>
    match Arg.of arg with
    | .plain => .ok (s, arg :: rest)
    | .stop => .ok (s, rest)
    | .bad => .error (.badForm arg)
    | .flag name value =>
      match Flag.all.find? fun f => f.name = name with
      | none =>
        if name = text "help" ∨ name = text "h" then .error .help else .error (.undefined name)
      | some f =>
        if f.argument?.isNone then
          match value with
          | none => readFlags (f.setBool true s) rest
          | some v =>
            match Text.readBool v with
            | .ok b => readFlags (f.setBool b s) rest
            | .error _ => .error (.badBool v name)
        else
          match value, rest with
          | some v, rest => readFlags (f.setText v s) rest
          | none, v :: rest => readFlags (f.setText v s) rest
          | none, [] => .error (.needsArgument name)

end NamedStack.Command
