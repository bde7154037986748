import NamedStack.Report

/-!
# Log entries

An entry is one line of keys and values, each pair written `key=value`, with a space in front of all
but the first. The line starts with the unit that is compiled, the place that wrote the entry and
the time. So that pairs can be told apart, a value with a delimiter in it is quoted, and delimiters,
equals signs and quotes in a key are written as hyphens. Keys may occur more than once.
-/

namespace NamedStack.Log

/-- The characters that may stand between pairs. -/
def delimiters : Bytes := text " ,;|&\t\n\r"

/-- The characters that do not stand in a key. -/
def illegalInKey : Bytes := delimiters ++ text "=\""

/-- The key for the place that wrote the entry. -/
def callerKey : Bytes := text "at"

/-- The key for lines that follow the entry. -/
def stackKey : Bytes := text "stack"

/-- A key as it is written; an empty key is written as a question mark. -/
def key (k : Scalar) : Bytes :=
  if k.print.isEmpty then text "?"
  else k.print.map fun c => if illegalInKey.contains c then 45 else c

/-- A value as it is written. -/
def value (v : Scalar) : Bytes :=
  if v.print.any delimiters.contains then Text.quote v.print else v.print

/-- One pair, with the space in front of it. -/
def pair (k v : Scalar) : Bytes := text " " ++ key k ++ text "=" ++ value v

/-- What every entry starts with. -/
structure Stamp where
  /-- The unit that is compiled, empty if there is none. -/
  unit : Name := []
  caller : Bytes
  time : Bytes
  deriving DecidableEq, Repr

/-- The name of a unit; none is written as a hyphen. -/
def unitName (unit : Name) : Bytes := if unit.isEmpty then text "-" else unit

/-- The start of an entry. -/
def header (s : Stamp) (caller : Bytes) : Bytes :=
  text "unit=" ++ value (.str (unitName s.unit)) ++ text " at=" ++ caller ++
    text " t=" ++ value (.str s.time)

/-- The lines after an entry that a pair gives: bytes under the key for them. -/
def stack? (k v : Scalar) : Option Bytes :=
  match v with
  | .bytes b => if k = .str stackKey then some b else none
  | _ => none

/-- The pairs of a list in which keys and values alternate; a last key without a value is left out.
-/
def pairs : List Scalar → Bytes
  | k :: v :: rest => (if (stack? k v).isSome then [] else pair k v) ++ pairs rest
  | _ => []

/-- The lines after an entry that a list gives, after those given so far; the last ones count. -/
def stackOf (sofar : Bytes) : List Scalar → Bytes
  | k :: v :: rest => stackOf ((stack? k v).getD sofar) rest
  | _ => sofar

/-- A list with an even number of members: a key without a value gets an empty one and a remark. -/
def evened (kvs : List Scalar) : List Scalar :=
  if kvs.length % 2 = 1 then
    kvs ++ [.str [], .str (text "log-error"), .str (text "odd number of log params")]
  else kvs

/-- The place that wrote the entry and the pairs without it: a first pair may replace it. -/
def callerOf (s : Stamp) : List Scalar → Bytes × List Scalar
  | k :: v :: rest =>
    if k = .str callerKey then (value v, rest) else (s.caller, k :: v :: rest)
  | kvs => (s.caller, kvs)

/-- The text without newlines at its end. -/
def trimNewlines (b : Bytes) : Bytes := (b.reverse.dropWhile (· = 10)).reverse

/-- Lines after an entry as they are written. -/
def stackLines (b : Bytes) : Bytes := if b.isEmpty then [] else trimNewlines b ++ text "\n"

/-- An entry with its newline and the lines that follow it. -/
def entry (s : Stamp) (kvs : List Scalar) : Bytes :=
  let (caller, kvs) := callerOf s (evened kvs)
  header s caller ++ pairs kvs ++ text "\n" ++ stackLines (stackOf [] kvs)

/-- The keys and values for a failure, with context in front of its message and the data items in
the order of their names. -/
def failure {ρ : Type} (r : Option (Report ρ)) (context : List Scalar) : List Scalar :=
  match r with
  | none => [.str (text "error"), .null]
  | some r =>
    let wrapped := if context.isEmpty then r else r.wrap (Scalar.printAll context)
    .str (text "error") :: .str wrapped.message ::
      r.sortedData.flatMap fun i => [.str i.1, i.2]

/-- The keys and values for a fault. -/
def recovered (v : Scalar) : List Scalar :=
  [.str (text "message"), .str (text "panic"), .str (text "error"), v]

end NamedStack.Log
