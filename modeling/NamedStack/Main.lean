import NamedStack.Command.Run

/-!
# The command line

Reads the arguments, the environment, the input and the files, runs the command and writes what it
gives.
-/

namespace NamedStack.Command

/-- All that a stream has. -/
def readAll (stream : IO.FS.Stream) : IO ByteArray := do
  let mut all := ByteArray.empty
  repeat
    let chunk ← stream.read 65536
    if chunk.isEmpty then break
    all := all ++ chunk
  return all

/-- The content of a file, or why it cannot be read. -/
def readFile (name : Bytes) : IO (Except FileError Bytes) := do
  try
    return .ok (← IO.FS.readBinFile (Text.display name)).data.toList
  catch
    | .noFileOrDirectory .. => return .error .notFound
    | .inappropriateType _ code _ =>
      return .error (if code = 20 then .notDirectory else .isDirectory)
    | .permissionDenied .. => return .error .denied
    | _ => return .error .unreadable

/-- The part of the environment that the command looks at. -/
def readEnvironment : IO Environment := do
  let found ← envDefaults.filterMapM fun v => do
    return (← IO.getEnv (Text.display v.name)).map fun value => (v.name, text value)
  return fun name => found.lookup name

/-- The reading of the clock in nanoseconds, as it is logged. -/
def now : IO Bytes := return Bytes.ofNat (← IO.monoNanosNow)

/-- Carry out a plan. -/
def carryOut (p : Plan) : IO Outcome := do
  let input ← if p.files.isEmpty then readAll (← IO.getStdin) else pure .empty
  let files ← p.files.mapM fun name => do return (name, ← readFile name)
  let read (name : Bytes) := (files.lookup name).getD (.error .notFound)
  return p.run { caller := text "command", time := ← now } input.data.toList read

end NamedStack.Command

/-- Run the command. -/
def main (args : List String) : IO UInt32 := do
  let o ← match NamedStack.Command.plan (← NamedStack.Command.readEnvironment)
      (args.map NamedStack.text) with
    | .error o => pure o
    | .ok p => NamedStack.Command.carryOut p
  (← IO.getStdout).write ⟨o.out.toArray⟩
  (← IO.getStderr).write ⟨o.err.toArray⟩
  return UInt32.ofNat o.code
