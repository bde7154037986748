import NamedStack.Bytes
import NamedStack.Metrics.Histogram

/-!
# Counters and latencies by name

A counter or a latency exists from the first time it is named. Counters have 64 bits with sign and
wrap round.
-/

namespace NamedStack.Metrics

/-- All counters and latencies, in the order in which they were first named. -/
structure Registry where
  counters : List (Name × Int64) := []
  latencies : List (Name × Histogram) := []

namespace Registry

/-- Change the entry under a name, which starts from a default. -/
def change {α : Type} (name : Name) (start : α) (f : α → α) : List (Name × α) → List (Name × α)
  | [] => [(name, f start)]
  | (k, a) :: rest => if k = name then (k, f a) :: rest else (k, a) :: change name start f rest

/-- The value of a counter. -/
def counter (r : Registry) (name : Name) : Int64 := (r.counters.lookup name).getD 0

/-- Add to a counter. -/
def add (r : Registry) (name : Name) (n : Int64) : Registry :=
  { r with counters := change name 0 (· + n) r.counters }

/-- The histogram of a latency. -/
def latency (r : Registry) (name : Name) : Histogram := (r.latencies.lookup name).getD {}

/-- Record durations under a latency. -/
def record (r : Registry) (name : Name) (ns : List Int) : Registry :=
  { r with latencies := change name {} (fun h => ns.foldl Histogram.record h) r.latencies }

/-- The names of the latencies in order. -/
def latencyNames (r : Registry) : List Name := Bytes.sort (r.latencies.map (·.1))

/-- The counters in the order of their names, each on a line with its value. -/
def counterLines (r : Registry) : Bytes :=
  (Bytes.sort (r.counters.map (·.1))).flatMap fun name =>
    name ++ text " " ++ Bytes.ofInt (r.counter name).toInt ++ text "\n"

end Registry

end NamedStack.Metrics
