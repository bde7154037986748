/-!
# Latency histograms

Durations in nanoseconds, from a microsecond to a minute, are counted in ranges that get wider as
the durations get longer, so that two digits of each duration are kept. A range has a bucket, which
says how wide it is, and a place in that bucket; the first bucket has 256 places and every further
one adds the upper half of another 256.
-/

namespace NamedStack.Metrics

/-- The least duration that is told apart. -/
def lowest : Nat := 1000

/-- The greatest duration that is told apart. -/
def highest : Nat := 60000000000

/-- The number of digits that are kept. -/
def sigfigs : Nat := 2

/-- The number of ranges. -/
def rangeCount : Nat := 2688

/-- A duration within the limits. -/
def clamp (ns : Int) : Nat :=
  if ns < lowest then lowest else if (highest : Int) < ns then highest else ns.toNat

/-- The number of binary digits of a number. -/
def bitLength (n : Nat) : Nat := if n = 0 then 0 else n.log2 + 1

/-- The bucket of a duration. -/
def bucket (ns : Nat) : Nat := bitLength (ns ||| (255 <<< 9)) - 17

/-- The number of the range that a duration belongs to. -/
def rangeOf (ns : Nat) : Nat :=
  let b := bucket ns
  ((b + 1) <<< 7) + (ns >>> (b + 9)) - 128

/-- The greatest duration of a range. -/
def greatestIn (range : Nat) : Nat :=
  let b := if range < 256 then 0 else range / 128 - 1
  let place := if range < 256 then range else 128 + range % 128
  ((place + 1) <<< (b + 9)) - 1

/-- How often each range was recorded. -/
structure Histogram where
  counts : List Nat := List.replicate rangeCount 0
  deriving DecidableEq, Repr

namespace Histogram

/-- Record a duration. -/
def record (h : Histogram) (ns : Int) : Histogram :=
  { counts := h.counts.modify (rangeOf (clamp ns)) (· + 1) }

/-- The number of durations recorded. -/
def total (h : Histogram) : Nat := h.counts.foldr (· + ·) 0

/-- The ranges that were recorded, with how often. -/
def nonZero (h : Histogram) : List (Nat × Nat) :=
  (h.counts.zipIdx.filter fun p => p.1 ≠ 0).map fun p => (p.2, p.1)

/-- The first range at which so many durations have been recorded. -/
def rangeAt (target : Nat) (sofar : Nat) : List (Nat × Nat) → Option Nat
  | [] => none
  | (range, n) :: rest =>
    if target ≤ sofar + n then some range else rangeAt target (sofar + n) rest

/-- The duration that so many of a hundred recorded ones do not exceed; zero if there are none. -/
def quantile (h : Histogram) (percent : Nat) : Nat :=
  match rangeAt ((percent * h.total + 50) / 100) 0 h.nonZero with
  | some range => greatestIn range
  | none => 0

/-- The greatest duration recorded. -/
def max (h : Histogram) : Nat := greatestIn ((h.nonZero.getLast?.map (·.1)).getD 0)

/-- What is shown of a histogram. -/
structure Summary where
  count : Nat
  p50 : Nat
  p99 : Nat
  max : Nat
  deriving DecidableEq, Repr

/-- The summary of a histogram. -/
def summary (h : Histogram) : Summary :=
  { count := h.total, p50 := h.quantile 50, p99 := h.quantile 99, max := h.max }

end Histogram

end NamedStack.Metrics
