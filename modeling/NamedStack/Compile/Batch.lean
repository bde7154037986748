import NamedStack.Compile.Unit

/-!
# Compiling several units

The units of a batch are compiled at the same time, each by a job of its own. A job first looks
whether the batch was called off, then compiles its unit, and then stores the result or reports the
failure. The first failure that is reported is that of the batch, and calls it off. A schedule says
in which order the jobs take their steps.
-/

namespace NamedStack.Batch

/-- How far a job has come. -/
inductive Job where
  /-- It has not looked yet whether the batch was called off. -/
  | waiting
  /-- It found that the batch goes on. -/
  | started
  /-- It has compiled its unit. -/
  | compiled (outcome : Except Failure Output)
  /-- It is over. -/
  | over

/-- Why a batch ends without results. -/
inductive Error where
  /-- A unit failed. -/
  | failed (f : Failure)
  /-- The batch had been called off. -/
  | calledOff
  deriving DecidableEq, Repr

/-- The state of a batch. -/
structure State where
  jobs : List Job
  results : List (Option Output)
  /-- The first failure that was reported. -/
  error : Option Error := none
  calledOff : Bool := false
  /-- What the jobs compiled, in the order in which they did. -/
  attempts : List Attempt := []

namespace State

/-- The state before any job takes a step. -/
def start (sources : List Source) : State :=
  { jobs := sources.map fun _ => .waiting, results := sources.map fun _ => none }

/-- A job moves on. -/
def move (s : State) (i : Nat) (j : Job) : State := { s with jobs := s.jobs.set i j }

/-- A failure is reported: the first one counts, and calls the batch off. -/
def report (s : State) (e : Error) : State :=
  { s with error := s.error <|> some e, calledOff := true }

/-- The job of a unit takes a step. -/
def step (sources : List Source) (o : Options) (s : State) (i : Nat) : State :=
  match s.jobs[i]?, sources[i]? with
  | some .waiting, some _ =>
    if s.calledOff then (s.report .calledOff).move i .over else s.move i .started
  | some .started, some source =>
    let attempt := source.compile o
    { s.move i (.compiled attempt.outcome) with attempts := s.attempts ++ [attempt] }
  | some (.compiled (.ok out)), some _ =>
    { s.move i .over with results := s.results.set i (some out) }
  | some (.compiled (.error f)), some source =>
    (s.report (.failed (f.note (.data [Cause.strItem "unit" source.name])))).move i .over
  | _, _ => s

/-- The jobs take steps in an order. -/
def run (sources : List Source) (o : Options) (schedule : List Nat) : State :=
  schedule.foldl (step sources o) (start sources)

/-- The results of a batch whose jobs are over: all or none. -/
def conclude (s : State) : Except Error (List Output) :=
  match s.error with
  | some e => .error e
  | none => .ok (s.results.filterMap id)

end State

/-- The schedule in which each job runs to its end before the next one starts. -/
def inOrder (n : Nat) : List Nat := (List.range n).flatMap fun i => [i, i, i]

/-- Compile units one after another. -/
def compileAll (sources : List Source) (o : Options) : State :=
  .run sources o (inOrder sources.length)

end NamedStack.Batch
