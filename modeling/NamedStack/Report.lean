import NamedStack.Scalar

/-!
# Annotated failures

A failure has a root, which says what kind of failure it is, and is annotated on its way up: context
in front of the message, details for the user, and data items by name. A later data item replaces an
earlier one of the same name. The root can be exchanged while the annotations stay.
-/

namespace NamedStack

/-- A failure with its annotations. -/
structure Report (ρ : Type) where
  /-- The kind of failure. -/
  root : ρ
  /-- The message, with all context in front. -/
  message : Bytes
  /-- The details, in the order they were added. -/
  details : List Bytes := []
  /-- The data items, if any were ever attached. -/
  data : Option (List (Bytes × Scalar)) := none
  deriving Repr

namespace Report

variable {ρ σ : Type}

/-- Add context in front of the message; empty context changes nothing. -/
def wrap (msg : Bytes) (r : Report ρ) : Report ρ :=
  if msg.isEmpty then r else { r with message := msg ++ text ": " ++ r.message }

/-- Exchange the root and keep the annotations. -/
def withRoot (root : σ) (r : Report ρ) : Report σ :=
  { root, message := r.message, details := r.details, data := r.data }

/-- Add a detail, which is also context; it is recorded even if it is empty. -/
def addDetail (detail : Bytes) (r : Report ρ) : Report ρ :=
  { r.wrap detail with details := r.details ++ [detail] }

/-- Add a detail unless it is empty. -/
def withDetail (detail : Bytes) (r : Report ρ) : Report ρ :=
  if detail.isEmpty then r else r.addDetail detail

/-- Set one data item among the items so far. -/
def setItem (items : List (Bytes × Scalar)) (key : Bytes) (v : Scalar) : List (Bytes × Scalar) :=
  match items with
  | [] => [(key, v)]
  | (k, w) :: rest => if k = key then (key, v) :: rest else (k, w) :: setItem rest key v

/-- Attach data items. -/
def withData (items : List (Bytes × Scalar)) (r : Report ρ) : Report ρ :=
  { r with data := some (items.foldl (fun acc i => setItem acc i.1 i.2) (r.data.getD [])) }

/-- The details in one text. -/
def detail (r : Report ρ) : Bytes := Bytes.join (text "; ") r.details

/-- The data items in the order of their names. -/
def sortedData (r : Report ρ) : List (Bytes × Scalar) :=
  (r.data.getD []).mergeSort fun a b => Bytes.le a.1 b.1

/-- The message for a human reader, with the data items in brackets. -/
def diagnostic (r : Report ρ) : Bytes :=
  match r.sortedData with
  | [] => r.message
  | items =>
    r.message ++ text " [" ++
      Bytes.join (text " ") (items.map fun i => i.1 ++ text "=" ++ i.2.print) ++ text "]"

/-- Why a list of values cannot be read as names and values of data items. -/
inductive DataError where
  /-- A name has no value after it. -/
  | oddLength (message : Bytes)
  /-- A name is not a text. -/
  | keyNotText
  deriving DecidableEq, Repr

/-- The names and values of data items from a list in which they alternate. -/
def dataItems (vs : List Scalar) : Except DataError (List (Bytes × Scalar)) :=
  if vs.length % 2 = 1 then
    .error <| .oddLength <| text "errors.WithData: odd-length keyval [" ++
      Bytes.join (text " ") (vs.map Scalar.print) ++ text "]"
  else pairs vs
where
  /-- The items of a list of even length. -/
  pairs : List Scalar → Except DataError (List (Bytes × Scalar))
    | .str k :: v :: rest => (pairs rest).map ((k, v) :: ·)
    | _ :: _ :: _ => .error .keyNotText
    | _ => .ok []

end Report

end NamedStack
