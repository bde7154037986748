import NamedStack.Machine.State
import NamedStack.Proofs.Sequence

/-!
# The machine by position

The machine once more, on stacks whose items are reached by position, counted from the bottom, and
are taken out and put in by cutting the stacks at positions. A position outside of a stack is a
fault. Bottom first or top first, the machine does the same, and a fault is where it stops.
-/

namespace NamedStack.Positional

open Sequence (get slice)

/-- A conditional that is open. -/
structure Frame where
  entry : List Item
  alt : List Item
  arm : List Item := []
  /-- Whether there was an `ELSE`. -/
  inElse : Bool := false
  deriving DecidableEq, Repr

/-- The stacks and the open conditionals, the lowest and the outermost first. -/
structure State where
  main : List Item := []
  alt : List Item := []
  frames : List Frame := []
  deriving DecidableEq, Repr

namespace State

/-- Put items on the main stack, the last one on top. -/
def push (s : State) (items : List Item) : State := { s with main := s.main ++ items }

/-- Take the item on top. -/
def pop (s : State) : Except Fault (Item × State) :=
  if s.main.length = 0 then .ok (.anonymous, s)
  else do
    let i ← get s.main (s.main.length - 1)
    let rest ← slice s.main 0 (s.main.length - 1)
    return (i, { s with main := rest })

/-- Take so many items from the top. -/
def popMany : Nat → State → Except Fault State
  | 0, s => .ok s
  | n + 1, s => do popMany n (← s.pop).2

/-- The item at a distance from the top. -/
def peek (s : State) (n : Int) : Except Fault Item :=
  if s.main.length - 1 - n < 0 then .ok .anonymous else get s.main (s.main.length - 1 - n)

/-- Take the item at a distance from the top. -/
def remove (s : State) (n : Int) : Except Fault (Item × State) :=
  if s.main.length - 1 - n < 0 then .ok (.anonymous, s)
  else do
    let i ← get s.main (s.main.length - 1 - n)
    let below ← slice s.main 0 (s.main.length - 1 - n)
    let above ← slice s.main (s.main.length - 1 - n + 1) s.main.length
    return (i, { s with main := below ++ above })

/-- Put copies of items at distances from the top on the stack. -/
def pushCopies (s : State) (ns : List Int) : Except Fault State := do
  let items ← ns.mapM fun n => do return (← s.peek n).duplicate
  return s.push items

/-- Move the item at a distance from the top to the top. -/
def raise (s : State) (n : Int) : Except Fault State := do
  let r ← s.remove n
  return r.2.push [r.1]

/-- Move two items at distances from the top to the top. -/
def raisePair (s : State) (n k : Int) : Except Fault State := do
  let a ← s.remove n
  let b ← a.2.remove k
  return b.2.push [a.1, b.1]

/-- Put a copy of the item on top below the second item. -/
def tuck (s : State) : Except Fault State := do
  let top ← s.peek 0
  let i : Int := if (s.main.length : Int) - 2 < 0 then 0 else s.main.length - 2
  let below ← slice s.main 0 i
  let above ← slice s.main i s.main.length
  return { s with main := below ++ top.duplicate :: above }

/-- Name the item on top; no other item keeps that name. -/
def assign (s : State) (name : Name) : Except Fault State := do
  let cleared := s.main.map fun i =>
    if i.name = name then { i with name := [], copy := false } else i
  let main := if cleared.length = 0 then [.anonymous] else cleared
  let top ← get main (main.length - 1)
  let rest ← slice main 0 (main.length - 1)
  return { s with main := rest ++ [{ top with name, copy := false }] }

/-- Run an opcode whose effect is its number of arguments and its height change. -/
def generic (s : State) (t : Step) : Except Fault State := do
  let s ← popMany t.args.length s
  return s.push (List.replicate (t.args.length + t.delta).toNat .anonymous)

end State

/-- Join the stacks that two arms leave, position by position. -/
def merge (first second : List Item) : Except Fault (List Item) :=
  if first.length = second.length then
    (List.range first.length).mapM fun (i : Nat) => do
      let a ← get first i
      let b ← get second i
      return if a = b then a else .anonymous
  else .ok first

/-- Run an opcode. -/
def runOp (s : State) (t : Step) (o : Opcode) : Except Fault State :=
  match o with
  | .small n => .ok (s.push [.number n.val])
  | .opIf | .opNotIf => do
    let s := (← s.pop).2
    return { s with frames := s.frames ++ [{ entry := s.main, alt := s.alt }] }
  | .opElse =>
    if s.frames.length = 0 then .ok s
    else do
      let f ← get s.frames (s.frames.length - 1)
      let outer ← slice s.frames 0 (s.frames.length - 1)
      return { main := f.entry, alt := f.alt,
               frames := outer ++ [{ f with arm := s.main, inElse := true }] }
  | .opEndIf =>
    if s.frames.length = 0 then .ok s
    else do
      let f ← get s.frames (s.frames.length - 1)
      let outer ← slice s.frames 0 (s.frames.length - 1)
      let main ← if f.inElse then merge f.arm s.main else merge s.main f.entry
      return { s with main, frames := outer }
  | .toAltStack => do
    let r ← s.pop
    return { r.2 with alt := r.2.alt ++ [r.1] }
  | .fromAltStack =>
    if s.alt.length = 0 then .ok (s.push [.anonymous])
    else do
      let i ← get s.alt (s.alt.length - 1)
      let rest ← slice s.alt 0 (s.alt.length - 1)
      return { s with alt := rest }.push [i]
  | .ifDup => do
    let top ← s.peek 0
    let doubles := match top.num with
      | some n => n != 0
      | none => t.delta == 1
    return if doubles then s.push [top.duplicate] else s
  | .depth => .ok (s.push [.number s.main.length])
  | .drop => s.popMany 1
  | .drop2 => s.popMany 2
  | .dup => s.pushCopies [0]
  | .dup2 => s.pushCopies [1, 0]
  | .dup3 => s.pushCopies [2, 1, 0]
  | .nip => do return (← s.remove 1).2
  | .over => s.pushCopies [1]
  | .over2 => s.pushCopies [3, 2]
  | .pick => do
    let r ← s.pop
    match r.1.num with
    | none => return r.2.push [.anonymous]
    | some n => r.2.pushCopies [n]
  | .roll => do
    let r ← s.pop
    match r.1.num with
    | none => return r.2
    | some n => r.2.raise n
  | .rot => s.raise 2
  | .rot2 => s.raisePair 5 4
  | .swap => s.raise 1
  | .swap2 => s.raisePair 3 2
  | .tuck => s.tuck
  | .size => .ok (s.push [.anonymous])
  | _ => s.generic t

/-- Run a step. -/
def step (s : State) (t : Step) : Except Fault State :=
  match t.instr with
  | .op o => runOp s t o
  | .push data =>
    .ok (s.push [match ScriptNum.read? data with
      | some n => .number n
      | none => .anonymous])
  | .inner _ => .ok (s.push [.anonymous])
  | .assign name => s.assign name
  | .assume name | .var name => .ok (s.push [{ name, copy := true }])
  | .call _ _ => .ok s

/-- An initial stack, bottom first. -/
def start (names : List Name) : State := { main := names.map fun n => { name := n } }

/-- Run steps in order. -/
def run (s : State) (steps : List Step) : Except Fault State := steps.foldlM step s

/-! ### The same machine -/

/-- An open conditional with its stacks bottom first. -/
def ofFrame (f : NamedStack.Frame) : Frame :=
  { entry := f.entry.reverse, alt := f.alt.reverse, arm := (f.arm.getD []).reverse,
    inElse := f.arm.isSome }

/-- The stacks of a machine bottom first. -/
def ofMachine (m : Machine) : State :=
  { main := m.main.reverse, alt := m.alt.reverse, frames := (m.frames.map ofFrame).reverse }

/-- What a step of the machine comes to: its stacks, or a fault where it stops. -/
def outcome : Except Machine Machine → Except Fault State
  | .ok m => .ok (ofMachine m)
  | .error _ => .error .outOfRange

section
variable (m : Machine)

private theorem push_ofMachine (items : List Item) :
    (ofMachine m).push items = ofMachine (m.push items) := by
  simp [State.push, ofMachine, Machine.push]

private theorem pop_ofMachine : (ofMachine m).pop = .ok (m.pop.1, ofMachine m.pop.2) := by
  obtain ⟨initial, main, alt, frames⟩ := m
  cases main with
  | nil => rfl
  | cons i rest =>
    simp only [State.pop, ofMachine, List.reverse_cons, Sequence.get_last, Sequence.slice_front]
    rw [if_neg (by simp)]
    rfl

private theorem popMany_ofMachine (n : Nat) :
    (ofMachine m).popMany n = .ok (ofMachine (m.drop n)) := by
  induction n generalizing m with
  | zero => rfl
  | succ n ih =>
    have hdrop : m.pop.2.drop n = m.drop (n + 1) := by
      simp only [Machine.pop, Machine.drop, List.drop_tail]
    rw [State.popMany, pop_ofMachine]
    exact (ih m.pop.2).trans (by rw [hdrop])

private theorem length_main_ofMachine : (ofMachine m).main.length = m.main.length :=
  List.length_reverse

private theorem peek_ofMachine (n : Nat) : (ofMachine m).peek n = .ok (m.peek n) := by
  unfold State.peek
  rw [length_main_ofMachine]
  split
  · rw [Machine.peek, List.getElem?_eq_none (by omega)]
    rfl
  · have hn : n < m.main.length := by omega
    refine Sequence.get_eq_ok (by omega) ?_
    rw [Machine.peek, List.getElem?_eq_getElem hn, Option.getD_some, ofMachine,
      List.getElem?_reverse (by omega), List.getElem?_eq_getElem (by omega)]
    congr
    omega

/-- A negative distance leads out of the stack. -/
theorem peek_neg {n : Int} (hn : n < 0) : (ofMachine m).peek n = .error .outOfRange := by
  unfold State.peek
  rw [length_main_ofMachine, if_neg (by omega)]
  exact Sequence.get_eq_error (by rw [length_main_ofMachine]; omega)

private theorem remove_ofMachine (n : Nat) :
    (ofMachine m).remove n = .ok ((m.take n).1, ofMachine (m.take n).2) := by
  have hpeek := peek_ofMachine m n
  unfold State.peek at hpeek
  unfold State.remove
  rw [length_main_ofMachine] at hpeek ⊢
  split at hpeek
  · next hout =>
    have herase : m.main.eraseIdx n = m.main := List.eraseIdx_of_length_le (by omega)
    rw [if_pos hout, Machine.take, herase, ← Except.ok.inj hpeek]
  · next hin =>
    have hlen := length_main_ofMachine m
    rw [if_neg hin, hpeek, Sequence.slice_eq_ok (by decide) (by omega) (by omega),
      Sequence.slice_eq_ok (by omega) (by omega) (by omega)]
    have hmain : m.main.reverse.take (m.main.length - (n + 1)) ++
        m.main.reverse.drop (m.main.length - n) = (m.main.eraseIdx n).reverse := by
      rw [List.eraseIdx_eq_take_drop_succ, List.reverse_append, List.reverse_drop,
        List.reverse_take]
    have hbelow : ((m.main.length : Int) - 1 - n).toNat = m.main.length - (n + 1) := by omega
    have habove : ((m.main.length : Int) - 1 - n + 1).toNat = m.main.length - n := by omega
    have hall : (ofMachine m).main.take (m.main.length : Int).toNat = m.main.reverse := by
      rw [Int.toNat_natCast, ← hlen, List.take_length]
      rfl
    rw [hall, hbelow, habove]
    refine congrArg Except.ok (Prod.ext rfl ?_)
    exact congrArg (fun main => { ofMachine m with main }) hmain

/-- A negative distance leads out of the stack. -/
theorem remove_neg {n : Int} (hn : n < 0) : (ofMachine m).remove n = .error .outOfRange := by
  unfold State.remove
  rw [length_main_ofMachine, if_neg (by omega),
    Sequence.get_eq_error (by rw [length_main_ofMachine]; omega)]
  rfl

private theorem pushCopies_ofMachine (ns : List Nat) :
    (ofMachine m).pushCopies (ns.map Int.ofNat) = .ok (ofMachine (m.pushCopies ns)) := by
  have hitems : (ns.map Int.ofNat).mapM
      (fun n => do return (← (ofMachine m).peek n).duplicate) =
        .ok ((ns.map Int.ofNat).map fun n => (m.peek n.toNat).duplicate) := by
    refine Sequence.mapM_eq_ok fun n hn => ?_
    obtain ⟨n, -, rfl⟩ := List.mem_map.mp hn
    rw [show (ofMachine m).peek (Int.ofNat n) = .ok (m.peek n) from peek_ofMachine m n]
    rfl
  unfold State.pushCopies
  rw [hitems, List.map_map]
  exact congrArg Except.ok (push_ofMachine m _)

private theorem raise_ofMachine (n : Nat) :
    (ofMachine m).raise n = .ok (ofMachine (m.raise n)) := by
  unfold State.raise
  rw [remove_ofMachine]
  exact congrArg Except.ok (push_ofMachine _ _)

private theorem raisePair_ofMachine (n : Nat) :
    (ofMachine m).raisePair (n + 1 : Nat) n = .ok (ofMachine (m.raisePair (n + 1))) := by
  unfold State.raisePair
  rw [remove_ofMachine]
  change (State.remove (ofMachine (m.take (n + 1)).2) n >>= _) = _
  rw [remove_ofMachine]
  exact congrArg Except.ok (push_ofMachine _ _)

private theorem tuck_ofMachine : (ofMachine m).tuck = .ok (ofMachine
    { m with main := m.main.take 2 ++ (m.peek 0).duplicate :: m.main.drop 2 }) := by
  unfold State.tuck
  rw [show (ofMachine m).peek 0 = .ok (m.peek 0) from peek_ofMachine m 0]
  obtain ⟨initial, main, alt, frames⟩ := m
  rcases main with _ | ⟨a, _ | ⟨b, rest⟩⟩
  · rfl
  · rfl
  · have hmain : (a :: b :: rest).reverse = rest.reverse ++ [b, a] := by simp
    have hi : ((rest.reverse ++ [b, a]).length : Int) - 2 = rest.reverse.length := by simp
    simp only [ofMachine, hmain, hi]
    rw [if_neg (by omega), Sequence.slice_eq_ok (by decide) (by omega) (by simp),
      Sequence.slice_eq_ok (by omega) (by simp) (by omega)]
    rw [Int.toNat_natCast, Int.toNat_natCast, List.take_length, List.take_left, List.drop_left]
    refine congrArg Except.ok ?_
    simp

private theorem assign_ofMachine (name : Name) :
    (ofMachine m).assign name = .ok (ofMachine (m.assign name)) := by
  obtain ⟨initial, main, alt, frames⟩ := m
  cases main with
  | nil => rfl
  | cons i rest =>
    simp only [State.assign, ofMachine, List.reverse_cons, List.map_append, List.map_cons,
      List.map_nil]
    rw [if_neg (by simp), Sequence.get_last, Sequence.slice_front]
    simp only [Machine.assign, List.map_cons, List.map_reverse, List.reverse_cons]
    rfl

private theorem generic_ofMachine (t : Step) :
    (ofMachine m).generic t = .ok (ofMachine (m.generic t)) := by
  unfold State.generic
  rw [popMany_ofMachine]
  refine congrArg Except.ok ((push_ofMachine _ _).trans ?_)
  rfl

end

private theorem merge_eq (first second : List Item) :
    merge first second = .ok (Machine.merge first second) := by
  unfold merge Machine.merge
  split
  · next hlen =>
    rw [Sequence.mapM_eq_ok (g := fun i =>
      if first[i]?.getD .anonymous = second[i]?.getD .anonymous then first[i]?.getD .anonymous
      else .anonymous)]
    · refine congrArg Except.ok (List.ext_getElem (by simp [hlen]) fun i hi _ => ?_)
      rw [List.length_map, List.length_range] at hi
      simp [hi, hlen ▸ hi]
    · intro i hi
      have hfirst : i < first.length := List.mem_range.mp hi
      have hsecond : i < second.length := hlen ▸ hfirst
      rw [Sequence.get_eq_ok (by omega) (List.getElem?_eq_getElem hfirst),
        Sequence.get_eq_ok (by omega) (List.getElem?_eq_getElem hsecond)]
      simp [hfirst, hsecond, bind, Except.bind, pure, Except.pure]
  · rfl

/-- Stacks are joined alike from either end. -/
theorem merge_reverse (first second : List Item) :
    merge first.reverse second.reverse = .ok (Machine.merge first second).reverse := by
  rw [merge_eq]
  unfold Machine.merge
  rw [List.length_reverse, List.length_reverse]
  split
  · next hlen => rw [List.reverse_zipWith hlen]
  · rfl

private theorem runOp_pick (m : Machine) (t : Step) :
    runOp (ofMachine m) t .pick = outcome (m.runOp t .pick) := by
  unfold runOp Machine.runOp
  rw [pop_ofMachine]
  dsimp only [bind, Except.bind]
  cases m.pop.1.num with
  | none => exact congrArg Except.ok (push_ofMachine _ _)
  | some n =>
    by_cases hn : n < 0
    · dsimp only
      rw [if_pos hn, State.pushCopies, List.mapM_cons, peek_neg _ hn]
      rfl
    · dsimp only
      rw [if_neg hn]
      obtain ⟨k, rfl⟩ := Int.eq_ofNat_of_zero_le (Int.not_lt.mp hn)
      exact pushCopies_ofMachine _ [k]

private theorem runOp_roll (m : Machine) (t : Step) :
    runOp (ofMachine m) t .roll = outcome (m.runOp t .roll) := by
  unfold runOp Machine.runOp
  rw [pop_ofMachine]
  dsimp only [bind, Except.bind]
  cases m.pop.1.num with
  | none => rfl
  | some n =>
    by_cases hn : n < 0
    · dsimp only
      rw [if_pos hn, State.raise, remove_neg _ hn]
      rfl
    · dsimp only
      rw [if_neg hn]
      obtain ⟨k, rfl⟩ := Int.eq_ofNat_of_zero_le (Int.not_lt.mp hn)
      exact raise_ofMachine _ k

private theorem runOp_marker (m : Machine) (t : Step) {o : Opcode} (ho : o.isMarker = true) :
    runOp (ofMachine m) t o = outcome (m.runOp t o) := by
  cases o with
  | opIf | opNotIf =>
    unfold runOp Machine.runOp
    rw [pop_ofMachine]
    simp [outcome, ofMachine, ofFrame, Machine.pop, Machine.drop, bind, Except.bind, pure,
      Except.pure]
  | opElse =>
    obtain ⟨initial, main, alt, frames⟩ := m
    cases frames with
    | nil => rfl
    | cons f rest =>
      simp only [runOp, ofMachine, List.map_cons, List.reverse_cons]
      rw [if_neg (by simp), Sequence.get_last, Sequence.slice_front]
      simp [Machine.runOp, outcome, ofMachine, ofFrame, bind, Except.bind, pure, Except.pure]
  | opEndIf =>
    obtain ⟨initial, main, alt, frames⟩ := m
    cases frames with
    | nil => rfl
    | cons f rest =>
      simp only [runOp, ofMachine, List.map_cons, List.reverse_cons]
      rw [if_neg (by simp), Sequence.get_last, Sequence.slice_front]
      obtain ⟨entry, falt, _ | arm⟩ := f
      · have hmerge := merge_reverse main entry
        simp [Machine.runOp, outcome, ofMachine, ofFrame, bind, Except.bind, pure, Except.pure,
          hmerge]
      · have hmerge := merge_reverse arm main
        simp [Machine.runOp, outcome, ofMachine, ofFrame, bind, Except.bind, pure, Except.pure,
          hmerge]
  | _ => cases ho

/-- An opcode does the same by position. -/
theorem runOp_ofMachine (m : Machine) (t : Step) (o : Opcode) :
    runOp (ofMachine m) t o = outcome (m.runOp t o) := by
  by_cases hmark : o.isMarker = true
  · exact runOp_marker m t hmark
  by_cases hover : o = .over
  · subst hover
    exact pushCopies_ofMachine m [1]
  cases o with
  | opIf | opNotIf | opElse | opEndIf => exact absurd rfl hmark
  | small | size => exact congrArg Except.ok (push_ofMachine m _)
  | depth =>
    change Except.ok ((ofMachine m).push [.number (ofMachine m).main.length]) = _
    rw [length_main_ofMachine, push_ofMachine]
    rfl
  | drop => exact popMany_ofMachine m 1
  | drop2 => exact popMany_ofMachine m 2
  | dup => exact pushCopies_ofMachine m [0]
  | dup2 => exact pushCopies_ofMachine m [1, 0]
  | dup3 => exact pushCopies_ofMachine m [2, 1, 0]
  | over2 => exact pushCopies_ofMachine m [3, 2]
  | rot => exact raise_ofMachine m 2
  | swap => exact raise_ofMachine m 1
  | rot2 => exact raisePair_ofMachine m 4
  | swap2 => exact raisePair_ofMachine m 2
  | tuck => exact tuck_ofMachine m
  | nip =>
    have hsecond : (ofMachine m).remove 1 = .ok ((m.take 1).1, ofMachine (m.take 1).2) :=
      remove_ofMachine m 1
    simp only [runOp, hsecond]
    rfl
  | toAltStack =>
    unfold runOp Machine.runOp
    rw [pop_ofMachine]
    simp [outcome, ofMachine, Machine.pop, bind, Except.bind, pure, Except.pure]
  | fromAltStack =>
    obtain ⟨initial, main, alt, frames⟩ := m
    cases alt with
    | nil => exact congrArg Except.ok (push_ofMachine _ _)
    | cons i rest =>
      simp only [runOp, ofMachine, List.reverse_cons]
      rw [if_neg (by simp), Sequence.get_last, Sequence.slice_front]
      simp [Machine.runOp, Machine.push, State.push, outcome, ofMachine, bind, Except.bind, pure,
        Except.pure]
  | ifDup =>
    have htop : (ofMachine m).peek 0 = .ok (m.peek 0) := peek_ofMachine m 0
    have hdoubles (b : Bool) (m' : Machine) :
        Except.ok (if b then ofMachine m' else ofMachine m) =
          outcome (.ok (if b then m' else m)) := by
      cases b <;> rfl
    simp only [runOp, Machine.runOp, htop, bind, Except.bind, push_ofMachine]
    exact hdoubles _ _
  | pick => exact runOp_pick m t
  | roll => exact runOp_roll m t
  | _ =>
    first
      | exact absurd rfl hover
      | exact generic_ofMachine m t

/-- Both machines start alike. -/
theorem start_eq (names : List Name) : start names = ofMachine (Machine.start names) := by
  simp [start, ofMachine, Machine.start]

/-- A step does the same by position. -/
theorem step_ofMachine (m : Machine) (t : Step) : step (ofMachine m) t = outcome (m.step t) := by
  unfold step Machine.step
  cases t.instr with
  | op o => exact runOp_ofMachine m t o
  | push | inner | assume | var => exact congrArg Except.ok (push_ofMachine m _)
  | assign name => exact assign_ofMachine m name
  | call => rfl

/-- A run does the same by position. -/
theorem run_ofMachine (m : Machine) (steps : List Step) :
    run (ofMachine m) steps = outcome (m.run steps) := by
  induction steps generalizing m with
  | nil => rfl
  | cons t steps ih =>
    rw [run, Machine.run, List.foldlM_cons, List.foldlM_cons, step_ofMachine]
    cases m.step t with
    | error m' => rfl
    | ok m' => exact ih m'

end NamedStack.Positional
