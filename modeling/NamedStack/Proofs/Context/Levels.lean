import NamedStack.Engine.Run
import NamedStack.Step

/-!
# Heights on a path

Inside of conditionals it is known at which height their arms start, and at which height a first arm
ended once there is a second one. The number of items on a path is the height that is followed from
the left where code is run; elsewhere it is the height at the end of the arm that was run. Heights
are followed by going back to the start of a conditional for its second arm.
-/

namespace NamedStack

open Engine

/-- Whether code is run inside of conditionals, the innermost first. -/
def Engine.runs : List Cond → Bool
  | [] => true
  | c :: _ => c = .taken

/-- The height at which the arms of an open conditional start, and the height at the end of the
first arm once there is a second one. -/
structure Level (α : Type) where
  entry : α
  arm : Option α := none
  deriving DecidableEq, Repr

variable {α : Type}

/-- The number of items on the path that the conditionals say: the known height where code is
run, else that at the end of the arm that was run, or at the start of the conditional. -/
inductive Fits : List (Level α) → List Cond → α → α → Prop
  | outside {n : α} : Fits [] [] n n
  | taken {a : Level α} {arms : List (Level α)} {conds : List Cond} {height n m : α}
      (hruns : runs conds = true) (h : Fits arms conds height m) :
      Fits (a :: arms) (.taken :: conds) n n
  | skipped {a : Level α} {arms : List (Level α)} {conds : List Cond} {height height' m : α}
      (hruns : runs conds = true) (h : Fits arms conds height m) :
      Fits (a :: arms) (.skipped :: conds) height' (a.arm.getD a.entry)
  | inert {a : Level α} {arms : List (Level α)} {conds : List Cond} {height height' n : α}
      (hruns : runs conds = false) (h : Fits arms conds height n) :
      Fits (a :: arms) (.inert :: conds) height' n

namespace Fits

variable {arms : List (Level α)} {conds : List Cond} {height n : α}

/-- Where code is run, the number of items is the height. -/
theorem eq_of_runs (h : Fits arms conds height n) (hr : runs conds = true) : n = height := by
  cases h with
  | outside => rfl
  | taken => rfl
  | skipped => cases hr
  | inert => cases hr

/-- Where code is run, the number of items goes with the height. -/
theorem move (h : Fits arms conds height n) (hr : runs conds = true) (m : α) :
    Fits arms conds m m := by
  cases h with
  | outside => exact .outside
  | taken hruns h => exact .taken hruns h
  | skipped => cases hr
  | inert => cases hr

/-- Where code is not run, it stays. -/
theorem stay (h : Fits arms conds height n) (hr : runs conds = false) (m : α) :
    Fits arms conds m n := by
  cases h with
  | outside => cases hr
  | taken => cases hr
  | skipped hruns h => exact .skipped hruns h
  | inert hruns h => exact .inert hruns h

/-- Inside of a conditional there is one. -/
theorem exists_cons {a : Level α} (h : Fits (a :: arms) conds height n) :
    ∃ c cs, conds = c :: cs := by
  cases h <;> exact ⟨_, _, rfl⟩

/-- Entering a conditional where code is run, whichever arm is taken. -/
theorem opens (h : Fits arms conds height n) (hr : runs conds = true) (b : Bool) (m : α) :
    Fits ({ entry := m } :: arms) (.ofBool b :: conds) m m := by
  cases b with
  | true => exact .taken hr h
  | false => exact .skipped (a := { entry := m }) hr h

/-- Going on to the second arm. -/
theorem toggle {entry : α} {c : Cond} (h : Fits ({ entry } :: arms) (c :: conds) height n) :
    Fits ({ entry, arm := some height } :: arms) (c.toggle :: conds) entry n := by
  cases h with
  | taken hr h => exact .skipped (a := { entry, arm := some height }) hr h
  | skipped hr h => exact .taken hr h
  | inert hr h => exact .inert hr h

/-- Closing a conditional whose arms end at the same height. -/
theorem close {a : Level α} {c : Cond}
    (h : Fits (a :: arms) (c :: conds) (a.arm.getD a.entry) n) :
    Fits arms conds (a.arm.getD a.entry) n := by
  cases h with
  | taken hr h => exact h.move hr _
  | skipped hr h => exact h.move hr _
  | inert hr h => exact h.stay hr _

/-- Outside of all conditionals code is run. -/
theorem conds_eq_nil (h : Fits [] conds height n) : conds = [] := by
  cases h
  rfl

end Fits

/-! ### Heights from the left -/

/-- A height, with the open conditionals from the inside out. -/
structure Heights where
  now : Int
  levels : List (Level Int) := []
  deriving DecidableEq, Repr

namespace Heights

/-- Go past a step; nothing if the conditionals are not balanced. -/
def step (h : Heights) (s : Step) : Option Heights :=
  match s.instr with
  | .op .opIf | .op .opNotIf =>
    some { now := h.now + s.delta, levels := { entry := h.now + s.delta } :: h.levels }
  | .op .opElse =>
    match h.levels with
    | { entry, arm := none } :: ls =>
      some { now := entry, levels := { entry, arm := some h.now } :: ls }
    | _ => none
  | .op .opEndIf =>
    match h.levels with
    | l :: ls => some { now := l.arm.getD h.now, levels := ls }
    | [] => none
  | _ => some { h with now := h.now + s.delta }

/-- Go past steps. -/
def run (h : Heights) (steps : List Step) : Option Heights := steps.foldlM step h

/-- The ways past a step. -/
inductive Moves (h : Heights) (s : Step) : Heights → Prop
  | plain (hinstr : ∀ o, s.instr = .op o → o.isMarker = false) :
      Moves h s { h with now := h.now + s.delta }
  | opens (hinstr : s.instr = .op .opIf ∨ s.instr = .op .opNotIf) :
      Moves h s { now := h.now + s.delta, levels := { entry := h.now + s.delta } :: h.levels }
  | splits {entry : Int} {ls : List (Level Int)} (hinstr : s.instr = .op .opElse)
      (hlevels : h.levels = { entry } :: ls) :
      Moves h s { now := entry, levels := { entry, arm := some h.now } :: ls }
  | closes {l : Level Int} {ls : List (Level Int)} (hinstr : s.instr = .op .opEndIf)
      (hlevels : h.levels = l :: ls) : Moves h s { now := l.arm.getD h.now, levels := ls }

/-- A step is one of these ways. -/
theorem moves_of_step {h h' : Heights} {s : Step} (hs : h.step s = some h') : Moves h s h' := by
  unfold step at hs
  split at hs
  · next hinstr =>
    cases hs
    exact .opens (.inl hinstr)
  · next hinstr =>
    cases hs
    exact .opens (.inr hinstr)
  · next hinstr =>
    split at hs
    · next hlevels =>
      cases hs
      exact .splits hinstr hlevels
    · cases hs
  · next hinstr =>
    split at hs
    · next hlevels =>
      cases hs
      exact .closes hinstr hlevels
    · cases hs
  · next hif hnotif helse hend =>
    cases hs
    apply Moves.plain
    intro o ho
    rw [ho] at hif hnotif helse hend
    cases o with
    | opIf => exact absurd rfl hif
    | opNotIf => exact absurd rfl hnotif
    | opElse => exact absurd rfl helse
    | opEndIf => exact absurd rfl hend
    | _ => rfl

end Heights

end NamedStack
