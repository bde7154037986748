import NamedStack.Step

/-!
# Templates over runs of steps

A template is a list of matchers, one for each step of a run. Replacing by a template walks through
a program from the left: a run that matches is replaced and the walk goes on behind the replacement,
except that after an empty replacement it goes back one step, since the gap may have joined a new
match. The walk is a function of the steps passed, in reverse, and the steps ahead.
-/

namespace NamedStack

/-- A test on one instruction. -/
inductive Matcher where
  /-- Every instruction. -/
  | any
  /-- One opcode. -/
  | op (o : Opcode)
  /-- Any small integer. -/
  | smallInt
  /-- Any pushed data. -/
  | push
  /-- Any read of a value of the initial stack. -/
  | assumption
  /-- A literal: pushed data or a small integer. -/
  | value
  /-- An instruction that pushes one item and reads nothing. -/
  | operand
  /-- An instruction that is no marker of a conditional. -/
  | notMarker
  /-- One instruction. -/
  | exactly (i : Instr)

namespace Matcher

/-- Whether a matcher accepts an instruction. -/
def accepts : Matcher → Instr → Bool
  | .any, _ => true
  | .op o, .op p => o = p
  | .smallInt, .op o => o.smallInt?.isSome
  | .push, .push _ => true
  | .assumption, .assume _ => true
  | .value, .push _ => true
  | .value, .op o => o.smallInt?.isSome
  | .operand, .push _ | .operand, .assume _ | .operand, .var _ | .operand, .inner _ => true
  | .operand, .op o => o.smallInt?.isSome
  | .notMarker, .op o => !o.isMarker
  | .notMarker, _ => true
  | .exactly i, j => i = j
  | _, _ => false

/-- Whether a matcher looks at no instruction. -/
def isAny : Matcher → Bool
  | .any => true
  | _ => false

end Matcher

/-- A pattern for a run of steps. -/
abbrev Template := List Matcher

namespace Template

/-- The template of opcodes in order. -/
def ops (os : List Opcode) : Template := os.map .op

/-- Whether a program starts with a run that matches. -/
def matchesFront : Template → List Step → Bool
  | [], _ => true
  | _ :: _, [] => false
  | m :: t, s :: rest => m.accepts s.instr && matchesFront t rest

/-- Whether the run from a position on matches; no run starts before the first step or ends behind
the last one. Positions have 64 bits: where the end of a run has no number it is not compared with
that of the program, and a step that is looked at is missing. -/
def matchesAt (t : Template) (steps : List Step) (i : Int) : Except Fault Bool :=
  match i with
  | .negSucc _ => .ok false
  | .ofNat i =>
    if i + t.length < 9223372036854775808 then
      .ok (decide (i ≤ steps.length) && matchesFront t (steps.drop i))
    else if t.all Matcher.isAny then .ok true
    else .error .outOfRange

/-- The result of replacing by a template. -/
structure Outcome where
  steps : List Step
  /-- Whether a run was replaced by something else than itself. -/
  changed : Bool
  /-- The number of runs that matched. -/
  runs : Nat

/-- A program that starts with a match is at least as long as the template. -/
theorem length_le_of_matchesFront : ∀ {t : Template} {steps : List Step},
    matchesFront t steps = true → t.length ≤ steps.length
  | [], _, _ => Nat.zero_le _
  | _ :: _, [], h => by simp [matchesFront] at h
  | m :: t, s :: rest, h => by
    simp only [matchesFront, Bool.and_eq_true] at h
    exact Nat.succ_le_succ (length_le_of_matchesFront h.2)

/-- The steps passed and the steps ahead after a run was replaced by nothing. A match can span the
gap only if a template has more than one matcher; the last step passed then comes up again. -/
def close (t : Template) (passed rest : List Step) : List Step × List Step :=
  match t, passed with
  | _ :: _ :: _, p :: passed => (passed, p :: rest)
  | _, passed => (passed, rest)

/-- Closing a gap leaves fewer steps ahead than there were with the run. -/
theorem length_close_lt {t : Template} {passed steps : List Step} (ht : t ≠ [])
    (h : matchesFront t steps = true) :
    (close t passed (steps.drop t.length)).2.length < steps.length := by
  have hle := length_le_of_matchesFront h
  match t, passed with
  | [m], _ => simp only [close, List.length_drop, List.length_cons] at *; omega
  | _ :: _ :: _, [] => simp only [close, List.length_drop, List.length_cons] at *; omega
  | _ :: _ :: _, _ :: _ => simp only [close, List.length_drop, List.length_cons] at *; omega

/-- Replace matching runs, given the steps passed in reverse and the steps ahead. A template without
matchers has no run to replace. -/
def walk (t : Template) (f : List Step → List Step) (passed ahead : List Step) (changed : Bool)
    (runs : Nat) : Outcome :=
  match ahead with
  | [] => { steps := passed.reverse, changed, runs }
  | s :: rest =>
    if h : t ≠ [] ∧ matchesFront t (s :: rest) then
      let run := (s :: rest).take t.length
      let left := (s :: rest).drop t.length
      let new := f run
      let changed := changed || Step.instrs new != Step.instrs run
      if new.isEmpty then
        walk t f (close t passed left).1 (close t passed left).2 changed (runs + 1)
      else walk t f (new.reverse ++ passed) left changed (runs + 1)
    else walk t f (s :: passed) rest changed runs
termination_by ahead.length
decreasing_by
  · exact length_close_lt h.1 h.2
  · have := List.length_pos_iff.2 h.1
    simp only [List.length_drop, List.length_cons]
    omega
  · simp

/-- Replace every matching run of a program, from the left. -/
def replace (t : Template) (f : List Step → List Step) (steps : List Step) : Outcome :=
  walk t f [] steps false 0

/-- The positions of the instructions that a matcher accepts. -/
def positions (m : Matcher) (steps : List Step) : List Nat :=
  (steps.zipIdx.filter fun p => m.accepts p.1.instr).map (·.2)

end Template

namespace Step

/-- Replace the steps from one position up to another. The positions have to lie in the program;
when the second one comes first, the steps between stand before and after the new ones. -/
def splice (steps : List Step) (first last : Int) (new : List Step) : Except Fault (List Step) :=
  if 0 ≤ first ∧ first ≤ steps.length ∧ 0 ≤ last ∧ last ≤ steps.length then
    .ok (steps.take first.toNat ++ new ++ steps.drop last.toNat)
  else .error .outOfRange

end Step

end NamedStack
