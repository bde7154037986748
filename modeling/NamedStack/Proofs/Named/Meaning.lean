import NamedStack.Proofs.Context.Levels
import NamedStack.Proofs.Engine.Limits
import NamedStack.Source.Program

/-!
# The meaning of programs with names

A program with names works on a stack of expressions, which starts empty, and a store that gives
each name a value. A read pushes the value of a name, a write takes the top of the stack into the
store, and everything else acts on the stack as the engine does. Programs are structured if the
height of that stack is known at every instruction, whatever path is taken to it: no instruction
reaches below its bottom, arms end at the same height, and a write finds one item.
-/

namespace NamedStack.Named

open Engine

/-! ### Running a program with names -/

/-- A state of the engine, whose main stack is the stack of expressions, and the value of each
name. -/
structure State extends Engine.State where
  store : Name → Bytes

/-- The values of the names of the initial stack; names are listed bottom first. -/
def initial (names : List Name) (items : Stack) : Name → Bytes :=
  fun x => ((names.reverse.zip items).lookup x).getD []

variable {names : List Name} {literal : Option Int} {i : Instr} {front e : Stack}

/-- Each of distinct names finds its item. -/
theorem lookup_zip (hn : names.Nodup) {items : Stack} {x : Name} {v : Bytes}
    (h : (x, v) ∈ names.zip items) : (names.zip items).lookup x = some v := by
  induction names generalizing items with
  | nil => cases h
  | cons y names ih =>
    obtain ⟨hy, hn⟩ := List.nodup_cons.mp hn
    cases items with
    | nil => cases h
    | cons w items =>
      rw [List.zip_cons_cons] at h ⊢
      rcases List.mem_cons.mp h with heq | h
      · cases heq
        exact List.lookup_cons_self
      · have hne : (x == y) = false := beq_false_of_ne fun he => hy (he ▸ (List.of_mem_zip h).1)
        rw [List.lookup_cons, hne]
        exact ih hn h

/-- Run an instruction. Data is pushed in the form in which it is serialized: a lone zero byte is
written as `OP_0`, so that it pushes the empty string (`Engine.pushed`). Calls and inner scripts
have no meaning of their own here. -/
def step (valid : Checker) (s : State) : Instr → Except ExecError State
  | .op o =>
    if o.isDisabled then .error .opcodeFailed
    else (act valid s.toState (.opcode o)).map fun t => { s with toState := t }
  | .push data => (act valid s.toState (.data data)).map fun t => { s with toState := t }
  | .assume name | .var name =>
    .ok (if s.running then { s with main := s.store name :: s.main } else s)
  | .assign name =>
    if s.running then
      match s.main with
      | a :: main => .ok { s with main, store := Function.update s.store name a }
      | [] => .error .opcodeFailed
    else .ok s
  | .call _ _ | .inner _ => .error .opcodeFailed

/-- Run instructions one after another. -/
def run (valid : Checker) (s : State) (ops : List Instr) : Except ExecError State :=
  ops.foldlM (step valid) s

/-- Run a program on an initial stack. -/
def runProgram (valid : Checker) (p : Program) (items : Stack) : Except ExecError State :=
  run valid { main := [], store := initial p.stack items } p.ops

/-! ### Structured programs -/

/-- What is known in front of an instruction. -/
structure Shape where
  /-- The number of expressions on the stack. -/
  height : Nat := 0
  /-- The open conditionals, the innermost first. -/
  arms : List (Level Nat) := []
  /-- The number that the instruction before pushes, if it is a literal. -/
  literal : Option Int := none
  /-- The names that were written. -/
  written : List Name := []
  deriving DecidableEq, Repr

/-- How far an opcode reaches down into the stack, where that is known: the operand of `PICK` and
`ROLL` is the literal in front. -/
def reach (literal : Option Int) : Opcode → Option Nat
  | .pick | .roll =>
    match literal with
    | some n => if 0 ≤ n then some (n.toNat + 2) else none
    | none => none
  | .depth | .ifDup | .checkMultiSig | .checkMultiSigVerify | .toAltStack | .fromAltStack => none
  | o => some (o.info.args.foldl max 0).toNat

variable {o : Opcode} {r : Nat} {s s' : Shape} {stack : List Name}

/-- An opcode that reaches as far as a literal says is `PICK` or `ROLL`. -/
theorem reach_cases (h : reach literal o = some r) :
    ((o = .pick ∨ o = .roll) ∧ ∃ n, literal = some n ∧ 0 ≤ n ∧ r = n.toNat + 2) ∨
      reach none o = some r := by
  by_cases ho : o = .pick ∨ o = .roll
  · refine .inl ⟨ho, ?_⟩
    cases literal with
    | none => rcases ho with rfl | rfl <;> cases h
    | some n =>
      by_cases hn : 0 ≤ n
      · rcases ho with rfl | rfl <;> exact ⟨n, rfl, hn, by simpa [reach, hn] using h.symm⟩
      · rcases ho with rfl | rfl <;> simp [reach, hn] at h
  · right
    cases o <;> first | exact h | simp at ho

namespace Shape

/-- Go past an opcode that finds its operands. -/
def stepOp (s : Shape) (o : Opcode) : Option Shape :=
  let next : Shape :=
    { s with height := (s.height + o.info.delta).toNat, literal := o.smallInt? }
  match o with
  | .opIf | .opNotIf => some { next with arms := { entry := next.height } :: s.arms }
  | .opElse =>
    match s.arms with
    | { entry, arm := none } :: arms =>
      some { next with height := entry, arms := { entry, arm := some s.height } :: arms }
    | _ => none
  | .opEndIf =>
    match s.arms with
    | a :: arms => if s.height = a.arm.getD a.entry then some { next with arms } else none
    | [] => none
  | _ => some next

/-- Go past an instruction; nothing if the program is not structured there. -/
def step (stack : List Name) (s : Shape) : Instr → Option Shape
  | .op o =>
    match reach s.literal o with
    | some r => if r ≤ s.height then s.stepOp o else none
    | none => none
  | .push data => some { s with height := s.height + 1, literal := ScriptNum.read? data }
  | .assume name =>
    if name ∈ stack then some { s with height := s.height + 1, literal := none } else none
  | .var name =>
    if name ∈ stack ∨ name ∈ s.written then some { s with height := s.height + 1, literal := none }
    else none
  | .assign name =>
    if s.arms = [] ∧ s.height = 1 then
      some { height := 0, arms := [], literal := none, written := name :: s.written }
    else none
  | .call _ _ | .inner _ => none

/-- Go past instructions. -/
def run (stack : List Name) (s : Shape) (ops : List Instr) : Option Shape :=
  ops.foldlM (step stack) s

end Shape

/-- Whether an instruction reads a name. -/
def IsRead (i : Instr) (name : Name) : Prop := i = .assume name ∨ i = .var name

/-- The ways past an instruction. -/
inductive Shape.Moves (stack : List Name) (s : Shape) : Instr → Shape → Prop
  | plain {o : Opcode} {r : Nat} (hmark : o.isMarker = false) (hreach : reach s.literal o = some r)
      (hle : r ≤ s.height) :
      Moves stack s (.op o)
        { s with height := (s.height + o.info.delta).toNat, literal := o.smallInt? }
  | opens {o : Opcode} (ho : o = .opIf ∨ o = .opNotIf) (hle : 1 ≤ s.height) :
      Moves stack s (.op o)
        { s with
          height := s.height - 1, arms := { entry := s.height - 1 } :: s.arms, literal := none }
  | splits {entry : Nat} {arms : List (Level Nat)} (harms : s.arms = { entry } :: arms) :
      Moves stack s (.op .opElse)
        { s with
          height := entry, arms := { entry, arm := some s.height } :: arms, literal := none }
  | closes {a : Level Nat} {arms : List (Level Nat)} (harms : s.arms = a :: arms)
      (hend : s.height = a.arm.getD a.entry) :
      Moves stack s (.op .opEndIf) { s with arms, literal := none }
  | push (data : Bytes) :
      Moves stack s (.push data) { s with height := s.height + 1, literal := ScriptNum.read? data }
  | read {i : Instr} {name : Name} (hi : IsRead i name) (hname : name ∈ stack ∨ name ∈ s.written)
      (hassume : i = .assume name → name ∈ stack) :
      Moves stack s i { s with height := s.height + 1, literal := none }
  | write {name : Name} (hopen : s.arms = []) (hheight : s.height = 1) :
      Moves stack s (.assign name)
        { height := 0, arms := [], literal := none, written := name :: s.written }

private theorem Shape.moves_of_stepOp (hreach : reach s.literal o = some r) (hle : r ≤ s.height)
    (h : s.stepOp o = some s') : Moves stack s (.op o) s' := by
  cases hmark : o.isMarker with
  | false =>
    have hnext : s.stepOp o = some
        { s with height := (s.height + o.info.delta).toNat, literal := o.smallInt? } := by
      cases o <;> first | rfl | (cases hmark)
    cases hnext.symm.trans h
    exact .plain hmark hreach hle
  | true =>
    have hone : ((s.height : Int) + -1).toNat = s.height - 1 := by omega
    cases o with
    | opIf =>
      cases hreach
      cases h
      simp only [Opcode.info, hone]
      exact .opens (.inl rfl) hle
    | opNotIf =>
      cases hreach
      cases h
      simp only [Opcode.info, hone]
      exact .opens (.inr rfl) hle
    | opElse =>
      rw [Shape.stepOp] at h
      split at h
      · next entry arms harms =>
        cases h
        exact .splits harms
      · cases h
    | opEndIf =>
      rw [Shape.stepOp] at h
      split at h
      · next a arms harms =>
        split at h
        · next hend =>
          cases h
          simp only [Opcode.info, Int.add_zero, Int.toNat_natCast]
          exact .closes harms hend
        · cases h
      · cases h
    | _ => cases hmark

/-- Each step is one of the moves. -/
theorem Shape.moves_of_step (h : s.step stack i = some s') : Moves stack s i s' := by
  cases i with
  | op o =>
    rw [Shape.step] at h
    split at h
    · next r hreach =>
      split at h
      · next hle => exact moves_of_stepOp hreach hle h
      · cases h
    · cases h
  | push data =>
    cases h
    exact .push data
  | assume name =>
    rw [Shape.step] at h
    split at h
    · next hname =>
      cases h
      exact .read (.inl rfl) (.inl hname) fun _ => hname
    · cases h
  | var name =>
    rw [Shape.step] at h
    split at h
    · next hname =>
      cases h
      exact .read (.inr rfl) hname nofun
    · cases h
  | assign name =>
    rw [Shape.step] at h
    split at h
    · next hpos =>
      cases h
      exact .write hpos.1 hpos.2
    · cases h
  | call | inner => cases h

/-- The way past a read. -/
theorem Shape.step_read {name : Name} (hi : IsRead i name) (h : s.step stack i = some s') :
    s' = { s with height := s.height + 1, literal := none } ∧ (name ∈ stack ∨ name ∈ s.written) ∧
      (i = .assume name → name ∈ stack) := by
  cases moves_of_step h with
  | @read _ name' hi' hname hassume =>
    obtain rfl : name' = name := by
      rcases hi with rfl | rfl <;> rcases hi' with h | h <;> cases h <;> rfl
    exact ⟨rfl, hname, hassume⟩
  | _ => rcases hi with h | h <;> cases h

/-- One instruction is a step. -/
theorem Shape.run_singleton (stack : List Name) (s : Shape) (i : Instr) :
    s.run stack [i] = s.step stack i := by
  change (s.step stack i).bind some = _
  cases s.step stack i <;> rfl

/-- The way past a read alone. -/
theorem Shape.run_read {name : Name} (hi : IsRead i name) (h : s.run stack [i] = some s') :
    s' = { s with height := s.height + 1, literal := none } :=
  (step_read hi ((run_singleton ..).symm.trans h)).1

/-- The way past a write alone. -/
theorem Shape.run_write {name : Name} (h : s.run stack [.assign name] = some s') :
    s.arms = [] ∧ s.height = 1 ∧ s' = { written := name :: s.written } := by
  rw [run_singleton] at h
  cases moves_of_step h with
  | write hopen hheight => exact ⟨hopen, hheight, rfl⟩
  | read hi _ => rcases hi with h | h <;> cases h

/-- The way past reads. -/
theorem Shape.run_reads {reads : List Instr} (hreads : List.Forall₂ IsRead reads names)
    (h : s.run stack reads = some s') :
    s'.arms = s.arms ∧ s'.height = s.height + names.length ∧ s'.written = s.written ∧
      (s'.literal = none ∨ s'.literal = s.literal) := by
  induction hreads generalizing s with
  | nil =>
    cases h
    exact ⟨rfl, rfl, rfl, .inr rfl⟩
  | @cons i name reads names hi _ ih =>
    obtain ⟨mid, hmid, h⟩ := Option.bind_eq_some_iff.mp h
    obtain ⟨rfl, -⟩ := step_read hi hmid
    obtain ⟨harms, hheight, hwritten, hlit⟩ := ih h
    refine ⟨harms, ?_, hwritten, .inl (hlit.elim id id)⟩
    rw [hheight, List.length_cons]
    dsimp only
    omega

/-- The names that instructions write. -/
def writes (ops : List Instr) : List Name := ops.filterMap fun
  | .assign name => some name
  | _ => none

/-- The programs whose meaning is said here: no functions, distinct names that are not empty, and a
known height of the stack of expressions at every instruction. All positions on the stack can be
said by a number of the engine, which has four bytes. -/
structure Structured (p : Program) : Prop where
  functions : p.functions = []
  distinct : p.stack.Nodup
  named : ∀ name ∈ p.stack ++ writes p.ops, name ≠ []
  shaped : (Shape.run p.stack {} p.ops).map Shape.arms = some []
  bounded : p.stack.length + 3 * p.ops.length < 2 ^ 31

/-! ### What an opcode leaves alone -/

/-- Whether what an opcode does to items does not depend on what lies below them. -/
def ActsOn (valid : Checker) (o : Opcode) (front : Stack) : Prop :=
  (∀ rest, effect valid o (front ++ rest) = (effect valid o front).map (· ++ rest)) ∧
    ∀ e, effect valid o front = some e → (e.length : Int) = front.length + o.info.delta

private theorem ActsOn.append {valid : Checker} (h : ActsOn valid o front) (more : Stack) :
    ActsOn valid o (front ++ more) := by
  constructor
  · intro rest
    rw [List.append_assoc, h.1, h.1, Option.map_map]
    congr 1
    funext e
    simp
  · intro e he
    rw [h.1] at he
    obtain ⟨e', he', rfl⟩ := Option.map_eq_some_iff.mp he
    have := h.2 e' he'
    simp only [List.length_append]
    omega

private theorem actsOn_exact (valid : Checker) (hr : reach none o = some r)
    (hm : o.isMarker = false) (hf : front.length = r) : ActsOn valid o front := by
  cases o with
  | opIf | opNotIf | opElse | opEndIf => cases hm
  | pick | roll | depth | ifDup | checkMultiSig | checkMultiSigVerify | toAltStack | fromAltStack =>
    cases hr
  | opReturn | disabled => exact ⟨fun _ => rfl, fun e h => by cases h⟩
  | small | nop | codeSeparator =>
    cases hr
    obtain rfl := List.eq_nil_of_length_eq_zero hf
    exact ⟨fun _ => rfl, fun e h => by cases h; rfl⟩
  | reserved q =>
    obtain rfl : r = 0 := by cases q <;> exact (Option.some.inj hr).symm
    obtain rfl := List.eq_nil_of_length_eq_zero hf
    exact ⟨fun _ => rfl, fun e h => by cases h; cases q <;> rfl⟩
  | drop | dup | size | checkLockTimeVerify | checkSequenceVerify =>
    cases hr
    obtain ⟨x, rfl⟩ := List.length_eq_one_iff.mp hf
    exact ⟨fun _ => rfl, fun e h => by cases h; rfl⟩
  | hash h =>
    obtain rfl : r = 1 := by cases h <;> exact (Option.some.inj hr).symm
    obtain ⟨x, rfl⟩ := List.length_eq_one_iff.mp hf
    exact ⟨fun _ => rfl, fun e he => by cases he; cases h <;> rfl⟩
  | unary u =>
    obtain rfl : r = 1 := by cases u <;> exact (Option.some.inj hr).symm
    obtain ⟨x, rfl⟩ := List.length_eq_one_iff.mp hf
    cases hx : ScriptNum.read? x <;> simp [ActsOn, effect, onNumber, hx]
    cases u <;> rfl
  | verify =>
    cases hr
    obtain ⟨x, rfl⟩ := List.length_eq_one_iff.mp hf
    cases hx : isTrue x <;> simp [ActsOn, effect, Engine.verify, hx, Opcode.info]
  | binary b =>
    obtain rfl : r = 2 := by cases b <;> exact (Option.some.inj hr).symm
    obtain ⟨y, x, rfl⟩ := List.length_eq_two.mp hf
    cases hx : ScriptNum.read? x <;> cases hy : ScriptNum.read? y <;>
      simp [ActsOn, effect, onNumbers, hx, hy]
    cases b <;> rfl
  | equalVerify =>
    cases hr
    obtain ⟨y, x, rfl⟩ := List.length_eq_two.mp hf
    cases h : isTrue (ofBool (x = y)) <;>
      simp [ActsOn, effect, Engine.equal, Engine.verify, h, Opcode.info]
  | checkSigVerify =>
    cases hr
    obtain ⟨y, x, rfl⟩ := List.length_eq_two.mp hf
    cases h : isTrue (ofBool (valid.accepts x y)) <;>
      simp [ActsOn, effect, Engine.checkSig, Engine.verify, h, Opcode.info]
  | numEqualVerify =>
    cases hr
    obtain ⟨y, x, rfl⟩ := List.length_eq_two.mp hf
    cases hx : ScriptNum.read? x with
    | none => simp [ActsOn, effect, onNumbers, hx]
    | some n =>
      cases hy : ScriptNum.read? y with
      | none => simp [ActsOn, effect, onNumbers, hx, hy]
      | some m =>
        cases h : isTrue (ScriptNum.ofInt (Engine.binary .numEqual n m)) <;>
          simp [ActsOn, effect, onNumbers, hx, hy, Engine.verify, h, Opcode.info]
  | within =>
    cases hr
    obtain ⟨z, y, x, rfl⟩ := List.length_eq_three.mp hf
    cases hx : ScriptNum.read? x <;> cases hy : ScriptNum.read? y <;>
      cases hz : ScriptNum.read? z <;>
        simp [ActsOn, effect, Engine.within, hx, hy, hz, Opcode.info]
  | rot | dup3 =>
    cases hr
    obtain ⟨z, y, x, rfl⟩ := List.length_eq_three.mp hf
    exact ⟨fun _ => rfl, fun e h => by cases h; rfl⟩
  | over2 | swap2 =>
    cases hr
    obtain ⟨d, front, rfl⟩ := List.exists_cons_of_length_eq_add_one hf
    obtain ⟨c, b, a, rfl⟩ := List.length_eq_three.mp (Nat.succ.inj hf)
    exact ⟨fun _ => rfl, fun e h => by cases h; rfl⟩
  | rot2 =>
    cases hr
    obtain ⟨f, front, rfl⟩ := List.exists_cons_of_length_eq_add_one hf
    obtain ⟨e, front, rfl⟩ := List.exists_cons_of_length_eq_add_one (Nat.succ.inj hf)
    obtain ⟨d, front, rfl⟩ := List.exists_cons_of_length_eq_add_one (Nat.succ.inj (Nat.succ.inj hf))
    obtain ⟨c, b, a, rfl⟩ := List.length_eq_three.mp
      (Nat.succ.inj (Nat.succ.inj (Nat.succ.inj hf)))
    exact ⟨fun _ => rfl, fun e h => by cases h; rfl⟩
  | _ =>
    cases hr
    obtain ⟨y, x, rfl⟩ := List.length_eq_two.mp hf
    exact ⟨fun _ => rfl, fun e h => by cases h; rfl⟩

private theorem actsOn_indexed (valid : Checker) (ho : o = .pick ∨ o = .roll) {a : Bytes} {n : Int}
    (ha : ScriptNum.read? a = some n) (hn : 0 ≤ n) (he : n.toNat < e.length) :
    ActsOn valid o (a :: e) := by
  have hget (rest : Stack) : (e ++ rest)[n.toNat]? = some e[n.toNat] := by
    rw [List.getElem?_append_left he, List.getElem?_eq_getElem he]
  have hself : e[n.toNat]? = some e[n.toNat] := List.getElem?_eq_getElem he
  rcases ho with rfl | rfl
  · constructor
    · intro rest
      simp [effect, withNumber, ha, Engine.pick, Int.not_lt.mpr hn, hget, hself]
    · intro e' he'
      simp only [effect, withNumber, ha, Option.bind_some, Engine.pick, if_neg (Int.not_lt.mpr hn),
        hself, Option.map_some, Option.some.injEq] at he'
      subst he'
      simp [Opcode.info]
  · constructor
    · intro rest
      simp [effect, withNumber, ha, Engine.roll, Int.not_lt.mpr hn, hget, hself,
        List.eraseIdx_append_of_lt_length he]
    · intro e' he'
      simp only [effect, withNumber, ha, Option.bind_some, Engine.roll, if_neg (Int.not_lt.mpr hn),
        hself, Option.map_some, Option.some.injEq] at he'
      subst he'
      simp only [List.length_cons, List.length_eraseIdx_of_lt he, Opcode.info]
      omega

/-- An opcode that reaches no deeper than a stack does nothing to what lies below it. -/
theorem actsOn_of_reach (valid : Checker) (hr : reach literal o = some r) (hm : o.isMarker = false)
    (he : r ≤ e.length)
    (hlit : ∀ n, literal = some n → ∃ a, e.head? = some a ∧ ScriptNum.read? a = some n) :
    ActsOn valid o e := by
  rcases reach_cases hr with ⟨ho, n, rfl, hn, rfl⟩ | hreach
  · obtain ⟨a, ha, hread⟩ := hlit n rfl
    cases e with
    | nil => cases ha
    | cons b e =>
      cases ha
      exact actsOn_indexed valid ho hread hn (by simp only [List.length_cons] at he; omega)
  · rw [← List.take_append_drop r e]
    exact (actsOn_exact valid hreach hm (List.length_take_of_le he)).append _

end NamedStack.Named
