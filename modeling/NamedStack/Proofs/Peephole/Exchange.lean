import NamedStack.Peephole.Rule
import NamedStack.Proofs.Engine.Refinement
import NamedStack.Proofs.Peephole.Filling

/-!
# Exchanges that a run does not notice

A program simulates another one if it can be written whenever the other one can, is no longer, and
its pieces refine those of the other one. Simulation is kept by what stands around, so a walk that
exchanges the runs matching a template simulates the program it walks through as soon as each single
exchange does. The same holds where references are left in the program: an exchange is sound if the
new program simulates the old one whatever code they are filled with. Opcodes exchanged for opcodes
only have to refine each other.
-/

namespace NamedStack

namespace Script

/-- The pieces of a program, none of which is too big. -/
structure Written (ops : List Instr) (ps : List Piece) : Prop where
  writes : List.Forall₂ Writes ops ps
  fits : ∀ p ∈ ps, p.fits

variable {a b : List Instr} {ps : List Piece}

/-- Programs one after another have their pieces one after another. -/
theorem Written.append {qs : List Piece} (h : Written a ps) (k : Written b qs) :
    Written (a ++ b) (ps ++ qs) where
  writes := List.rel_append h.writes k.writes
  fits := fun p hp => (List.mem_append.mp hp).elim (h.fits p) (k.fits p)

/-- The empty program has no pieces. -/
@[simp]
theorem written_nil_iff (ps : List Piece) : Written [] ps ↔ ps = [] := by
  constructor
  · rintro ⟨hw, -⟩
    exact List.forall₂_nil_left_iff.mp hw
  · rintro rfl
    exact ⟨.nil, nofun⟩

/-- The pieces of a program instruction by instruction. -/
theorem written_cons_iff (i : Instr) (ops : List Instr) (ps : List Piece) :
    Written (i :: ops) ps ↔ ∃ p qs, ps = p :: qs ∧ Writes i p ∧ p.fits ∧ Written ops qs := by
  constructor
  · rintro ⟨hw, hf⟩
    cases hw with
    | cons hi hrest =>
      obtain ⟨hfi, hfrest⟩ := List.forall_mem_cons.mp hf
      exact ⟨_, _, rfl, hi, hfi, hrest, hfrest⟩
  · rintro ⟨p, qs, rfl, hi, hfi, hw, hf⟩
    exact ⟨.cons hi hw, List.forall_mem_cons.mpr ⟨hfi, hf⟩⟩

/-- The pieces of a program in two parts. -/
theorem Written.split (h : Written (a ++ b) ps) :
    ∃ qs rs, ps = qs ++ rs ∧ Written a qs ∧ Written b rs := by
  induction a generalizing ps with
  | nil => exact ⟨[], ps, rfl, (written_nil_iff _).mpr rfl, h⟩
  | cons i a ih =>
    obtain ⟨p, qs, rfl, hi, hf, hrest⟩ := (written_cons_iff _ _ _).mp h
    obtain ⟨qs, rs, rfl, hq, hr⟩ := ih hrest
    exact ⟨p :: qs, rs, rfl, (written_cons_iff _ _ _).mpr ⟨p, qs, rfl, hi, hf, hq⟩, hr⟩

/-- Opcodes are written as they are. -/
theorem written_ops_iff (os : List Opcode) (ps : List Piece) :
    Written (os.map .op) ps ↔ ps = os.map .opcode := by
  induction os generalizing ps with
  | nil => exact written_nil_iff ps
  | cons o os ih =>
    rw [List.map_cons, written_cons_iff]
    constructor
    · rintro ⟨p, qs, rfl, ho, -, hrest⟩
      cases ho
      rw [(ih qs).mp hrest]
      rfl
    · rintro rfl
      exact ⟨_, _, rfl, rfl, trivial, (ih _).mpr rfl⟩

/-- Pieces one after another. -/
theorem forms_append (ps qs : List Piece) : forms (ps ++ qs) = forms ps ++ forms qs :=
  List.flatMap_append

private theorem length_forms_opcodes (os : List Opcode) :
    (forms (os.map .opcode)).length = os.length := by
  induction os with
  | nil => rfl
  | cons o os ih => simpa [forms, Piece.form] using ih

end Script

namespace Peephole

open Script (Piece Written forms)
open Engine (Refines)

/-! ### Simulation of programs -/

/-- The new program can be written whenever the old one can; it is no longer, and runs to the same
end wherever the old one runs to its end. -/
def Simulates (old new : List Instr) : Prop :=
  ∀ ps, Written old ps →
    ∃ qs, Written new qs ∧ (forms qs).length ≤ (forms ps).length ∧ Refines ps qs

namespace Simulates

private theorem refl (ops : List Instr) : Simulates ops ops :=
  fun ps h => ⟨ps, h, Nat.le_refl _, .refl ps⟩

private theorem trans {a b c : List Instr} (h : Simulates a b) (k : Simulates b c) :
    Simulates a c := by
  intro ps hps
  obtain ⟨qs, hqs, hlen, href⟩ := h ps hps
  obtain ⟨rs, hrs, hlen', href'⟩ := k qs hqs
  exact ⟨rs, hrs, hlen'.trans hlen, href.trans href'⟩

/-- What stands in front and behind does not matter. -/
theorem append {old new : List Instr} (h : Simulates old new) (front back : List Instr) :
    Simulates (front ++ old ++ back) (front ++ new ++ back) := by
  intro ps hps
  obtain ⟨fs, bs, rfl, hf, hb⟩ := hps.split
  obtain ⟨fs, os, rfl, hf, ho⟩ := hf.split
  obtain ⟨ns, hn, hlen, href⟩ := h os ho
  refine ⟨fs ++ ns ++ bs, (hf.append hn).append hb, ?_, href.append fs bs⟩
  simp only [Script.forms_append, List.length_append]
  omega

/-- Opcodes simulate opcodes that they refine. -/
theorem of_refines {old new : List Opcode} (hl : new.length ≤ old.length)
    (h : Refines (old.map .opcode) (new.map .opcode)) :
    Simulates (old.map .op) (new.map .op) := by
  intro ps hps
  obtain rfl := (Script.written_ops_iff old ps).mp hps
  refine ⟨_, (Script.written_ops_iff new _).mpr rfl, ?_, h⟩
  rwa [Script.length_forms_opcodes, Script.length_forms_opcodes]

/-- Simulation is kept by what stands around. -/
theorem congruent : Congruent Simulates where
  refl := refl
  trans := fun _ _ _ => trans
  append := fun _ _ => append

end Simulates

/-! ### Walking through a program -/

/-- The steps of a run that a template matches, one matcher for each of them. -/
def Matching (t : Template) (run : List Step) : Prop :=
  List.Forall₂ (fun m s => m.accepts s.instr = true) t run

variable {t : Template} {R : List Step → List Step → Prop} {es : List Exchange}

/-- A template matches the steps at the front. -/
theorem matching_take {steps : List Step} (h : t.matchesFront steps = true) :
    Matching t (steps.take t.length) := by
  induction t generalizing steps with
  | nil => exact .nil
  | cons m t ih =>
    cases steps with
    | nil => cases h
    | cons s rest =>
      obtain ⟨hm, hrest⟩ := (Bool.and_eq_true _ _).mp h
      exact .cons hm (ih hrest)

/-- Closing a match moves no step. -/
theorem reverse_close (t : Template) (passed rest : List Step) :
    (Template.close t passed rest).1.reverse ++ (Template.close t passed rest).2 =
      passed.reverse ++ rest := by
  unfold Template.close
  split <;> simp

/-- A walk leaves a program that is related to the one it walks through if each exchange is related
to the run it stands for. -/
theorem walk_congr (hR : Congruent R) {f : List Step → List Step}
    (h : ∀ run, Matching t run → R run (f run)) (passed ahead : List Step) (changed : Bool)
    (runs : Nat) :
    R (passed.reverse ++ ahead) (Template.walk t f passed ahead changed runs).steps := by
  -- the program at each point of the walk: the steps passed, in order, and then those ahead
  have exchange (passed : List Step) {steps : List Step} (hm : t.matchesFront steps = true) :
      R (passed.reverse ++ steps)
        (passed.reverse ++ f (steps.take t.length) ++ steps.drop t.length) := by
    have hrel := hR.append (h _ (matching_take hm)) passed.reverse (steps.drop t.length)
    rwa [List.append_assoc passed.reverse, List.take_append_drop] at hrel
  fun_induction Template.walk t f passed ahead changed runs with
  | case1 passed changed runs =>
    rw [List.append_nil]
    exact hR.refl _
  | case2 passed changed runs s rest hm run left new changed' hnew ih =>
    rw [reverse_close] at ih
    have hrel := exchange passed hm.2
    rw [show f ((s :: rest).take t.length) = [] from List.isEmpty_iff.mp hnew,
      List.append_nil] at hrel
    exact hR.trans hrel ih
  | case3 passed changed runs s rest hm run left new changed' hnew ih =>
    rw [List.reverse_append, List.reverse_reverse] at ih
    exact hR.trans (exchange passed hm.2) ih
  | case4 passed changed runs s rest hm ih =>
    rw [List.reverse_cons, List.append_assoc] at ih
    exact ih

/-! ### Exchanges and rules -/

/-- Exchanges that are applied in order leave a related program if each of them is related to the
run it stands for. -/
theorem Exchange.inOrder_congr (hR : Congruent R)
    (h : ∀ e ∈ es, ∀ run, Matching e.template run → R run (e.replace run)) (steps : List Step) :
    R steps (Exchange.inOrder es steps).1 := by
  suffices hfold : ∀ (acc : List Step × Bool),
      R acc.1 (es.foldl (fun acc e =>
        let out := e.template.replace e.replace acc.1
        (out.steps, acc.2 || out.changed)) acc).1 from hfold (steps, false)
  induction es with
  | nil => exact fun acc => hR.refl _
  | cons e es ih =>
    intro acc
    obtain ⟨he, hes⟩ := List.forall_mem_cons.mp h
    have hwalk := walk_congr hR he [] acc.1 false 0
    rw [List.foldl_cons]
    exact hR.trans hwalk (ih hes (_, _))

/-- What stands in place of a run simulates it. -/
def Exchange.Sound (e : Exchange) : Prop :=
  ∀ run, Matching e.template run → Lifted Simulates (Step.instrs run) (Step.instrs (e.replace run))

/-- A program simulates the one that it is made from. -/
def Rule.Sound (r : Rule) : Prop :=
  ∀ steps, Lifted Simulates (Step.instrs steps) (Step.instrs (r.apply steps).1)

/-- The instruction that a matcher for an opcode accepts. -/
theorem eq_op_of_accepts {o : Opcode} {i : Instr} (h : (Matcher.op o).accepts i = true) :
    i = .op o := by
  cases i with
  | op p => rw [of_decide_eq_true h]
  | _ => cases h

/-- The run that a template of opcodes matches. -/
theorem instrs_of_matching_ops (os : List Opcode) {run : List Step}
    (h : Matching (Template.ops os) run) : Step.instrs run = os.map .op := by
  induction os generalizing run with
  | nil => cases h; rfl
  | cons o os ih =>
    cases h with
    | cons ho hrest =>
      rw [Step.instrs, List.map_cons, List.map_cons, eq_op_of_accepts ho]
      exact congrArg _ (ih hrest)

/-- The instructions of opcodes. -/
theorem instrs_ops (os : List Opcode) : Step.instrs (os.map Step.op) = os.map .op := by
  rw [Step.instrs, List.map_map]
  rfl

/-- Opcodes are not open. -/
@[simp]
theorem openings_ops (os : List Opcode) : openings (os.map .op) = [] := by
  simp [openings_eq_nil_iff]

/-- An exchange of opcodes for no more opcodes that refine them is sound. -/
theorem Exchange.ofOpcodes_sound {before after : List Opcode} (hl : after.length ≤ before.length)
    (h : Refines (before.map .opcode) (after.map .opcode)) :
    (Exchange.ofOpcodes before after).Sound := by
  intro run hrun
  rw [instrs_of_matching_ops _ hrun]
  change Lifted Simulates _ (Step.instrs (after.map Step.op))
  rw [instrs_ops]
  exact .of_code (openings_ops before) (openings_ops after) (.of_refines hl h)

/-- A rule of sound exchanges is sound. -/
theorem Rule.sound_of_exchanges {r : Rule} (hr : r.action = .exchanges es) (h : ∀ e ∈ es, e.Sound) :
    r.Sound := by
  intro steps
  rw [Rule.apply, hr]
  exact Exchange.inOrder_congr (Lifted.congruent Simulates.congruent).onInstrs h steps

/-- A rule that exchanges opcodes for no more opcodes that refine them is sound. -/
theorem fixedRule_sound {name : String} {pairs : List (List Opcode × List Opcode)}
    (h : ∀ p ∈ pairs, p.2.length ≤ p.1.length ∧ Refines (p.1.map .opcode) (p.2.map .opcode)) :
    (fixedRule name pairs).Sound := by
  refine Rule.sound_of_exchanges rfl fun e he => ?_
  obtain ⟨p, hp, rfl⟩ := List.mem_map.mp he
  exact Exchange.ofOpcodes_sound (h p hp).1 (h p hp).2

end Peephole

end NamedStack
