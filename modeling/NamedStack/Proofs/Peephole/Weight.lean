import NamedStack.Proofs.Peephole.Acceptance
import NamedStack.Proofs.Peephole.Markers

/-!
# The weight of a program

Every rule that changes a program makes it lighter: an exchange leaves fewer instructions or turns
pushed data into an opcode, verifications at the end are dropped, and a return that comes late is
put in front. No rule touches the steps of open instructions, or what is known of them, and the
conditionals around them stay balanced. So the optimizer can change a program only so often, and
what is open in a program bounds what can become of it otherwise.
-/

namespace NamedStack.Peephole

open Nesting (Balanced)

/-- The number of instructions, with pushed data counting twice. -/
def bulk (ops : List Instr) : Nat := ops.length + ops.countP Matcher.push.accepts

/-- Whether a program returns anywhere but at its start. -/
def ReturnsLate (ops : List Instr) : Prop := .op .opReturn ∈ ops.tail

instance : DecidablePred ReturnsLate := fun ops => inferInstanceAs (Decidable (_ ∈ ops.tail))

/-- A bound on how often a program can be changed by the optimizer. -/
def weight (ops : List Instr) : Nat := bulk ops + if ReturnsLate ops then 1 else 0

/-- The bulk of programs one after another. -/
@[simp]
theorem bulk_append (a b : List Instr) : bulk (a ++ b) = bulk a + bulk b := by
  simp only [bulk, List.length_append, List.countP_append]
  omega

/-- Opcodes count once. -/
@[simp]
theorem bulk_ops (os : List Opcode) : bulk (os.map .op) = os.length := by
  have hnone : (os.map Instr.op).countP Matcher.push.accepts = 0 := by
    simp [List.countP_eq_zero, Matcher.accepts]
  rw [bulk, hnone, List.length_map, Nat.add_zero]

/-- A program weighs little more than twice its length. -/
theorem weight_le (ops : List Instr) : weight ops ≤ 2 * ops.length + 1 := by
  have hpushes : ops.countP Matcher.push.accepts ≤ ops.length := List.countP_le_length
  unfold weight bulk
  split <;> omega

private theorem eq_or_lt_trans {α : Type} {f : α → Nat} {a b c : α} (h : b = a ∨ f b < f a)
    (k : c = b ∨ f c < f b) : c = a ∨ f c < f a := by
  rcases k with rfl | hk
  · exact h
  · rcases h with rfl | hh
    · exact .inr hk
    · exact .inr (hk.trans hh)

/-! ### Steps of open instructions -/

/-- The steps of the open instructions of a program. -/
def openSteps (steps : List Step) : List Step := steps.filter fun s => s.instr.isOpen

/-- The open steps of programs one after another. -/
@[simp]
theorem openSteps_append (a b : List Step) : openSteps (a ++ b) = openSteps a ++ openSteps b :=
  List.filter_append a b

private theorem instrs_openSteps (steps : List Step) :
    Step.instrs (openSteps steps) = openings (Step.instrs steps) := by
  rw [openings, Step.instrs, Step.instrs, List.filter_map]
  rfl

variable {steps : List Step}

private theorem openSteps_of_openings (h : openings (Step.instrs steps) = []) :
    openSteps steps = [] := by
  rw [← instrs_openSteps] at h
  exact List.map_eq_nil_iff.mp h

private theorem openSteps_of_ops {os : List Opcode} (h : Step.instrs steps = os.map .op) :
    openSteps steps = [] :=
  openSteps_of_openings (h ▸ openings_ops os)

/-! ### Exchanges -/

/-- An exchange of steps that leaves what is open and how conditionals nest and adds no return, and
that changes nothing at all or makes the program lighter. -/
structure Lightens (old new : List Step) : Prop where
  open_eq : openSteps new = openSteps old
  nests : Nests old new
  returns : .op .opReturn ∈ Step.instrs new → .op .opReturn ∈ Step.instrs old
  late : ReturnsLate (Step.instrs new) → ReturnsLate (Step.instrs old)
  lighter : new = old ∨ bulk (Step.instrs new) < bulk (Step.instrs old)

/-- Whether fewer opcodes, none of them a return, may stand in place of others. -/
structure IsForm (before after : List Opcode) : Prop where
  shorter : after.length < before.length
  noReturn : .opReturn ∉ after
  nesting : SameNesting before after

instance (before after : List Opcode) : Decidable (IsForm before after) :=
  decidable_of_iff (after.length < before.length ∧ .opReturn ∉ after ∧ SameNesting before after)
    ⟨fun h => ⟨h.1, h.2.1, h.2.2⟩, fun h => ⟨h.shorter, h.noReturn, h.nesting⟩⟩

namespace Lightens

private theorem congruent : Congruent Lightens where
  refl := fun _ => ⟨rfl, Nests.congruent.refl _, id, id, .inl rfl⟩
  trans := by
    intro a b c h k
    exact ⟨k.open_eq.trans h.open_eq, Nests.congruent.trans h.nests k.nests,
      h.returns ∘ k.returns, h.late ∘ k.late,
      eq_or_lt_trans (f := fun steps => bulk (Step.instrs steps)) h.lighter k.lighter⟩
  append := by
    intro old new h front back
    refine ⟨by simp [h.open_eq], Nests.congruent.append h.nests front back, ?_, ?_, ?_⟩
    · simp only [Step.instrs_append, List.mem_append]
      exact Or.imp_left (Or.imp_right h.returns)
    · -- a return behind the start of the new program is one of the front, of the run or of the back
      unfold ReturnsLate
      cases front with
      | cons s front =>
        simp only [List.cons_append, Step.instrs, List.map_cons, List.tail_cons, List.map_append,
          List.mem_append]
        exact Or.imp_left (Or.imp_right h.returns)
      | nil =>
        cases new with
        | nil =>
          intro hback
          cases old with
          | nil => exact hback
          | cons s old =>
            simp only [List.nil_append, Step.instrs_append] at hback ⊢
            exact List.mem_append_right _ (List.mem_of_mem_tail hback)
        | cons s new =>
          cases old with
          | nil => rcases h.lighter with h | h <;> cases h
          | cons t old =>
            simp only [List.nil_append, List.cons_append, Step.instrs, List.map_cons,
              List.tail_cons, List.map_append, List.mem_append]
            exact Or.imp_left h.late
    · rcases h.lighter with rfl | hlt
      · exact .inl rfl
      · refine .inr ?_
        simp only [Step.instrs_append, bulk_append]
        omega

/-- Fewer opcodes are lighter. -/
theorem ops {run : List Step} {before after : List Opcode} (hrun : Step.instrs run = before.map .op)
    (hform : IsForm before after) : Lightens run (after.map Step.op) := by
  have hreturns : .op .opReturn ∉ Step.instrs (after.map Step.op) := by
    rw [instrs_ops]
    simpa using hform.noReturn
  refine ⟨?_, .of_ops hrun hform.nesting, fun h => absurd h hreturns, fun h => ?_, .inr ?_⟩
  · rw [openSteps_of_ops hrun, openSteps_of_ops (instrs_ops after)]
  · exact absurd (List.mem_of_mem_tail h) hreturns
  · rw [hrun, instrs_ops, bulk_ops, bulk_ops]
    exact hform.shorter

end Lightens

/-- What stands in place of a run makes a program lighter. -/
def Exchange.Lightening (e : Exchange) : Prop :=
  ∀ run, Matching e.template run → Lightens run (e.replace run)

private theorem Exchange.ofOpcodes_lightening {before after : List Opcode}
    (hform : IsForm before after) : (Exchange.ofOpcodes before after).Lightening :=
  fun _ hrun => .ops (instrs_of_matching_ops _ hrun) hform

private theorem lightens_between {first last : Opcode} {a b : Step} (s : Step) (os : List Opcode)
    (ha : (Matcher.op first).accepts a.instr = true) (hb : (Matcher.op last).accepts b.instr = true)
    (hform : IsForm [first, last] os) (hplain : ∀ o ∈ first :: last :: os, o.isMarker = false) :
    Lightens [a, s, b] ([s] ++ os.map Step.op) := by
  have hreturn := hform.noReturn
  have hlen : os.length < 2 := hform.shorter
  have hold : Step.instrs [a, s, b] = [first].map .op ++ [s.instr] ++ [last].map .op := by
    simp [Step.instrs, eq_op_of_accepts ha, eq_op_of_accepts hb]
  have hnew : Step.instrs ([s] ++ os.map Step.op) = [s.instr] ++ os.map .op := by
    rw [Step.instrs_append, instrs_ops]
    rfl
  refine ⟨?_, .of_markers ?_, ?_, ?_, .inr ?_⟩
  · have hnone (t : Step) {o : Opcode} (ht : (Matcher.op o).accepts t.instr = true) :
        openSteps [t] = [] := by
      have hops : Step.instrs [t] = [o].map .op := congrArg ([·]) (eq_op_of_accepts ht)
      exact openSteps_of_ops hops
    rw [openSteps_append, openSteps_of_ops (instrs_ops os), List.append_nil]
    change openSteps [s] = openSteps ([a] ++ [s] ++ [b])
    rw [openSteps_append, openSteps_append, hnone a ha, hnone b hb, List.nil_append,
      List.append_nil]
  · have hnone {os' : List Opcode} (h : ∀ o ∈ os', o.isMarker = false) :
        Nesting.markers (os'.map .op) = [] := by
      rw [markers_ops, List.filter_eq_nil_iff.mpr fun o ho => by rw [h o ho]; decide]
      rfl
    obtain ⟨hfirst, hlast, hos⟩ : first.isMarker = false ∧ last.isMarker = false ∧
        ∀ o ∈ os, o.isMarker = false := by simpa using hplain
    rw [hold, hnew, markers_append, markers_append, markers_append,
      hnone (List.forall_mem_singleton.mpr hfirst), hnone (List.forall_mem_singleton.mpr hlast),
      hnone hos, List.nil_append]
  · rw [hold, hnew]
    simp only [List.mem_append]
    rintro (hi | hos)
    · exact .inl (.inr hi)
    · exact absurd hos (by simpa using hreturn)
  · rw [hnew]
    exact fun h => absurd h (by simpa [ReturnsLate] using hreturn)
  · rw [hold, hnew]
    simp only [bulk_append, bulk_ops, List.length_singleton]
    omega

private theorem lightens_behind (front : List Step) {rest : List Step} (before after : List Opcode)
    (hrest : Matching (Template.ops before) rest) (hform : IsForm before after) :
    Lightens (front ++ rest) (front ++ after.map Step.op) := by
  have hops := Lightens.congruent.append (.ops (instrs_of_matching_ops _ hrest) hform) front []
  rwa [List.append_nil, List.append_nil] at hops

private theorem shortcut_lightening {number math short : Opcode}
    (hform : IsForm [number, math] [short])
    (hplain : ∀ o ∈ [number, math, short], o.isMarker = false) {e : Exchange}
    (he : e ∈ shortcut number math short) : e.Lightening := by
  intro run hrun
  simp only [shortcut, List.mem_cons, List.not_mem_nil, or_false] at he
  rcases he with rfl | rfl | rfl
  · obtain _ | ⟨-, hrest⟩ := hrun
    exact lightens_behind [_] [number, math] [short] hrest hform
  · -- the other operand stands between the number and the operation
    obtain _ | ⟨hn, _ | ⟨-, _ | ⟨hm, ⟨⟩⟩⟩⟩ := hrun
    exact lightens_between _ [short] hn hm hform hplain
  · obtain _ | ⟨-, hrest⟩ := hrun
    exact lightens_behind [_] [number, math] [short] hrest hform

/-! ### Rules -/

private theorem fixedRule_lightens {name : String} {pairs : List (List Opcode × List Opcode)}
    (h : ∀ p ∈ pairs, IsForm p.1 p.2) (steps : List Step) :
    Lightens steps ((fixedRule name pairs).apply steps).1 := by
  refine Exchange.inOrder_congr Lightens.congruent (fun e he => ?_) steps
  obtain ⟨p, hp, rfl⟩ := List.mem_map.mp he
  exact Exchange.ofOpcodes_lightening (h p hp)

private theorem arithmeticShortcuts_lightens (steps : List Step) :
    Lightens steps (arithmeticShortcuts.apply steps).1 := by
  refine Exchange.inOrder_congr Lightens.congruent ?_ steps
  simp only [List.cons_append, List.nil_append, List.forall_mem_cons, List.forall_mem_append]
  refine ⟨?_, ?_, ?_, ?_, ?_⟩
  · exact Exchange.ofOpcodes_lightening (by decide)
  · exact Exchange.ofOpcodes_lightening (by decide)
  · exact Exchange.ofOpcodes_lightening (by decide)
  · exact fun e he => shortcut_lightening (by decide) (by decide) he
  · exact fun e he => shortcut_lightening (by decide) (by decide) he

private theorem nullArithmetic_lightens (steps : List Step) :
    Lightens steps (nullArithmetic.apply steps).1 := by
  refine Exchange.inOrder_congr Lightens.congruent ?_ steps
  simp only [List.forall_mem_cons]
  refine ⟨Exchange.ofOpcodes_lightening (by decide), ?_, ?_, nofun⟩
  · intro run hrun
    obtain _ | ⟨-, hrest⟩ := hrun
    exact lightens_behind [_] [.zero, .binary .add] [] hrest (by decide)
  · intro run hrun
    obtain _ | ⟨hz, _ | ⟨-, _ | ⟨ha, ⟨⟩⟩⟩⟩ := hrun
    exact lightens_between _ [] hz ha (by decide) (by decide)

private theorem arithmeticOps_lightens (steps : List Step) :
    Lightens steps (arithmeticOps.apply steps).1 := by
  refine Exchange.inOrder_congr Lightens.congruent ?_ steps
  simp only [List.forall_mem_cons]
  refine ⟨fun run hrun => ?_, List.forall_mem_nil _⟩
  obtain _ | ⟨-, _ | ⟨-, hrest⟩⟩ := hrun
  split
  · exact lightens_behind [_, _] [.equal, .unary .not] [.binary .numNotEqual] hrest (by decide)
  · exact Lightens.congruent.refl _

private theorem smallIntOpcodes_lightens (steps : List Step) :
    Lightens steps (smallIntOpcodes.apply steps).1 := by
  refine Exchange.inOrder_congr Lightens.congruent ?_ steps
  simp only [List.forall_mem_cons]
  refine ⟨fun run hrun => ?_, List.forall_mem_nil _⟩
  obtain ⟨s, run₁, -, hrun₁, rfl⟩ := List.forall₂_cons_left_iff.mp hrun
  obtain rfl := List.forall₂_nil_left_iff.mp hrun₁
  cases ho : smallPush? s with
  | none =>
    simp only [List.map_cons, List.map_nil, ho]
    exact Lightens.congruent.refl _
  | some o =>
    obtain ⟨data, n, hi, rfl, -⟩ := push_of_smallPush? ho
    simp only [List.map_cons, List.map_nil, ho]
    have hclosed : openSteps [s] = [] :=
      openSteps_of_openings (openings_eq_nil_iff.mpr (by simp [Step.instrs, hi]))
    refine ⟨?_, .of_markers ?_, by simp [Step.instrs, Step.op, Step.of],
      fun h => absurd h List.not_mem_nil, .inr ?_⟩
    · exact hclosed.symm ▸ openSteps_of_ops (instrs_ops [.small n])
    · rw [show Step.instrs [s] = [.push data] from congrArg ([·]) hi]
      rfl
    · simp [Step.instrs, hi, bulk, Step.op, Step.of, Matcher.accepts]

/-- The steps of open instructions are kept and conditionals nest as before, and the program is the
same or lighter. -/
structure Condenses (old new : List Step) : Prop where
  open_eq : openSteps new = openSteps old
  nests : Nests old new
  lighter : new = old ∨ weight (Step.instrs new) < weight (Step.instrs old)

namespace Condenses

/-- Condensing goes on over any number of changes. -/
theorem chains : Chains Condenses where
  refl := fun _ => ⟨rfl, Nests.congruent.refl _, .inl rfl⟩
  trans := by
    intro a b c h k
    exact ⟨k.open_eq.trans h.open_eq, Nests.congruent.trans h.nests k.nests,
      eq_or_lt_trans (f := fun steps => weight (Step.instrs steps)) h.lighter k.lighter⟩

private theorem of_lightens {old new : List Step} (h : Lightens old new) : Condenses old new := by
  refine ⟨h.open_eq, h.nests, h.lighter.imp id fun hlt => ?_⟩
  unfold weight
  by_cases hlate : ReturnsLate (Step.instrs new)
  · rw [if_pos hlate, if_pos (h.late hlate)]
    omega
  · rw [if_neg hlate]
    omega

end Condenses

private theorem positions_of_not_returnsLate (h : ¬ ReturnsLate (Step.instrs steps)) :
    Template.positions (.op .opReturn) steps = [] ∨
      Template.positions (.op .opReturn) steps = [0] := by
  cases steps with
  | nil => exact .inl rfl
  | cons s rest =>
    have hrest :
        (rest.zipIdx 1).filter (fun p => (Matcher.op .opReturn).accepts p.1.instr) = [] := by
      rw [List.filter_eq_nil_iff]
      intro p hp haccepts
      refine h ?_
      rw [ReturnsLate, Step.instrs, List.map_cons, List.tail_cons, ← eq_op_of_accepts haccepts]
      exact List.mem_map_of_mem (List.fst_mem_of_mem_zipIdx hp)
    rw [Template.positions, List.zipIdx_cons, List.filter_cons, Nat.zero_add, hrest]
    split
    · exact .inr rfl
    · exact .inl rfl

/-- The instructions of a return in front of all but returns. -/
theorem instrs_return_cons (steps : List Step) :
    Step.instrs (Step.op .opReturn :: steps.filter fun s => !isOp .opReturn s) =
      .op .opReturn :: (Step.instrs steps).filter fun i => !(Matcher.op .opReturn).accepts i := by
  rw [Step.instrs, Step.instrs, List.map_cons, List.filter_map]
  rfl

private theorem condenses_returningFirst (hlate : ReturnsLate (Step.instrs steps)) :
    Condenses steps (Step.op .opReturn :: steps.filter fun s => !isOp .opReturn s) := by
  refine ⟨?_, .of_markers ?_, .inr ?_⟩
  · rw [openSteps, openSteps, List.filter_cons_of_neg (by decide), List.filter_filter]
    congr 1
    funext s
    cases hs : s.instr <;> simp [isOp, hs, Instr.isOpen, Matcher.accepts]
  · rw [Step.instrs, Step.instrs, List.map_cons, Nesting.markers, Nesting.markers,
      List.filter_cons_of_neg (by decide), List.filter_map, List.filter_map, List.filter_filter]
    congr 2
    funext s
    -- no marker is a return
    by_cases hs : isOp .opReturn s = true
    · simp [hs, eq_op_of_accepts hs, Matcher.accepts, Opcode.isMarker]
    · simp [hs]
  · rw [instrs_return_cons]
    generalize Step.instrs steps = ops at hlate
    generalize hrest : ops.filter (fun i => !(Matcher.op .opReturn).accepts i) = rest
    have hsub : rest.Sublist ops := hrest ▸ List.filter_sublist
    have hpushes : rest.countP Matcher.push.accepts ≤ ops.countP Matcher.push.accepts :=
      hsub.countP_le
    have hlength : rest.length < ops.length := by
      rw [← hrest, List.length_filter_lt_length_iff_exists]
      exact ⟨_, List.mem_of_mem_tail hlate, by decide⟩
    have hnot : ¬ ReturnsLate (.op .opReturn :: rest) := by
      simp [ReturnsLate, ← hrest, Matcher.accepts]
    have hfirst : bulk (.op .opReturn :: rest) =
        rest.length + 1 + rest.countP Matcher.push.accepts := rfl
    rw [weight, weight, if_neg hnot, if_pos hlate, hfirst, bulk]
    omega

/-- The return is put in front where a program returns late, and nothing is done elsewhere. -/
theorem promotedReturn_cases (steps : List Step) :
    (promotedReturn.apply steps).1 = steps ∨ ReturnsLate (Step.instrs steps) ∧
      (promotedReturn.apply steps).1 =
        Step.op .opReturn :: steps.filter fun s => !isOp .opReturn s := by
  change (Action.apply .promoteReturn steps).1 = _ ∨ _ ∧ (Action.apply .promoteReturn steps).1 = _
  rw [Action.apply]
  split
  · exact .inl rfl
  · exact .inl rfl
  · next hnil hzero =>
    refine .inr ⟨?_, ?_⟩
    · by_contra h
      exact (positions_of_not_returnsLate h).elim hnil hzero
    · rw [returningFirst]
      split
      · exact absurd ‹_› hnil
      · exact absurd ‹_› hzero
      · rfl

private theorem promotedReturn_condenses (steps : List Step) :
    Condenses steps (promotedReturn.apply steps).1 := by
  rcases promotedReturn_cases steps with h | ⟨hlate, h⟩ <;> rw [h]
  · exact Condenses.chains.refl _
  · exact condenses_returningFirst hlate

/-- Every rule keeps what is open and how conditionals nest, and changes a program only to make it
lighter. -/
theorem condenses_of_mem_rules {r : Rule} (hr : r ∈ rules) (steps : List Step) :
    Condenses steps (r.apply steps).1 := by
  simp only [rules, List.mem_cons, List.not_mem_nil, or_false] at hr
  rcases hr with rfl | rfl | rfl | rfl | rfl | rfl | rfl | rfl | rfl | rfl | rfl | rfl | rfl
  · exact .of_lightens (fixedRule_lightens (by decide) steps)
  · exact .of_lightens (fixedRule_lightens (by decide) steps)
  · exact .of_lightens (fixedRule_lightens (by decide) steps)
  · exact .of_lightens (arithmeticShortcuts_lightens steps)
  · exact .of_lightens (fixedRule_lightens (by decide) steps)
  · exact .of_lightens (fixedRule_lightens (by decide) steps)
  · exact .of_lightens (nullArithmetic_lightens steps)
  · exact .of_lightens (fixedRule_lightens (by decide) steps)
  · refine .of_lightens
      (withoutTrailingVerify_chains Lightens.congruent.toChains (fun front s hs => ?_) steps)
    have hverify : Step.instrs [s] = [Opcode.verify].map .op := congrArg ([·]) hs
    have hlast : Lightens [s] ([].map Step.op) := .ops hverify (by decide)
    have hdrop := Lightens.congruent.append hlast front []
    rwa [List.append_nil, List.map_nil, List.append_nil, List.append_nil] at hdrop
  · exact .of_lightens (arithmeticOps_lightens steps)
  · exact .of_lightens (smallIntOpcodes_lightens steps)
  · exact promotedReturn_condenses steps
  · exact .of_lightens (fixedRule_lightens (by decide) steps)

/-- An optimized program has the same open steps, and is lighter if it is another one. -/
theorem Optimizer.run_condenses (o : Optimizer) (steps : List Step) :
    Condenses steps (o.run steps) := by
  rw [← o.runWith_rules]
  exact runWith_chains Condenses.chains (fun r hr => condenses_of_mem_rules hr) o steps

/-- What is open is kept, and the program is the same or lighter. -/
structure Reduces (old new : List Instr) : Prop where
  openings_eq : openings new = openings old
  lighter : new = old ∨ weight new < weight old

/-- A program without a change. -/
theorem Reduces.refl (ops : List Instr) : Reduces ops ops := ⟨rfl, .inl rfl⟩

/-- What an optimized program is as a list of instructions. -/
theorem Optimizer.run_reduces (o : Optimizer) (steps : List Step) :
    Reduces (Step.instrs steps) (Step.instrs (o.run steps)) := by
  obtain ⟨hopen, -, hlighter⟩ := o.run_condenses steps
  refine ⟨?_, hlighter.imp_left (congrArg _)⟩
  rw [← instrs_openSteps, ← instrs_openSteps, hopen]

/-- Every rule, and so every optimizer, keeps the steps of the open instructions in their order, and
the balance of conditionals. -/
theorem optimizer_keeps_references_and_balance (steps : List Step) :
    (∀ r ∈ rules, openSteps (r.apply steps).1 = openSteps steps ∧
      (Balanced (Step.instrs steps) → Balanced (Step.instrs (r.apply steps).1))) ∧
    ∀ o : Optimizer, openSteps (o.run steps) = openSteps steps ∧
      (Balanced (Step.instrs steps) → Balanced (Step.instrs (o.run steps))) := by
  constructor
  · intro r hr
    have h := condenses_of_mem_rules hr steps
    exact ⟨h.open_eq, h.nests.balanced⟩
  · intro o
    have h := o.run_condenses steps
    exact ⟨h.open_eq, h.nests.balanced⟩

/-- A conditional is turned around, loses its second arm and goes, and a return comes to the front,
past names and an inner script. -/
theorem optimizer_keeps_references_and_balance_of_emptied_conditional :
    let steps := Step.ofList [.var [97], .op (.unary .not), .op .opIf, .op .opElse, .op .opEndIf,
      .op .opIf, .op .opElse, .op .opEndIf, .op .opReturn, .inner [.var [98]], .assume [99]]
    let o : Optimizer := { enabled := true }
    Balanced (Step.instrs steps) ∧
    Step.instrs (o.run steps) = [.op .opReturn, .var [97], .op .opNotIf, .op .opEndIf, .op .drop,
      .inner [.var [98]], .assume [99]] ∧
    Step.instrs (openSteps (o.run steps)) = [.var [97], .inner [.var [98]], .assume [99]] ∧
    Balanced (Step.instrs (nullConditionals.apply steps).1) ∧
    Balanced (Step.instrs (o.run steps)) := by
  intro steps o
  have hbalanced : Balanced (Step.instrs steps) := by
    rw [Nesting.balanced_iff]
    decide
  obtain ⟨hrules, hrun⟩ := optimizer_keeps_references_and_balance steps
  refine ⟨hbalanced, by cbv, ?_, (hrules nullConditionals (by simp [rules])).2 hbalanced,
    (hrun o).2 hbalanced⟩
  rw [(hrun o).1]
  rfl

end NamedStack.Peephole
