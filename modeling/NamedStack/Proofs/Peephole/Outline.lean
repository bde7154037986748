import NamedStack.Proofs.Peephole.Weight

/-!
# The outline of a program

The outline of a program is its markers and its open instructions, in order. Rules change it only by
what they do to markers: they turn a conditional around, or leave out an arm or a conditional
without content. So what is gathered along the outline, in such a way that these changes do not
matter to it, can be gathered along the optimized program as well.
-/

namespace NamedStack.Peephole

/-- Whether an instruction is open or a marker. -/
def inOutline (i : Instr) : Bool := i.isOpen || !Matcher.notMarker.accepts i

/-- The open instructions and the markers of a program. -/
def outline (ops : List Instr) : List Instr := ops.filter inOutline

/-- The outlines of programs one after another. -/
@[simp]
theorem outline_append (a b : List Instr) : outline (a ++ b) = outline a ++ outline b :=
  List.filter_append a b

/-- An opcode is in the outline if it is a marker. -/
@[simp]
theorem inOutline_op (o : Opcode) : inOutline (.op o) = o.isMarker := Bool.not_not o.isMarker

private theorem outline_ops (os : List Opcode) :
    outline (os.map .op) = (os.filter Opcode.isMarker).map .op := by
  rw [outline, List.filter_map]
  congr 2
  exact funext inOutline_op

/-- Whether what is gathered from the left depends on the outline alone, and not on whether a
conditional is turned around or on what has no content. -/
structure Gathers {α : Type} (f : α → Instr → α) : Prop where
  outside : ∀ a i, inOutline i = false → f a i = a
  turned : ∀ a, f a (.op .opNotIf) = f a (.op .opIf)
  emptyArm : ∀ a, f (f a (.op .opElse)) (.op .opEndIf) = f a (.op .opEndIf)
  empty : ∀ a, f (f a (.op .opIf)) (.op .opEndIf) = a

variable {α : Type} {f : α → Instr → α}

private theorem Gathers.foldl_outline (hf : Gathers f) (ops : List Instr) (a : α) :
    (outline ops).foldl f a = ops.foldl f a := by
  induction ops generalizing a with
  | nil => rfl
  | cons i rest ih =>
    cases hi : inOutline i with
    | true =>
      rw [outline, List.filter_cons_of_pos hi]
      exact ih (f a i)
    | false =>
      rw [outline, List.filter_cons_of_neg (by simp [hi]), List.foldl_cons, hf.outside a i hi]
      exact ih a

/-- Whether the same is gathered along two programs. -/
def SameGathered (f : α → Instr → α) (old new : List Step) : Prop :=
  ∀ a, (Step.instrs new).foldl f a = (Step.instrs old).foldl f a

namespace SameGathered

private theorem congruent (f : α → Instr → α) : Congruent (SameGathered f) where
  refl := fun _ _ => rfl
  trans := fun _ _ _ h k a => (k a).trans (h a)
  append := by
    intro old new h front back a
    simp only [Step.instrs_append, List.foldl_append]
    rw [h]

private theorem of_outline (hf : Gathers f) {old new : List Step}
    (h : outline (Step.instrs new) = outline (Step.instrs old)) : SameGathered f old new := by
  intro a
  rw [← hf.foldl_outline, h, hf.foldl_outline]

/-- Opcodes that nest as others do. -/
theorem of_ops (hf : Gathers f) {run : List Step} {before after : List Opcode}
    (hrun : Step.instrs run = before.map .op) (h : SameNesting before after) :
    SameGathered f run (after.map Step.op) := by
  rcases h with h | h
  · apply of_outline hf
    rw [instrs_ops, hrun, outline_ops, outline_ops, h]
  · intro a
    rw [instrs_ops, hrun]
    simp only [markerForms, List.mem_cons, List.not_mem_nil, or_false, Prod.mk.injEq] at h
    rcases h with ⟨rfl, rfl⟩ | ⟨rfl, rfl⟩ | ⟨rfl, rfl⟩
    · simp only [List.map_cons, List.map_nil, List.foldl_cons, List.foldl_nil]
      rw [hf.outside a (.op (.unary .not)) rfl, hf.turned]
    · exact (hf.emptyArm a).symm
    · simp only [List.map_cons, List.map_nil, List.foldl_cons, List.foldl_nil]
      rw [hf.outside a (.op .drop) rfl, hf.empty]

end SameGathered

/-! ### Rules -/

private theorem fixedRule_gathers (hf : Gathers f) {name : String}
    {pairs : List (List Opcode × List Opcode)} (h : ∀ p ∈ pairs, SameNesting p.1 p.2)
    (steps : List Step) : SameGathered f steps ((fixedRule name pairs).apply steps).1 := by
  refine Exchange.inOrder_congr (SameGathered.congruent f) (fun e he => ?_) steps
  obtain ⟨p, hp, rfl⟩ := List.mem_map.mp he
  exact fun run hrun => .of_ops hf (instrs_of_matching_ops _ hrun) (h p hp)

/-- Whether what stands in place of a run has the same outline. -/
private def KeepsOutline (e : Exchange) : Prop :=
  ∀ run, Matching e.template run → outline (Step.instrs (e.replace run)) = outline (Step.instrs run)

private theorem gathers_inOrder (hf : Gathers f) {es : List Exchange} (h : ∀ e ∈ es, KeepsOutline e)
    (steps : List Step) : SameGathered f steps (Exchange.inOrder es steps).1 :=
  Exchange.inOrder_congr (SameGathered.congruent f)
    (fun e he run hrun => .of_outline hf (h e he run hrun)) steps

private theorem keepsOutline_ofOpcodes {before after : List Opcode}
    (h : after.filter Opcode.isMarker = before.filter Opcode.isMarker) :
    KeepsOutline (Exchange.ofOpcodes before after) := by
  intro run hrun
  rw [instrs_of_matching_ops _ hrun, outline_ops, ← h, ← outline_ops]
  exact congrArg outline (instrs_ops after)

private theorem outline_operand (s : Step) {a b : Step} {o o' : Opcode}
    (ha : (Matcher.op o).accepts a.instr = true) (hb : (Matcher.op o').accepts b.instr = true)
    (ho : o.isMarker = false) (ho' : o'.isMarker = false) :
    outline (Step.instrs [s, a, b]) = outline [s.instr] ∧
      outline (Step.instrs [a, s, b]) = outline [s.instr] := by
  simp [Step.instrs, outline, List.filter_cons, eq_op_of_accepts ha, eq_op_of_accepts hb, ho, ho']

private theorem shortcut_keepsOutline {number math short : Opcode} (hn : number.isMarker = false)
    (hm : math.isMarker = false) (hs : short.isMarker = false) :
    ∀ e ∈ shortcut number math short, KeepsOutline e := by
  have hnew (s : Step) : outline (Step.instrs [s, Step.op short]) = outline [s.instr] := by
    have hshort : (Step.op short).instr = .op short := rfl
    simp [Step.instrs, outline, List.filter_cons, hs, hshort]
  simp only [shortcut, List.forall_mem_cons]
  refine ⟨fun run hrun => ?_, fun run hrun => ?_, fun run hrun => ?_, List.forall_mem_nil _⟩
  · obtain _ | ⟨-, _ | ⟨ha, _ | ⟨hb, ⟨⟩⟩⟩⟩ := hrun
    exact (hnew _).trans (outline_operand _ ha hb hn hm).1.symm
  · obtain _ | ⟨ha, _ | ⟨-, _ | ⟨hb, ⟨⟩⟩⟩⟩ := hrun
    exact (hnew _).trans (outline_operand _ ha hb hn hm).2.symm
  · obtain _ | ⟨-, _ | ⟨ha, _ | ⟨hb, ⟨⟩⟩⟩⟩ := hrun
    exact (hnew _).trans (outline_operand _ ha hb hn hm).1.symm

variable (hf : Gathers f)

include hf

private theorem arithmeticShortcuts_gathers (steps : List Step) :
    SameGathered f steps (arithmeticShortcuts.apply steps).1 := by
  apply gathers_inOrder hf
  simp only [List.cons_append, List.nil_append, List.forall_mem_cons, List.forall_mem_append]
  refine ⟨keepsOutline_ofOpcodes rfl, keepsOutline_ofOpcodes rfl, keepsOutline_ofOpcodes rfl, ?_,
    ?_⟩
  · exact shortcut_keepsOutline rfl rfl rfl
  · exact shortcut_keepsOutline rfl rfl rfl

private theorem nullArithmetic_gathers (steps : List Step) :
    SameGathered f steps (nullArithmetic.apply steps).1 := by
  apply gathers_inOrder hf
  simp only [List.forall_mem_cons]
  refine ⟨keepsOutline_ofOpcodes rfl, fun run hrun => ?_, fun run hrun => ?_, List.forall_mem_nil _⟩
  · obtain _ | ⟨-, _ | ⟨ha, _ | ⟨hb, ⟨⟩⟩⟩⟩ := hrun
    exact (outline_operand _ ha hb rfl rfl).1.symm
  · obtain _ | ⟨ha, _ | ⟨-, _ | ⟨hb, ⟨⟩⟩⟩⟩ := hrun
    exact (outline_operand _ ha hb rfl rfl).2.symm

private theorem arithmeticOps_gathers (steps : List Step) :
    SameGathered f steps (arithmeticOps.apply steps).1 := by
  apply gathers_inOrder hf
  simp only [List.forall_mem_cons]
  refine ⟨fun run hrun => ?_, List.forall_mem_nil _⟩
  dsimp only
  split
  · obtain _ | ⟨-, _ | ⟨-, _ | ⟨ha, _ | ⟨hb, ⟨⟩⟩⟩⟩⟩ := hrun
    have hnew : (Step.op (.binary .numNotEqual)).instr = .op (.binary .numNotEqual) := rfl
    simp [Step.instrs, outline, List.filter_cons, eq_op_of_accepts ha, eq_op_of_accepts hb,
      Opcode.isMarker, hnew]
  · rfl

private theorem smallIntOpcodes_gathers (steps : List Step) :
    SameGathered f steps (smallIntOpcodes.apply steps).1 := by
  apply gathers_inOrder hf
  simp only [List.forall_mem_cons]
  refine ⟨fun run hrun => ?_, List.forall_mem_nil _⟩
  obtain ⟨s, rest, -, hrest, rfl⟩ := List.forall₂_cons_left_iff.mp hrun
  obtain rfl := List.forall₂_nil_left_iff.mp hrest
  cases ho : smallPush? s with
  | none => simp only [List.map_cons, List.map_nil, ho]
  | some o =>
    obtain ⟨data, n, hi, rfl, -⟩ := push_of_smallPush? ho
    simp only [List.map_cons, List.map_nil, ho, Step.instrs, hi]
    rfl

private theorem promotedReturn_gathers (steps : List Step) :
    SameGathered f steps (promotedReturn.apply steps).1 := by
  rcases promotedReturn_cases steps with h | ⟨-, h⟩ <;> rw [h]
  · exact (SameGathered.congruent f).refl _
  · apply SameGathered.of_outline hf
    rw [outline, outline, Step.instrs, Step.instrs, List.map_cons,
      List.filter_cons_of_neg (by decide), List.filter_map, List.filter_map, List.filter_filter]
    congr 2
    funext s
    -- no return is in the outline
    by_cases hs : isOp .opReturn s = true
    · simp [hs, eq_op_of_accepts hs, Opcode.isMarker]
    · simp [hs]

/-- Every rule leaves what is gathered along the outline. -/
theorem gathers_of_mem_rules {r : Rule} (hr : r ∈ rules) (steps : List Step) :
    SameGathered f steps (r.apply steps).1 := by
  simp only [rules, List.mem_cons, List.not_mem_nil, or_false] at hr
  rcases hr with rfl | rfl | rfl | rfl | rfl | rfl | rfl | rfl | rfl | rfl | rfl | rfl | rfl
  · exact fixedRule_gathers hf (by decide) steps
  · exact fixedRule_gathers hf (by decide) steps
  · exact fixedRule_gathers hf (by decide) steps
  · exact arithmeticShortcuts_gathers hf steps
  · exact fixedRule_gathers hf (by decide) steps
  · exact fixedRule_gathers hf (by decide) steps
  · exact nullArithmetic_gathers hf steps
  · exact fixedRule_gathers hf (by decide) steps
  · refine withoutTrailingVerify_chains (SameGathered.congruent f).toChains (fun front s hs => ?_)
      steps
    apply SameGathered.of_outline hf
    have hverify : Step.instrs [s] = [Opcode.verify].map .op := congrArg ([·]) hs
    rw [Step.instrs_append, outline_append, hverify, outline_ops]
    exact (List.append_nil _).symm
  · exact arithmeticOps_gathers hf steps
  · exact smallIntOpcodes_gathers hf steps
  · exact promotedReturn_gathers hf steps
  · exact fixedRule_gathers hf (by decide) steps

/-- What is gathered along the outline of a program is gathered along the optimized program too. -/
theorem Optimizer.foldl_run (o : Optimizer) (steps : List Step) (a : α) :
    (Step.instrs (o.run steps)).foldl f a = (Step.instrs steps).foldl f a := by
  rw [← o.runWith_rules]
  exact runWith_chains (SameGathered.congruent f).toChains
    (fun r hr => gathers_of_mem_rules hf hr) o steps a

end NamedStack.Peephole
