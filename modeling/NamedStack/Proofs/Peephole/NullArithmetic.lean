import NamedStack.Proofs.Peephole.Thinning

/-!
# Leaving out arithmetic with zero

The rule leaves out zeros that are added or subtracted. Where those additions and subtractions find
operands in shortest form whenever they are run, the rest of the program runs to the same end.
-/

namespace NamedStack.Peephole

open Script (Piece Writes)
open Engine

variable {valid : Checker} {gone : Line → Prop} {s t u : State} {ls ks : List Line}

/-! ### The exchanges of the rule -/

private theorem Line.piece_eq {l : Line} {o : Opcode} (h : l.instr = .op o) :
    l.piece = .opcode o := by
  have hw := l.writes
  rw [h] at hw
  exact (Except.ok.inj hw).symm

/-- A sum of zero and what is below is left out. -/
theorem thins_sum_zero {o : Opcode} (ho : (Instr.op o).isSum = true) :
    Thins [.op .zero, .op o] [] := by
  intro ls hls _
  obtain ⟨z, ls, rfl, hz, hls⟩ := List.map_eq_cons_iff.mp hls
  obtain ⟨m, ls, rfl, hm, hls⟩ := List.map_eq_cons_iff.mp hls
  obtain rfl := List.map_eq_nil_iff.mp hls
  refine ⟨[], rfl, List.nil_sublist _, ?_, ?_⟩
  · intro l hl _
    rcases List.mem_pair.mp hl with rfl | rfl
    · rw [hz]
      exact List.mem_cons_self
    · rw [hm]
      rcases (Instr.isSum_op_iff o).mp ho with rfl | rfl
      · exact .tail _ (.head _)
      · exact .tail _ (.tail _ (.head _))
  · intro valid gone s t hgone hrun
    cases hrun with
    | cons _ hzero hrun =>
      cases hrun with
      | cons hshort hsum hrun =>
        cases hrun
        rw [Line.piece_eq hz] at hzero
        rw [Line.piece_eq hm] at hsum
        have hgone := hgone m (.tail _ (.head _)) List.not_mem_nil
        exact ⟨s, .nil s, within_of_sum_zero ho hzero hsum (hshort hgone (hm ▸ ho))⟩

variable {i : Instr}

private theorem exists_isPush {p : Piece} (h : Matcher.operand.accepts i = true) (hp : Writes i p) :
    ∃ v, IsPush p v := by
  rcases Script.writes_cases hp with ⟨o, rfl, rfl⟩ | ⟨d, -, rfl⟩
  · cases o with
    | small n => exact ⟨_, isPush_of_itemOf? rfl⟩
    | _ => cases h
  · exact ⟨_, isPush_of_itemOf? rfl⟩

private theorem isSum_of_operand (h : Matcher.operand.accepts i = true) : i.isSum = false := by
  cases i with
  | op o => cases o <;> first | rfl | cases h
  | _ => rfl

/-- An operand is not added to zero. -/
theorem thins_zero_add (hi : Matcher.operand.accepts i = true) :
    Thins [.op .zero, i, .op (.binary .add)] [i] := by
  intro ls hls hnodup
  obtain ⟨z, ls, rfl, hz, hls⟩ := List.map_eq_cons_iff.mp hls
  obtain ⟨x, ls, rfl, hx, hls⟩ := List.map_eq_cons_iff.mp hls
  obtain ⟨m, ls, rfl, hm, hls⟩ := List.map_eq_cons_iff.mp hls
  obtain rfl := List.map_eq_nil_iff.mp hls
  refine ⟨[x], congrArg ([·]) hx, .cons _ (.cons_cons _ (List.nil_sublist _)), ?_, ?_⟩
  · intro l hl hn
    simp only [List.mem_cons, List.not_mem_nil, or_false] at hl hn
    rcases hl with rfl | rfl | rfl
    · rw [hz]
      exact List.mem_cons_self
    · exact absurd rfl hn
    · rw [hm]
      exact .tail _ (.head _)
  · intro valid gone s t hgone hrun
    cases hrun with
    | cons _ hzero hrun =>
      cases hrun with
      | cons _ hpush hrun =>
        cases hrun with
        | cons hshort hadd hrun =>
          cases hrun
          rw [Line.piece_eq hz] at hzero
          rw [Line.piece_eq hm] at hadd
          obtain ⟨v, hv⟩ := exists_isPush hi (hx ▸ x.writes)
          have hne : m ∉ [x] := by
            rw [List.mem_singleton]
            rintro rfl
            simp at hnodup
          have hgone := hgone m (.tail _ (.tail _ (.head _))) hne
          obtain ⟨t', ht', hw⟩ :=
            exists_within_of_zero_add hv hzero hpush hadd (hshort hgone (hm ▸ rfl))
          refine ⟨t', .cons (fun _ hsum => ?_) ht' (.nil t'), hw⟩
          rw [hx, isSum_of_operand hi] at hsum
          cases hsum

/-- What the rule leaves of a program suffices. -/
theorem nullArithmetic_thins (steps : List Step) :
    Thins (Step.instrs steps) (Step.instrs (nullArithmetic.apply steps).1) := by
  refine Exchange.inOrder_congr Thins.congruent.onInstrs ?_ steps
  simp only [List.forall_mem_cons]
  refine ⟨?_, ?_, ?_, List.forall_mem_nil _⟩
  · intro run hrun
    rw [instrs_of_matching_ops _ hrun]
    exact thins_sum_zero rfl
  · intro run hrun
    obtain ⟨x, rest, -, hrest, rfl⟩ := List.forall₂_cons_left_iff.mp hrun
    have hthins := Thins.congruent.append (thins_sum_zero (o := .binary .add) rfl) [x.instr] []
    rw [show Step.instrs (x :: rest) = [x.instr] ++ Step.instrs rest from rfl,
      instrs_of_matching_ops [.zero, .binary .add] hrest]
    exact hthins
  · intro run hrun
    obtain ⟨z, rest, hz, hrest, rfl⟩ := List.forall₂_cons_left_iff.mp hrun
    obtain ⟨x, last, hx, hlast, rfl⟩ := List.forall₂_cons_left_iff.mp hrest
    obtain ⟨m, none, hm, hnone, rfl⟩ := List.forall₂_cons_left_iff.mp hlast
    obtain rfl := List.forall₂_nil_left_iff.mp hnone
    simp only [Step.instrs, List.map_cons, List.map_nil, eq_op_of_accepts hz, eq_op_of_accepts hm]
    exact thins_zero_add hx

/-! ### One application of the rule -/

variable {ops : List Instr} {ps : List Piece}

private theorem exists_lines (hw : List.Forall₂ Writes ops ps) (hf : ∀ p ∈ ps, p.fits) (n : Nat) :
    ∃ ls : List Line, ls.map Line.place = ops.zipIdx n ∧ ls.map Line.piece = ps := by
  induction hw generalizing n with
  | nil => exact ⟨[], rfl, rfl⟩
  | @cons i p ops ps hi _ ih =>
    obtain ⟨hp, hps⟩ := List.forall_mem_cons.mp hf
    obtain ⟨ls, hops, hpieces⟩ := ih hps (n + 1)
    refine ⟨⟨i, n, p, hi, hp⟩ :: ls, ?_, congrArg _ hpieces⟩
    rw [List.zipIdx_cons, ← hops, List.map_cons, Line.place]

private theorem index_eq_length {front back : List Line} {l : Line}
    (h : (front ++ l :: back).map Line.place = ops.zipIdx) : l.index = front.length := by
  have hget : ((front ++ l :: back).map Line.place)[front.length]? = some l.place := by simp
  rw [h, List.getElem?_zipIdx] at hget
  obtain ⟨i, -, hi⟩ := Option.map_eq_some_iff.mp hget
  exact (congrArg Prod.snd hi).symm.trans (Nat.zero_add _)

private theorem fits_pieces (ls : List Line) : ∀ p ∈ ls.map Line.piece, p.fits :=
  List.forall_mem_map.mpr fun l _ => l.fits

private theorem serialize_lines (hl : (Script.forms (ls.map Line.piece)).length ≤ Script.maxLen) :
    Script.serialize (ls.map Line.instr) = .ok (Script.forms (ls.map Line.piece)) := by
  refine (Script.serialize_eq_ok_iff _ _).mpr ⟨_, ?_, rfl, hl, fits_pieces ls⟩
  rw [List.forall₂_map_left_iff, List.forall₂_map_right_iff, List.forall₂_same]
  exact fun l _ => l.writes

namespace Line.Suffice

private theorem length_forms_le (h : Suffice ls ks) :
    (Script.forms (ks.map Line.piece)).length ≤ (Script.forms (ls.map Line.piece)).length :=
  ((h.sublist.map _).flatMap _).length_le

/-- The script of the lines that suffice runs to the same end, if the sums left out find operands in
shortest form. -/
theorem runFrom_eq_ok (h : Suffice ls ks)
    (hl : (Script.forms (ls.map Line.piece)).length ≤ Script.maxLen) {main alt : Stack}
    (hrun : runFrom valid main alt (Script.forms (ls.map Line.piece)) = .ok t)
    (hshort : ∀ front l back, ls = front ++ l :: back → l ∉ ks → l.instr.isSum = true →
      ∀ u, stateAt valid main alt (Script.forms (ls.map Line.piece)) front.length = .ok u →
        u.ShortOperands) :
    ∃ t', runFrom valid main alt (Script.forms (ks.map Line.piece)) = .ok t' ∧
      t'.main = t.main ∧ t'.alt = t.alt := by
  obtain ⟨ht, hc⟩ := (runFrom_forms_iff valid main alt (fits_pieces ls) hl t).mp hrun
  have hruns : Runs valid (fun l => l ∉ ks) { main, alt } ls t := by
    refine .of_runPieces ht fun front l back hls hn hsum u hu => ?_
    refine hshort front l back hls hn hsum u ?_
    rw [stateAt_forms valid main alt (fits_pieces ls) hl, hls, List.map_append,
      List.take_left' (List.length_map _)]
    exact hu
  obtain ⟨t', hruns', hw⟩ := h.runs valid _ _ t (fun _ _ hn => hn) hruns
  exact ⟨t', (runFrom_forms_iff valid main alt (fits_pieces ks) (h.length_forms_le.trans hl) t').mpr
    ⟨hruns'.runPieces_eq, hw.conds.trans hc⟩, hw.main, hw.alt⟩

end Line.Suffice

/-- One application of the rule to a program that can be serialized leaves out some zeros, additions
and subtractions and nothing else, and the rest can be serialized. Wherever the script of the old
program runs to its end, and the additions and subtractions left out find operands in shortest form
where they are run, the script of the new program runs to its end from the same stacks, and leaves
the same stacks. -/
theorem nullArithmetic_runs_to_same_end {script : Bytes}
    (hs : Script.serialize ops = .ok script) :
    ∃ (kept : List (Instr × Nat)) (script' : Bytes), kept.Sublist ops.zipIdx ∧
      (∀ x ∈ ops.zipIdx, x ∉ kept → x.1 ∈ nullInstrs) ∧
      Step.instrs (nullArithmetic.apply (Step.ofList ops)).1 = kept.map Prod.fst ∧
      Script.serialize (kept.map Prod.fst) = .ok script' ∧
      ∀ valid main alt t, runFrom valid main alt script = .ok t →
        (∀ x ∈ ops.zipIdx, x ∉ kept → x.1.isSum = true →
          ∀ u, stateAt valid main alt script x.2 = .ok u → u.ShortOperands) →
        ∃ t', runFrom valid main alt script' = .ok t' ∧ t'.main = t.main ∧ t'.alt = t.alt := by
  obtain ⟨ps, hw, rfl, hl, hf⟩ := (Script.serialize_eq_ok_iff ops script).mp hs
  obtain ⟨ls, hplaces, rfl⟩ := exists_lines hw hf 0
  have hinstrs : ls.map Line.instr = ops := by
    rw [← List.zipIdx_map_fst 0 ops, ← hplaces, List.map_map]
    rfl
  have hnodup : (ls.map Line.place).Nodup := by
    apply List.Nodup.of_map Prod.snd
    rw [hplaces, List.zipIdx_map_snd]
    exact List.nodup_range'
  have hthins := nullArithmetic_thins (Step.ofList ops)
  rw [Step.instrs_ofList] at hthins
  obtain ⟨ks, hks, hsuffice⟩ := hthins ls hinstrs hnodup.of_map
  have hkept : (ks.map Line.place).map Prod.fst = ks.map Line.instr := List.map_map
  -- a line is left out if its place is
  have hout (l : Line) (hl : l ∈ ls) (hn : l ∉ ks) : l.place ∉ ks.map Line.place := by
    intro hmem
    obtain ⟨k, hk, hplace⟩ := List.mem_map.mp hmem
    exact hn (List.inj_on_of_nodup_map hnodup (hsuffice.sublist.subset hk) hl hplace ▸ hk)
  refine ⟨ks.map Line.place, Script.forms (ks.map Line.piece), ?_, ?_, ?_, ?_, ?_⟩
  · rw [← hplaces]
    exact hsuffice.sublist.map _
  · intro x hx hn
    rw [← hplaces] at hx
    obtain ⟨l, hl, rfl⟩ := List.mem_map.mp hx
    exact hsuffice.null l hl fun hk => hn (List.mem_map_of_mem hk)
  · rw [hkept, hks]
  · rw [hkept]
    exact serialize_lines (hsuffice.length_forms_le.trans hl)
  · intro valid main alt t ht hshort
    refine hsuffice.runFrom_eq_ok hl ht fun front l back hls hn hsum u hu => ?_
    have hmem : l ∈ ls := hls ▸ List.mem_append_right _ (.head _)
    refine hshort l.place ?_ (hout l hmem hn) hsum u ?_
    · rw [← hplaces]
      exact List.mem_map_of_mem hmem
    · rwa [show l.place.2 = front.length from index_eq_length (hls ▸ hplaces)]

/-- A subtraction and an addition of zero to numbers in shortest form. -/
def nullSums : List Instr :=
  [.push [0x2C, 1], .op .zero, .op (.binary .sub), .op .zero, .push [9, 9], .op (.binary .add)]

/-- A subtraction and an addition of zero. -/
theorem nullArithmetic_runs_to_same_end_nullSums :
    Script.serialize nullSums = .ok [2, 0x2C, 1, 0, 0x94, 0, 2, 9, 9, 0x93] ∧
      Step.instrs (nullArithmetic.apply (Step.ofList nullSums)).1 =
        [.push [0x2C, 1], .push [9, 9]] ∧
      ∃ script', Script.serialize [.push [0x2C, 1], .push [9, 9]] = .ok script' ∧
        ∃ t', runFrom .none [] [[5]] script' = .ok t' ∧ t'.main = [[9, 9], [0x2C, 1]] ∧
          t'.alt = [[5]] := by
  have hs : Script.serialize nullSums = .ok [2, 0x2C, 1, 0, 0x94, 0, 2, 9, 9, 0x93] := by rfl
  have happly : Step.instrs (nullArithmetic.apply (Step.ofList nullSums)).1 =
      [.push [0x2C, 1], .push [9, 9]] := by cbv
  obtain ⟨kept, script', -, -, hkept, hs', hrun⟩ := nullArithmetic_runs_to_same_end hs
  rw [← hkept, happly] at hs'
  have hend : runFrom .none [] [[5]] [2, 0x2C, 1, 0, 0x94, 0, 2, 9, 9, 0x93] =
      .ok ⟨[[9, 9], [0x2C, 1]], [[5]], [], 2⟩ := by cbv
  have hsub : stateAt .none [] [[5]] [2, 0x2C, 1, 0, 0x94, 0, 2, 9, 9, 0x93] 2 =
      .ok ⟨[[], [0x2C, 1]], [[5]], [], 0⟩ := by cbv
  have hadd : stateAt .none [] [[5]] [2, 0x2C, 1, 0, 0x94, 0, 2, 9, 9, 0x93] 5 =
      .ok ⟨[[9, 9], [], [0x2C, 1]], [[5]], [], 1⟩ := by cbv
  refine ⟨hs, happly, script', hs', hrun .none [] [[5]] _ hend ?_⟩
  intro x hx _ hsum u hu
  simp only [nullSums, List.zipIdx_cons, List.zipIdx_nil, List.mem_cons, List.not_mem_nil,
    or_false] at hx
  rcases hx with rfl | rfl | rfl | rfl | rfl | rfl
  · cases hsum
  · cases hsum
  · cases hsub.symm.trans hu
    exact fun _ => by decide
  · cases hsum
  · cases hsum
  · cases hadd.symm.trans hu
    exact fun _ => by decide

/-- Adding zero to a number with a byte too many, and comparing the sum. -/
def paddedSum : List Instr :=
  [.push [1, 0], .op .zero, .op (.binary .add), .op .one, .op .equal]

/-- The sum has no byte too many, but what the rule leaves in its place has. -/
theorem nullArithmetic_keeps_padding :
    ∃ script script' t t', Script.serialize paddedSum = .ok script ∧
      Script.serialize (Step.instrs (nullArithmetic.apply (Step.ofList paddedSum)).1) =
        .ok script' ∧
      runFrom .none [] [] script = .ok t ∧ t.main = [[1]] ∧
      runFrom .none [] [] script' = .ok t' ∧ t'.main = [[]] := by
  refine ⟨[2, 1, 0, 0, 0x93, 0x51, 0x87], [2, 1, 0, 0x51, 0x87], ⟨[[1]], [], [], 2⟩,
    ⟨[[]], [], [], 1⟩, rfl, ?_, ?_, rfl, ?_, rfl⟩
  · cbv
  · cbv
  · cbv

end Peephole

end NamedStack
