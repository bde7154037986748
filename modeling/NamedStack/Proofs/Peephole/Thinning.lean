import NamedStack.Proofs.Peephole.Structural
import NamedStack.Proofs.Script.Decoding

/-!
# Programs with some instructions left out

A sum is written in shortest form, whatever form its operands have. Adding or subtracting zero
changes no number, but it changes a byte string that is not in shortest form, and leaving it out
does not. Which zeros, additions and subtractions are left out depends on the program alone, so each
instruction is followed here with its position.
-/

namespace NamedStack

/-- Whether an instruction adds or subtracts. -/
def Instr.isSum : Instr → Bool
  | .op (.binary .add) | .op (.binary .sub) => true
  | _ => false

/-- The opcodes that add or subtract. -/
theorem Instr.isSum_op_iff (o : Opcode) :
    (Instr.op o).isSum = true ↔ o = .binary .add ∨ o = .binary .sub := by
  unfold isSum
  split
  · next h => simpa using .inl (Instr.op.inj h)
  · next h => simpa using .inr (Instr.op.inj h)
  · next hadd hsub =>
    simp only [Bool.false_eq_true, false_iff, not_or]
    exact ⟨fun h => hadd (congrArg _ h), fun h => hsub (congrArg _ h)⟩

namespace Engine

open Script (Piece)

variable {valid : Checker} {s t u w : State} {v : Bytes} {m m' : Stack}

/-- The state in front of a position of a script that is run on given stacks. -/
def stateAt (valid : Checker) (main alt : Stack) (script : Bytes) (i : Nat) :
    Except ExecError State :=
  (load script).bind fun ts => run valid { main, alt } (ts.take i)

/-- The state in front of a position is the one behind the pieces before it. -/
theorem stateAt_forms (valid : Checker) (main alt : Stack) {ps : List Piece}
    (hf : ∀ p ∈ ps, p.fits) (hl : (Script.forms ps).length ≤ Script.maxLen) (i : Nat) :
    stateAt valid main alt (Script.forms ps) i = runPieces valid { main, alt } (ps.take i) := by
  rw [stateAt, load_forms ps hf hl]
  change run valid _ ((ps.map Piece.token).take i) = _
  rw [← List.map_take, run_tokens valid _ _ fun p hp => hf p (List.mem_of_mem_take hp)]

/-- In code that runs, the two items on top are in shortest form. -/
def State.ShortOperands (s : State) : Prop :=
  s.running = true → ∀ v ∈ s.main.take 2, ScriptNum.isMinimal v = true

private theorem State.Within.shortOperands (h : s.Within t) (ht : t.ShortOperands) :
    s.ShortOperands := by
  unfold State.ShortOperands
  rw [h.running, h.main]
  exact ht

/-! ### Sums with zero -/

private theorem onNumbers_eq_some {f : Int → Int → Int} (h : onNumbers f m = some m') :
    ∃ b a rest x y, m = b :: a :: rest ∧ ScriptNum.read? a = some x ∧
      ScriptNum.read? b = some y ∧ m' = ScriptNum.ofInt (f x y) :: rest := by
  unfold onNumbers at h
  split at h
  · next b a rest =>
    split at h
    · next x y ha hb =>
      cases h
      exact ⟨b, a, rest, x, y, rfl, ha, hb, rfl⟩
    · cases h
  · cases h

private theorem read?_nil : ScriptNum.read? [] = some 0 := rfl

private theorem ofInt_of_read? {x : Int} (h : ScriptNum.read? v = some x)
    (hmin : ScriptNum.isMinimal v = true) : ScriptNum.ofInt x = v := by
  rw [ScriptNum.read?_eq] at h
  split at h
  · cases h
    exact ScriptNum.ofInt_value hmin
  · cases h

private theorem effect_sum_zero {o : Opcode} (ho : (Instr.op o).isSum = true)
    (hmin : ∀ v ∈ m.take 1, ScriptNum.isMinimal v = true)
    (h : effect valid o ([] :: m) = some m') : m' = m := by
  have hzero {f : Int → Int → Int} (hf : ∀ x, f x 0 = x) (h : onNumbers f ([] :: m) = some m') :
      m' = m := by
    obtain ⟨b, a, rest, x, y, hm, hx, hy, rfl⟩ := onNumbers_eq_some h
    cases hm
    cases read?_nil.symm.trans hy
    rw [hf, ofInt_of_read? hx (hmin a List.mem_cons_self)]
  rcases (Instr.isSum_op_iff o).mp ho with rfl | rfl
  · exact hzero Int.add_zero h
  · exact hzero Int.sub_zero h

private theorem effect_zero_add (hmin : ScriptNum.isMinimal v = true)
    (h : onNumbers (binary .add) (v :: [] :: m) = some m') : m' = v :: m := by
  obtain ⟨b, a, rest, x, y, hm, hx, hy, rfl⟩ := onNumbers_eq_some h
  cases hm
  cases read?_nil.symm.trans hx
  rw [binary, Int.zero_add, ofInt_of_read? hy hmin]

private theorem isPush_zero : IsPush (.opcode .zero) [] where
  plain := rfl
  cost := rfl
  enabled := rfl
  effect := fun _ m => congrArg (fun v => some (v :: m)) (ScriptNum.ofInt_value (v := []) rfl)

/-- A sum of zero and an item in shortest form may be left out. -/
theorem within_of_sum_zero {o : Opcode} (ho : (Instr.op o).isSum = true)
    (hzero : stepPiece valid s (.opcode .zero) = .ok u)
    (hsum : stepPiece valid u (.opcode o) = .ok t) (hshort : u.ShortOperands) : s.Within t := by
  have hplain : isPlain (.opcode o) = true := by
    rcases (Instr.isSum_op_iff o).mp ho with rfl | rfl <;> rfl
  cases hr : s.running with
  | false =>
    obtain ⟨-, -, -, rfl⟩ := (stepPiece_plain_skipped valid isPush_zero.plain hr u).mp hzero
    obtain ⟨-, -, -, rfl⟩ := (stepPiece_plain_skipped valid hplain (by exact hr) t).mp hsum
    exact ⟨rfl, rfl, rfl, Nat.le_add_right_of_le (Nat.le_add_right _ _)⟩
  | true =>
    obtain ⟨_, he, -, -, rfl⟩ := (stepPiece_plain valid isPush_zero.plain hr u).mp hzero
    rw [isPush_zero.effect] at he
    cases he
    obtain ⟨m, he, -, -, rfl⟩ := (stepPiece_plain valid hplain (by exact hr) t).mp hsum
    have hmain : m = s.main :=
      effect_sum_zero ho (fun v hv => hshort hr v (List.mem_cons_of_mem _ hv)) he
    exact ⟨hmain.symm, rfl, rfl, Nat.le_add_right_of_le (Nat.le_add_right _ _)⟩

/-- An item in shortest form need not be added to zero. -/
theorem exists_within_of_zero_add {p : Piece} (hp : IsPush p v)
    (hzero : stepPiece valid s (.opcode .zero) = .ok u) (hpush : stepPiece valid u p = .ok w)
    (hadd : stepPiece valid w (.opcode (.binary .add)) = .ok t) (hshort : w.ShortOperands) :
    ∃ t', stepPiece valid s p = .ok t' ∧ t'.Within t := by
  cases hr : s.running with
  | false =>
    obtain ⟨-, -, hb, rfl⟩ := (stepPiece_plain_skipped valid isPush_zero.plain hr u).mp hzero
    obtain ⟨-, -, -, rfl⟩ := (stepPiece_plain_skipped valid hp.plain (by exact hr) w).mp hpush
    obtain ⟨-, -, -, rfl⟩ := (stepPiece_plain_skipped valid rfl (by exact hr) t).mp hadd
    refine ⟨_, (stepPiece_plain_skipped valid hp.plain hr _).mpr
      ⟨hp.enabled, .inl hp.cost, hb, rfl⟩, rfl, rfl, rfl, ?_⟩
    dsimp only
    omega
  | true =>
    obtain ⟨_, he, -, hb, rfl⟩ := (stepPiece_plain valid isPush_zero.plain hr u).mp hzero
    rw [isPush_zero.effect] at he
    cases he
    obtain ⟨_, he, -, -, rfl⟩ := (stepPiece_plain valid hp.plain (by exact hr) w).mp hpush
    rw [hp.effect] at he
    cases he
    obtain ⟨m, he, -, -, rfl⟩ := (stepPiece_plain valid rfl (by exact hr) t).mp hadd
    have hmain : m = v :: s.main := effect_zero_add (hshort hr v List.mem_cons_self) he
    refine ⟨_, (stepPiece_plain valid hp.plain hr _).mpr
      ⟨_, hp.effect valid _, .inl hp.cost, hb, rfl⟩, hmain.symm, rfl, rfl, ?_⟩
    dsimp only
    omega

end Engine

namespace Peephole

open Script (Piece Writes)
open Engine

/-! ### Programs with some instructions left out -/

/-- An instruction of a program at its position, with the piece that it is written as. -/
structure Line where
  instr : Instr
  index : Nat
  piece : Piece
  writes : Writes instr piece
  fits : piece.fits

/-- An instruction and its position. -/
def Line.place (l : Line) : Instr × Nat := (l.instr, l.index)

/-- A run through lines, where the sums among those that will be left out find operands in shortest
form. -/
inductive Line.Runs (valid : Checker) (gone : Line → Prop) : State → List Line → State → Prop
  | nil (s : State) : Runs valid gone s [] s
  | cons {s t u : State} {l : Line} {ls : List Line}
      (short : gone l → l.instr.isSum = true → s.ShortOperands)
      (step : stepPiece valid s l.piece = .ok t) (rest : Runs valid gone t ls u) :
      Runs valid gone s (l :: ls) u

variable {valid : Checker} {gone : Line → Prop} {s t u : State} {ls ks : List Line}

namespace Line.Runs

private theorem append_iff {ls' : List Line} :
    Runs valid gone s (ls ++ ls') t ↔ ∃ u, Runs valid gone s ls u ∧ Runs valid gone u ls' t := by
  induction ls generalizing s with
  | nil =>
    constructor
    · intro h
      exact ⟨s, .nil s, h⟩
    · rintro ⟨u, hu, h⟩
      cases hu
      exact h
  | cons l ls ih =>
    constructor
    · intro h
      cases h with
      | cons short step rest =>
        obtain ⟨u, hu, h⟩ := ih.mp rest
        exact ⟨u, .cons short step hu, h⟩
    · rintro ⟨u, hu, h⟩
      cases hu with
      | cons short step rest => exact .cons short step (ih.mpr ⟨u, rest, h⟩)

/-- Lines that run with more opcodes counted before them also run with fewer. -/
theorem within (hw : s.Within t) (h : Runs valid gone t ls u) :
    ∃ s', Runs valid gone s ls s' ∧ s'.Within u := by
  induction h generalizing s with
  | nil t => exact ⟨s, .nil s, hw⟩
  | cons short step _ ih =>
    obtain ⟨s₁, hstep, hw₁⟩ := stepPiece_within valid _ hw step
    obtain ⟨s', hs', hw'⟩ := ih hw₁
    exact ⟨s', .cons (fun hl hsum => hw.shortOperands (short hl hsum)) hstep hs', hw'⟩

/-- A run through lines is one of their pieces. -/
theorem runPieces_eq (h : Runs valid gone s ls t) :
    runPieces valid s (ls.map Line.piece) = .ok t := by
  induction h with
  | nil s => rfl
  | cons _ step _ ih => exact bind_eq_ok_iff.mpr ⟨_, step, ih⟩

/-- A run where the state in front of each sum that will be left out has operands in shortest form.
-/
theorem of_runPieces (h : runPieces valid s (ls.map Line.piece) = .ok t)
    (hshort : ∀ front l back, ls = front ++ l :: back → gone l → l.instr.isSum = true →
      ∀ u, runPieces valid s (front.map Line.piece) = .ok u → u.ShortOperands) :
    Runs valid gone s ls t := by
  induction ls generalizing s with
  | nil =>
    cases h
    exact .nil _
  | cons l ls ih =>
    obtain ⟨u, hu, h⟩ := bind_eq_ok_iff.mp h
    refine .cons (fun hl hsum => hshort [] l ls rfl hl hsum s rfl) hu (ih h ?_)
    intro front l' back hls hl hsum w hw
    exact hshort (l :: front) l' back (congrArg _ hls) hl hsum w (bind_eq_ok_iff.mpr ⟨u, hu, hw⟩)

end Line.Runs

/-- The instructions that arithmetic with zero consists of, apart from the other operand. -/
def nullInstrs : List Instr := [.op .zero, .op (.binary .add), .op (.binary .sub)]

/-- Lines of a program that run to the same end as all of them, where the sums among those left out
find operands in shortest form. -/
structure Line.Suffice (ls ks : List Line) : Prop where
  sublist : ks.Sublist ls
  null : ∀ l ∈ ls, l ∉ ks → l.instr ∈ nullInstrs
  runs : ∀ valid gone s t, (∀ l ∈ ls, l ∉ ks → gone l) → Line.Runs valid gone s ls t →
    ∃ t', Line.Runs valid gone s ks t' ∧ t'.Within t

namespace Line.Suffice

private theorem refl (ls : List Line) : Suffice ls ls where
  sublist := .refl ls
  null := fun _ hl hn => absurd hl hn
  runs := fun _ _ _ t _ h => ⟨t, h, .refl t⟩

private theorem trans {js : List Line} (h : Suffice ls ks) (k : Suffice ks js) : Suffice ls js := by
  refine ⟨k.sublist.trans h.sublist, ?_, ?_⟩
  · intro l hl hn
    by_cases hk : l ∈ ks
    · exact k.null l hk hn
    · exact h.null l hl hk
  · intro valid gone s t hgone hrun
    obtain ⟨u, hu, hwu⟩ := h.runs valid gone s t
      (fun l hl hn => hgone l hl fun hj => hn (k.sublist.subset hj)) hrun
    obtain ⟨t', ht', hwt⟩ := k.runs valid gone s u
      (fun l hl hn => hgone l (h.sublist.subset hl) hn) hu
    exact ⟨t', ht', hwt.trans hwu⟩

/-- What stands in front and behind does not matter, if no line stands twice. -/
theorem append (h : Suffice ls ks) {front back : List Line}
    (hnodup : (front ++ ls ++ back).Nodup) :
    Suffice (front ++ ls ++ back) (front ++ ks ++ back) := by
  -- what is left out is a line in the middle, and no other line is the same
  have hmid (l : Line) (hl : l ∈ front ++ ls ++ back) (hn : l ∉ front ++ ks ++ back) :
      l ∈ ls ∧ l ∉ ks := by
    simp only [List.mem_append, not_or] at hl hn
    exact ⟨(hl.resolve_right hn.2).resolve_left hn.1.1, hn.1.2⟩
  have hout (l : Line) (hl : l ∈ ls) (hn : l ∉ ks) : l ∉ front ++ ks ++ back := by
    obtain ⟨hfront, -, hback⟩ := List.nodup_append.mp hnodup
    obtain ⟨-, -, hfront⟩ := List.nodup_append.mp hfront
    simp only [List.mem_append, not_or]
    exact ⟨⟨fun hl' => hfront l hl' l hl rfl, hn⟩,
      fun hl' => hback l (List.mem_append_right _ hl) l hl' rfl⟩
  refine ⟨(h.sublist.append_left front).append_right back, ?_, ?_⟩
  · intro l hl hn
    exact h.null l (hmid l hl hn).1 (hmid l hl hn).2
  · intro valid gone s t hgone hrun
    obtain ⟨v, hv, hback⟩ := Runs.append_iff.mp hrun
    obtain ⟨u, hfront, hls⟩ := Runs.append_iff.mp hv
    obtain ⟨v', hks, hw⟩ := h.runs valid gone u v (fun l hl hn => hgone l
      (List.mem_append_left _ (List.mem_append_right _ hl)) (hout l hl hn)) hls
    obtain ⟨t', hback', hw'⟩ := hback.within hw
    exact ⟨t', Runs.append_iff.mpr ⟨v', Runs.append_iff.mpr ⟨u, hfront, hks⟩, hback'⟩, hw'⟩

end Line.Suffice

/-- Whatever the positions of a program are, the lines of another one are some of its lines and
suffice. -/
def Thins (old new : List Instr) : Prop :=
  ∀ ls : List Line, ls.map Line.instr = old → ls.Nodup →
    ∃ ks, ks.map Line.instr = new ∧ Line.Suffice ls ks

/-- Thinning is kept by what stands around. -/
theorem Thins.congruent : Congruent Thins where
  refl := fun _ ls hls _ => ⟨ls, hls, .refl ls⟩
  trans := by
    intro a b c h k ls hls hnodup
    obtain ⟨ks, hks, hsuffice⟩ := h ls hls hnodup
    obtain ⟨js, hjs, hsuffice'⟩ := k ks hks (hsuffice.sublist.nodup hnodup)
    exact ⟨js, hjs, hsuffice.trans hsuffice'⟩
  append := by
    intro old new h front back ls hls hnodup
    obtain ⟨rest, bs, rfl, hrest, rfl⟩ := List.map_eq_append_iff.mp hls
    obtain ⟨fs, os, rfl, rfl, hos⟩ := List.map_eq_append_iff.mp hrest
    obtain ⟨ks, rfl, hsuffice⟩ := h os hos hnodup.of_append_left.of_append_right
    exact ⟨fs ++ ks ++ bs, by simp only [List.map_append], hsuffice.append hnodup⟩

end Peephole

end NamedStack
