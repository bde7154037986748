import NamedStack.Proofs.Context.Nesting

/-!
# The grammar of conditionals

A program is well formed if the grammar of conditionals derives it: each conditional has a first
arm, perhaps a second one, and an end. A scan for branches gets through exactly the well-formed
programs. In any other it names the first marker for which no well-formed program could go on behind
it or, if there is none, the marker of the innermost arm that is open at the end.
-/

namespace NamedStack

namespace Nesting

/-! ### Well-formed programs -/

/-- The programs that the grammar of conditionals derives. -/
inductive WellFormed : List Instr → Prop
  | nil : WellFormed []
  | other {i : Instr} {rest : List Instr} (hi : ∀ o, i = .op o → o.isMarker = false)
      (hrest : WellFormed rest) : WellFormed (i :: rest)
  | oneArm {o : Opcode} {first rest : List Instr} (ho : o = .opIf ∨ o = .opNotIf)
      (hfirst : WellFormed first) (hrest : WellFormed rest) :
      WellFormed (.op o :: (first ++ .op .opEndIf :: rest))
  | twoArms {o : Opcode} {first second rest : List Instr} (ho : o = .opIf ∨ o = .opNotIf)
      (hfirst : WellFormed first) (hsecond : WellFormed second) (hrest : WellFormed rest) :
      WellFormed (.op o :: (first ++ .op .opElse :: (second ++ .op .opEndIf :: rest)))

variable {ops rest : List Instr} {arms : List (Arm × Nat)} {i : Instr}

private theorem WellFormed.append (h : WellFormed ops) (hrest : WellFormed rest) :
    WellFormed (ops ++ rest) := by
  induction h with
  | nil => exact hrest
  | other hi _ ih => exact .other hi ih
  | oneArm ho hfirst _ _ ih =>
    rw [List.cons_append, List.append_assoc]
    exact .oneArm ho hfirst ih
  | twoArms ho hfirst hsecond _ _ _ ih =>
    rw [List.cons_append, List.append_assoc, List.cons_append, List.append_assoc]
    exact .twoArms ho hfirst hsecond ih

private theorem step_opens {o : Opcode} (ho : o = .opIf ∨ o = .opNotIf) (arms : List Arm) :
    step arms (.op o) = some (.first :: arms) := by
  rcases ho with rfl | rfl <;> rfl

/-- A well-formed program leaves the open arms around it as they are. -/
theorem run_of_wellFormed (h : WellFormed ops) (arms : List Arm) : run arms ops = some arms := by
  induction h generalizing arms with
  | nil => rfl
  | @other i rest hi _ ih =>
    have hstep : step arms i = some arms := by
      unfold step
      split <;> first | rfl | cases hi _ rfl
    rw [run_cons, hstep]
    exact ih arms
  | oneArm ho _ _ ihfirst ih =>
    rw [run_cons, step_opens ho, Option.bind_some, run_append, ihfirst]
    exact ih arms
  | twoArms ho _ _ _ ihfirst ihsecond ih =>
    rw [run_cons, step_opens ho, Option.bind_some, run_append, ihfirst, Option.bind_some, run_cons]
    change run (.second :: arms) _ = _
    rw [run_append, ihsecond]
    exact ih arms

/-! ### Programs with open arms -/

/-- The programs at whose end some arms are open. The arms are listed from the inside out, each with
the position of its marker. -/
inductive Opened : List (Arm × Nat) → List Instr → Prop
  | nil {ops : List Instr} (h : WellFormed ops) : Opened [] ops
  | first {arms : List (Arm × Nat)} {o : Opcode} {front body : List Instr}
      (hfront : Opened arms front)
      (ho : o = .opIf ∨ o = .opNotIf) (hbody : WellFormed body) :
      Opened ((.first, front.length) :: arms) (front ++ .op o :: body)
  | second {arms : List (Arm × Nat)} {o : Opcode} {front first body : List Instr}
      (hfront : Opened arms front) (ho : o = .opIf ∨ o = .opNotIf) (hfirst : WellFormed first)
      (hbody : WellFormed body) :
      Opened ((.second, front.length + (first.length + 1)) :: arms)
        (front ++ .op o :: (first ++ .op .opElse :: body))

namespace Opened

private theorem append (h : Opened arms ops) (hrest : WellFormed rest) :
    Opened arms (ops ++ rest) := by
  cases h with
  | nil h => exact .nil (h.append hrest)
  | first hfront ho hbody =>
    rw [List.append_assoc]
    exact .first hfront ho (hbody.append hrest)
  | second hfront ho hfirst hbody =>
    rw [List.append_assoc, List.cons_append, List.append_assoc]
    exact .second hfront ho hfirst (hbody.append hrest)

/-- A first arm is followed by a second one. -/
theorem split {p : Nat} (h : Opened ((.first, p) :: arms) ops) :
    Opened ((.second, ops.length) :: arms) (ops ++ [.op .opElse]) := by
  cases h with
  | first hfront ho hbody =>
    rw [List.length_append, List.length_cons, List.append_assoc]
    exact .second hfront ho hbody .nil

/-- The innermost arm is closed. -/
theorem close {a : Arm × Nat} (h : Opened (a :: arms) ops) :
    Opened arms (ops ++ [.op .opEndIf]) := by
  cases h with
  | first hfront ho hbody =>
    rw [List.append_assoc]
    exact hfront.append (.oneArm ho hbody .nil)
  | second hfront ho hfirst hbody =>
    rw [List.append_assoc, List.cons_append, List.append_assoc]
    exact hfront.append (.twoArms ho hfirst hbody .nil)

private theorem run (h : Opened arms ops) : Nesting.run [] ops = some (arms.map (·.1)) := by
  induction h with
  | nil h => exact run_of_wellFormed h []
  | first _ ho hbody ih =>
    rw [run_append, ih, Option.bind_some, run_cons, step_opens ho]
    exact run_of_wellFormed hbody _
  | second _ ho hfirst hbody ih =>
    rw [run_append, ih, Option.bind_some, run_cons, step_opens ho, Option.bind_some, run_append,
      run_of_wellFormed hfirst]
    exact run_of_wellFormed hbody _

/-- The open arms can be closed one after the other. -/
theorem exists_wellFormed (h : Opened arms ops) (hrest : WellFormed rest) :
    ∃ ends, WellFormed (ops ++ (rest ++ ends)) := by
  induction h generalizing rest with
  | nil h => exact ⟨[], by simpa using h.append hrest⟩
  | @first arms o front body _ ho hbody ih =>
    obtain ⟨ends, hends⟩ := ih (.oneArm ho (hbody.append hrest) .nil)
    exact ⟨.op .opEndIf :: ends, by simpa using hends⟩
  | @second arms o front first body _ ho hfirst hbody ih =>
    obtain ⟨ends, hends⟩ := ih (.twoArms ho hfirst (hbody.append hrest) .nil)
    exact ⟨.op .opEndIf :: ends, by simpa using hends⟩

end Opened

/-! ### Fronts of well-formed programs -/

/-- Whether a program is the front of a well-formed one. -/
def Extendable (ops : List Instr) : Prop := ∃ rest, WellFormed (ops ++ rest)

private theorem Extendable.of_append (h : Extendable (ops ++ rest)) : Extendable ops := by
  obtain ⟨more, hmore⟩ := h
  exact ⟨rest ++ more, by rwa [← List.append_assoc]⟩

private theorem Opened.extendable (h : Opened arms ops) : Extendable ops := h.exists_wellFormed .nil

/-- Behind the front of a well-formed program the arms that are open can be told. -/
theorem Extendable.exists_run (h : Extendable ops) : ∃ arms, run [] ops = some arms := by
  obtain ⟨rest, hrest⟩ := h
  have hrun := run_of_wellFormed hrest []
  rw [run_append] at hrun
  obtain ⟨arms, harms, -⟩ := Option.bind_eq_some_iff.mp hrun
  exact ⟨arms, harms⟩

/-- No well-formed program goes on behind a marker that has no arm to end. -/
theorem Opened.not_extendable (h : Opened arms ops) (hi : step (arms.map (·.1)) i = none) :
    ¬ Extendable (ops ++ [i]) := by
  intro hext
  obtain ⟨out, hout⟩ := hext.exists_run
  rw [run_append, h.run, Option.bind_some, run_cons, hi] at hout
  cases hout

/-- Whether a marker that ends an arm stands where no well-formed program has it. -/
def Disallowed (ops : List Instr) (p : Nat) : Prop :=
  (ops[p]? = some (.op .opElse) ∨ ops[p]? = some (.op .opEndIf)) ∧ ¬ Extendable (ops.take (p + 1))

/-- Whether a marker opens an arm that is open at the end, and no arm behind it is: what stands
behind it is well formed by itself. -/
def LeftOpen (ops : List Instr) (p : Nat) : Prop :=
  (∃ o, (o = .opIf ∨ o = .opNotIf ∨ o = .opElse) ∧ ops[p]? = some (.op o)) ∧
    WellFormed (ops.drop (p + 1))

/-- The marker to blame in a program that is not well formed: the first one that is disallowed or,
if none is, that of the innermost arm that is open at the end. -/
def Blamed (ops : List Instr) (p : Nat) : Prop :=
  Disallowed ops p ∧ (∀ q < p, ¬ Disallowed ops q) ∨ (∀ q, ¬ Disallowed ops q) ∧ LeftOpen ops p

private theorem Extendable.not_disallowed (h : Extendable ops) (p : Nat) : ¬ Disallowed ops p := by
  rintro ⟨-, hstuck⟩
  rw [← List.take_append_drop (p + 1) ops] at h
  exact hstuck h.of_append

private theorem disallowed_of_step (h : Opened arms ops) (hi : step (arms.map (·.1)) i = none)
    (rest : List Instr) :
    Disallowed (ops ++ i :: rest) ops.length ∧
      ∀ q < ops.length, ¬ Disallowed (ops ++ i :: rest) q := by
  have hat : (ops ++ i :: rest)[ops.length]? = some i := by simp
  have hmarker : i = .op .opElse ∨ i = .op .opEndIf := by
    unfold step at hi
    split at hi
    · cases hi
    · cases hi
    · exact .inl rfl
    · exact .inr rfl
    · cases hi
  refine ⟨⟨?_, ?_⟩, fun q hq hdis => ?_⟩
  · rw [hat]
    exact hmarker.imp (congrArg some) (congrArg some)
  · rw [List.take_append, List.take_of_length_le (Nat.le_succ _), Nat.add_sub_cancel_left]
    exact h.not_extendable hi
  · have hfront : Disallowed ops q := by
      unfold Disallowed at hdis ⊢
      rwa [List.getElem?_append_left hq, List.take_append_of_le_length hq] at hdis
    exact h.extendable.not_disallowed q hfront

variable {p q : Nat}

/-- The marker of the innermost open arm opens it, and what is behind it is well formed. -/
theorem Opened.leftOpen {a : Arm} (h : Opened ((a, p) :: arms) ops) : LeftOpen ops p := by
  cases h with
  | @first _ o front body _ ho hbody =>
    refine ⟨⟨o, ho.imp_right .inl, by simp⟩, ?_⟩
    rwa [List.drop_append, List.drop_of_length_le (Nat.le_succ _), Nat.add_sub_cancel_left]
  | @second _ o front first body _ ho _ hbody =>
    have hsplit : front ++ .op o :: (first ++ .op .opElse :: body) =
        (front ++ .op o :: first) ++ .op .opElse :: body := by simp
    have hlength : front.length + (first.length + 1) = (front ++ .op o :: first).length := by simp
    rw [hsplit, hlength]
    refine ⟨⟨.opElse, .inr (.inr rfl), by simp⟩, ?_⟩
    rwa [List.drop_append, List.drop_of_length_le (Nat.le_succ _), Nat.add_sub_cancel_left]

private theorem exists_cons_of_step {o : Opcode} {arms out : List Arm}
    (ho : o = .opIf ∨ o = .opNotIf ∨ o = .opElse) (h : step arms (.op o) = some out) :
    ∃ a rest, out = a :: rest := by
  rcases ho with rfl | rfl | rfl
  · cases h
    exact ⟨_, _, rfl⟩
  · cases h
    exact ⟨_, _, rfl⟩
  · obtain _ | ⟨_ | _, rest⟩ := arms
    · cases h
    · cases h
      exact ⟨_, _, rfl⟩
    · cases h

/-- A program with an arm that is left open is not well formed. -/
theorem LeftOpen.not_wellFormed (h : LeftOpen ops p) : ¬ WellFormed ops := by
  obtain ⟨⟨o, ho, hp⟩, hbody⟩ := h
  intro hops
  have hrun := run_of_wellFormed hops []
  obtain ⟨hlt, hget⟩ := List.getElem?_eq_some_iff.mp hp
  rw [← List.take_append_drop p ops, List.drop_eq_getElem_cons hlt, hget, run_append] at hrun
  obtain ⟨arms, -, hrest⟩ := Option.bind_eq_some_iff.mp hrun
  rw [run_cons] at hrest
  obtain ⟨out, hstep, hrest⟩ := Option.bind_eq_some_iff.mp hrest
  obtain ⟨a, outer, rfl⟩ := exists_cons_of_step ho hstep
  rw [run_of_wellFormed hbody] at hrest
  cases hrest

private theorem LeftOpen.drop (h : LeftOpen ops (p + q)) : LeftOpen (ops.drop p) q := by
  obtain ⟨⟨o, ho, hp⟩, hbody⟩ := h
  exact ⟨⟨o, ho, by rwa [List.getElem?_drop]⟩, by rwa [List.drop_drop, ← Nat.add_assoc]⟩

private theorem LeftOpen.unique (hp : LeftOpen ops p) (hq : LeftOpen ops q) : p = q := by
  have hle {p q : Nat} (hp : LeftOpen ops p) (hq : LeftOpen ops q) : q ≤ p := by
    by_contra hlt
    obtain ⟨d, rfl⟩ : ∃ d, q = p + 1 + d := ⟨q - (p + 1), by omega⟩
    exact hq.drop.not_wellFormed hp.2
  exact Nat.le_antisymm (hle hq hp) (hle hp hq)

private theorem Blamed.not_wellFormed (h : Blamed ops p) : ¬ WellFormed ops := by
  rcases h with ⟨hdis, -⟩ | ⟨-, hopen⟩
  · exact fun hops => Extendable.not_disallowed ⟨[], by simpa using hops⟩ p hdis
  · exact hopen.not_wellFormed

/-- One marker is to blame. -/
theorem Blamed.unique (hp : Blamed ops p) (hq : Blamed ops q) : p = q := by
  rcases hp with ⟨hp, hfirst⟩ | ⟨hnone, hp⟩
  · rcases hq with ⟨hq, hfirst'⟩ | ⟨hnone, -⟩
    · rcases Nat.lt_trichotomy p q with hlt | heq | hlt
      · exact absurd hp (hfirst' p hlt)
      · exact heq
      · exact absurd hq (hfirst q hlt)
    · exact absurd hp (hnone p)
  · rcases hq with ⟨hq, -⟩ | ⟨-, hq⟩
    · exact absurd hq (hnone q)
    · exact hp.unique hq

end Nesting

/-! ### Scans -/

namespace Branch.Scan

open Nesting (Opened)

variable {s s' : Scan} {ops : List Instr} {i : Instr}

/-- An arm with the position of its marker. -/
def armOf (b : Branch) : Arm × Nat := (if b.isTrue then .first else .second, b.marker)

/-- The open arms of a scan, from the inside out. -/
def arms (s : Scan) : List (Arm × Nat) := s.opened.filterMap fun c => (s.branches[c]?).map armOf

private theorem arms_cons {c : Nat} {cs : List Nat} {b : Branch} (ho : s.opened = c :: cs)
    (hb : s.branches[c]? = some b) :
    s.arms = armOf b :: cs.filterMap fun c => (s.branches[c]?).map armOf := by
  rw [arms, ho, List.filterMap_cons, hb]
  rfl

/-- Arms that are kept stay open with their markers. -/
theorem arms_congr {hi : Nat} {cs : List Nat} (hchain : Chain s hi cs) (hkeep : Keeps s s' cs) :
    (cs.filterMap fun c => (s'.branches[c]?).map armOf) =
      cs.filterMap fun c => (s.branches[c]?).map armOf := by
  apply List.filterMap_congr
  intro c hc
  obtain ⟨b, -, hb, -⟩ := hchain.mem hc
  rw [(hkeep c hc b hb).1, hb]

/-- A step goes on with the open arms as the grammar has them. -/
theorem Moves.opened (hs : Sound s ops.length) (h : Opened s.arms ops)
    (hm : Moves s ops.length i s') : Opened s'.arms (ops ++ [i]) := by
  cases hm with
  | pass hi => exact h.append (.other hi .nil)
  | opens ho =>
    have hlast : (s.openArm ops.length).branches[s.branches.length]? = some _ :=
      (lookup_append s.branches _ _ _).mpr (.inr ⟨rfl, rfl⟩)
    rw [arms_cons rfl hlast, arms_congr hs.chain (keeps_opens hs)]
    exact .first h ho .nil
  | @splits c cs b ho hb hfirst =>
    obtain ⟨_, -, -, -, -, -, hrest⟩ := hs.innermost ho hb
    have hlast : (splitAt s.branches c ops.length b)[s.branches.length]? = some _ :=
      (lookup_split hb _ _).mpr (.inr ⟨rfl, rfl⟩)
    rw [arms_cons ho hb, armOf, if_pos hfirst] at h
    rw [arms_cons rfl hlast, arms_congr hrest (keeps_splits hs ho hb)]
    exact h.split
  | @closes c cs b ho hb =>
    obtain ⟨_, -, -, -, -, -, hrest⟩ := hs.innermost ho hb
    rw [arms_cons ho hb] at h
    rw [arms, arms_congr hrest (keeps_closes hs ho hb)]
    exact h.close

/-- A scan stops at a marker that has no arm to end, and names it. -/
theorem step_eq_error {p : Nat} {c : Cause} (hs : Sound s p) (h : s.step p i = .error c) :
    Nesting.step (s.arms.map (·.1)) i = none ∧ c = .unbalanced p i.render := by
  unfold step at h
  split at h
  · cases h
  · cases h
  · cases hsplit : s.splitArm p with
    | some u => rw [hsplit] at h; cases h
    | none =>
      rw [hsplit] at h
      cases h
      refine ⟨?_, rfl⟩
      cases ho : s.opened with
      | nil => rw [arms, ho]; rfl
      | cons c cs =>
        obtain ⟨b, -, hb, -⟩ := hs.chain.mem (ho ▸ List.mem_cons_self : c ∈ s.opened)
        have hsecond : ¬ b.isTrue = true := by
          intro hfirst
          simp [splitArm, ho, hb, hfirst] at hsplit
        rw [arms_cons ho hb, armOf, if_neg hsecond]
        rfl
  · cases hclose : s.closeArm p with
    | some u => rw [hclose] at h; cases h
    | none =>
      rw [hclose] at h
      cases h
      refine ⟨?_, rfl⟩
      cases ho : s.opened with
      | nil => rw [arms, ho]; rfl
      | cons c cs =>
        obtain ⟨b, -, hb, -⟩ := hs.chain.mem (ho ▸ List.mem_cons_self : c ∈ s.opened)
        simp [closeArm, ho, hb] at hclose
  · cases h

/-- A scan gets to the end with the open arms as the grammar has them, or stops at the first marker
that is disallowed. -/
theorem run_cases (hs : Sound s ops.length) (h : Opened s.arms ops) (rest : List Instr) :
    match s.run ops.length rest with
    | .ok s' => Sound s' (ops ++ rest).length ∧ Opened s'.arms (ops ++ rest)
    | .error c => ∃ p i, (ops ++ rest)[p]? = some i ∧ c = .unbalanced p i.render ∧
        Nesting.Disallowed (ops ++ rest) p ∧ ∀ q < p, ¬ Nesting.Disallowed (ops ++ rest) q := by
  induction rest generalizing s ops with
  | nil => simpa [run] using ⟨hs, h⟩
  | cons i rest ih =>
    rw [run]
    cases hstep : s.step ops.length i with
    | error c =>
      obtain ⟨hnone, rfl⟩ := step_eq_error hs hstep
      exact ⟨ops.length, i, by simp, rfl, Nesting.disallowed_of_step h hnone rest⟩
    | ok u =>
      have hm := moves_of_step hstep
      have hlength : (ops ++ [i]).length = ops.length + 1 := by simp
      have hsound : Sound u (ops ++ [i]).length := hlength ▸ hs.step hm
      have hrest := ih hsound (hm.opened hs h)
      rw [hlength, List.append_assoc] at hrest
      exact hrest

end Branch.Scan

/-- Finding the branches of a program succeeds if it is well formed, and names the marker to blame
if it is not. -/
theorem Branch.ofInstrs_cases (ops : List Instr) :
    match ofInstrs ops with
    | .ok _ => Nesting.WellFormed ops
    | .error c => ∃ p i, ops[p]? = some i ∧ c = .unbalanced p i.render ∧ Nesting.Blamed ops p := by
  have hstart : Nesting.Opened (Scan.arms {}) [] := .nil .nil
  have hrun := Scan.run_cases Scan.sound_nil hstart ops
  rw [List.nil_append, List.length_nil] at hrun
  unfold ofInstrs
  cases hs : Scan.run {} 0 ops with
  | error c =>
    rw [hs] at hrun
    obtain ⟨p, i, hi, hc, hblame⟩ := hrun
    exact ⟨p, i, hi, hc, .inl hblame⟩
  | ok s =>
    rw [hs] at hrun
    obtain ⟨hsound, hopened⟩ := hrun
    simp only [bind, Except.bind]
    cases ho : s.opened with
    | nil =>
      rw [Scan.arms, ho] at hopened
      cases hopened with
      | nil h => exact h
    | cons c cs =>
      obtain ⟨b, -, hb, -⟩ := hsound.chain.mem (ho ▸ List.mem_cons_self : c ∈ s.opened)
      rw [Scan.arms_cons ho hb, Scan.armOf] at hopened
      have hleft := hopened.leftOpen
      obtain ⟨⟨o, -, hi⟩, -⟩ := id hleft
      refine ⟨b.marker, .op o, hi, ?_, .inr ⟨hopened.extendable.not_disallowed, hleft⟩⟩
      simp [hb, hi]

namespace Context

/-- The conditionals of a program come before all else that can be wrong with it. -/
theorem of_eq_error_iff {t : Table} {o : Options} {steps : List Step} {c : Cause}
    (hc : c.kind = .unbalancedConditional) :
    Context.of t o steps = .error c ↔ Branch.ofInstrs (Step.instrs steps) = .error c := by
  unfold Context.of
  cases Branch.ofInstrs (Step.instrs steps) with
  | error e => simp [bind, Except.bind]
  | ok branches =>
    refine ⟨fun h => ?_, fun h => by cases h⟩
    simp only [bind, Except.bind] at h
    split at h
    · cases h
      cases hc
    · split at h
      · next hbad =>
        cases h
        split at hbad
        · cases hbad
        · cases hc.symm.trans (kind_of_badComparison? hbad)
      · cases h

/-- A program has no context for its conditionals exactly if it is not well formed, and the failure
names the marker to blame. -/
theorem of_unbalanced_iff_not_wellFormed (t : Table) (o : Options) (steps : List Step) :
    ((∃ c, Context.of t o steps = .error c ∧ c.kind = .unbalancedConditional) ↔
      ¬ Nesting.WellFormed (Step.instrs steps)) ∧
    ∀ p opcode, Context.of t o steps = .error (.unbalanced p opcode) ↔
      Nesting.Blamed (Step.instrs steps) p ∧
        (Step.instrs steps)[p]?.map Instr.render = some opcode := by
  have hcases := Branch.ofInstrs_cases (Step.instrs steps)
  cases hbr : Branch.ofInstrs (Step.instrs steps) with
  | ok branches =>
    rw [hbr] at hcases
    refine ⟨⟨?_, fun hnot => absurd hcases hnot⟩, fun p opcode => ⟨fun h => ?_, fun h => ?_⟩⟩
    · rintro ⟨c, hc, hkind⟩
      cases hbr.symm.trans ((of_eq_error_iff hkind).mp hc)
    · cases hbr.symm.trans ((of_eq_error_iff rfl).mp h)
    · exact absurd hcases h.1.not_wellFormed
  | error c =>
    rw [hbr] at hcases
    obtain ⟨p, i, hi, rfl, hblamed⟩ := hcases
    have hof : Context.of t o steps = .error (.unbalanced p i.render) :=
      (of_eq_error_iff rfl).mpr hbr
    refine ⟨⟨fun _ => hblamed.not_wellFormed, fun _ => ⟨_, hof, rfl⟩⟩, fun q opcode => ?_⟩
    rw [hof]
    constructor
    · rintro ⟨⟩
      exact ⟨hblamed, by rw [hi]; rfl⟩
    · rintro ⟨hq, hrender⟩
      obtain rfl := hblamed.unique hq
      rw [hi] at hrender
      cases hrender
      rfl

end Context

end NamedStack
