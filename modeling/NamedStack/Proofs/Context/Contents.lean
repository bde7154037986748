import Mathlib
import NamedStack.Context.Basic

/-!
# What a context consists of

A context has the branches of its program, the places of names in it and its initial stack. Its
steps are those of the program with what literals tell of their effects. Only the effects of `IFDUP`
and of multisignature checks are told in that way; all other steps add as many items as a table
says.
-/

namespace NamedStack

/-! ### Places of names -/

variable {i : Nat} {name : Name}

/-- A name occurs where an instruction has it. -/
theorem mem_occurrences {steps : List Step} {f : Instr → Option Name} :
    (i, name) ∈ Context.occurrences steps f ↔ ∃ s, steps[i]? = some s ∧ f s.instr = some name := by
  simp only [Context.occurrences, List.mem_filterMap, Option.map_eq_some_iff, Prod.mk.injEq]
  constructor
  · rintro ⟨⟨s, j⟩, hs, x, hx, rfl, rfl⟩
    exact ⟨s, List.mem_zipIdx_iff_getElem?.mp hs, hx⟩
  · rintro ⟨s, hs, hf⟩
    exact ⟨(s, i), List.mem_zipIdx_iff_getElem?.mpr hs, name, hf, rfl, rfl⟩

/-- The positions at which a name occurs. -/
theorem mem_occurrencesOf {o : Occurrences} : i ∈ o.of name ↔ (i, name) ∈ o := by
  simp only [Occurrences.of, List.mem_filterMap]
  constructor
  · rintro ⟨⟨j, x⟩, hp, h⟩
    split at h
    · next hx =>
      cases h
      cases hx
      exact hp
    · cases h
  · intro h
    exact ⟨(i, name), h, if_pos rfl⟩

/-- None occurs later if all stand no later. -/
theorem countAfter_eq_zero_iff {o : Occurrences} :
    o.countAfter name i = 0 ↔ ∀ j, (j, name) ∈ o → j ≤ i := by
  rw [Occurrences.countAfter, List.length_eq_zero_iff, List.filter_eq_nil_iff]
  simp only [mem_occurrencesOf, decide_eq_true_eq, Nat.not_lt]

/-- Only a write assigns. -/
theorem Context.assigned?_iff {i : Instr} : assigned? i = some name ↔ i = .assign name := by
  cases i <;> simp [assigned?]

namespace Context

variable {t : Table} {reads : Occurrences}

/-- The names that can be reported are those that the initial stack does not have, each at its first
place. -/
theorem exists_undeclared?_iff {p : Nat × Name} :
    (∃ r, undeclared? t reads r = some p) ↔
      p ∈ reads ∧ t.place? p.2 = none ∧ (reads.of p.2).head? = some p.1 := by
  have hmem : p ∈ undeclared t reads ↔
      p ∈ reads ∧ t.place? p.2 = none ∧ (reads.of p.2).head? = some p.1 := by
    simp [undeclared]
  rw [← hmem]
  constructor
  · rintro ⟨r, hr⟩
    exact List.mem_of_getElem? hr
  · intro hp
    obtain ⟨r, hr⟩ := List.getElem?_of_mem hp
    have hlt := (List.getElem?_eq_some_iff.mp hr).1
    exact ⟨r, by rw [undeclared?, Nat.mod_eq_of_lt hlt, hr]⟩

/-- A name is reported, whichever it is, if the initial stack does not have all names that are
read. -/
theorem undeclared?_eq_none_iff {r : Nat} :
    undeclared? t reads r = none ↔ ∀ p ∈ reads, t.place? p.2 ≠ none := by
  rw [undeclared?, List.getElem?_eq_none_iff]
  constructor
  · intro hle p hp hnone
    have hzero : undeclared t reads = [] := by
      by_contra hne
      have hpos := List.length_pos_iff.mpr hne
      have hlt := Nat.mod_lt r hpos
      omega
    -- the first place of the name is one to report
    cases hfirst : (reads.of p.2).head? with
    | none =>
      have hmem : p.1 ∈ reads.of p.2 := mem_occurrencesOf.mpr hp
      rw [List.head?_eq_none_iff.mp hfirst] at hmem
      cases hmem
    | some i =>
      have hi : (i, p.2) ∈ reads := mem_occurrencesOf.mp (List.mem_of_head? hfirst)
      obtain ⟨q, hq⟩ := exists_undeclared?_iff.mpr ⟨hi, hnone, hfirst⟩
      have hmem := List.mem_of_getElem? hq
      rw [hzero] at hmem
      cases hmem
  · intro h
    have hnil : undeclared t reads = [] := List.filter_eq_nil_iff.mpr fun p hp => by
      simp [Option.isNone_iff_eq_none, h p hp]
    rw [hnil]
    exact Nat.zero_le _

end Context

/-! ### Steps with what literals tell -/

/-- Whether the number of items that an instruction adds does not depend on literals. -/
def Steady : Instr → Prop
  | .op .ifDup | .op .checkMultiSig | .op .checkMultiSigVerify => False
  | _ => True

/-- The opcodes that are not steady. -/
theorem steady_iff (i : Instr) : Steady i ↔
    i ≠ .op .ifDup ∧ i ≠ .op .checkMultiSig ∧ i ≠ .op .checkMultiSigVerify := by
  unfold Steady
  split <;> simp_all

instance : DecidablePred Steady := fun i => decidable_of_iff _ (steady_iff i).symm

/-- Whether what a step says of its effect is what its instruction says, or what literals can tell:
they tell which items `PICK` and `ROLL` read, and how many items multisignature checks take. -/
structure Step.Genuine (s : Step) : Prop where
  delta : Steady s.instr → s.delta = s.instr.delta
  args : s.instr ≠ .op .pick → s.instr ≠ .op .roll → s.instr ≠ .op .checkMultiSig →
    s.instr ≠ .op .checkMultiSigVerify → s.args = (Step.of s.instr).args
  results : s.instr = .op .checkMultiSig ∨ s.instr = .op .checkMultiSigVerify →
    0 ≤ s.args.length + s.delta

/-- A step made from an instruction alone is genuine. -/
theorem Step.genuine_of (i : Instr) : (Step.of i).Genuine where
  delta _ := rfl
  args _ _ _ _ := rfl
  results := by
    rintro (h | h)
    all_goals
      cases h
      decide

/-- The steps of a program are genuine. -/
theorem Step.genuine_ofList (ops : List Instr) : ∀ s ∈ Step.ofList ops, s.Genuine := by
  intro s hs
  obtain ⟨i, -, rfl⟩ := List.mem_map.mp hs
  exact genuine_of i

/-- Markers that end an arm add nothing. -/
def EndsFree (steps : List Step) : Prop :=
  ∀ s ∈ steps, s.instr = .op .opElse ∨ s.instr = .op .opEndIf → s.delta = 0

/-- Markers among genuine steps add nothing. -/
theorem endsFree_of_genuine {steps : List Step} (h : ∀ s ∈ steps, s.Genuine) : EndsFree steps := by
  intro s hs hinstr
  have hdelta := (h s hs).delta
  rcases hinstr with hinstr | hinstr
  · rw [hinstr] at hdelta
    exact hdelta trivial
  · rw [hinstr] at hdelta
    exact hdelta trivial

namespace Context

variable {steps : List Step} {s : Step}

private theorem multisig_cases (steps : List Step) (i : Nat) (s : Step) (results : Int) :
    refine.multisig steps i s results = s ∨
      ∃ m n, refine.multisig steps i s results =
        { s with
          delta := results - (n : Nat)
          args := (List.range n).map fun k : Nat => (k : Int) + 1
          multisig := m } := by
  unfold refine.multisig
  cases multisigAt? steps i with
  | none => exact .inl rfl
  | some m => exact .inr ⟨some m, 3 + m.keys + m.sigs, rfl⟩

/-- What literals can tell of a step. -/
theorem refine_cases (steps : List Step) (i : Nat) (s : Step) :
    refine steps i s = s ∨
      ((s.instr = .op .pick ∨ s.instr = .op .roll) ∧ ∃ args, refine steps i s = { s with args }) ∨
      (s.instr = .op .ifDup ∧ ∃ delta, refine steps i s = { s with delta }) ∨
      ((s.instr = .op .checkMultiSig ∨ s.instr = .op .checkMultiSigVerify) ∧
        ∃ (results : Nat) (m : Option Multisig) (n : Nat), refine steps i s =
          { s with
            delta := results - n
            args := (List.range n).map fun k : Nat => (k : Int) + 1
            multisig := m }) := by
  unfold refine
  split
  · next hi =>
    cases Step.intAt? steps (i - 1) with
    | none => exact .inl rfl
    | some n => exact .inr (.inl ⟨.inl hi, _, rfl⟩)
  · next hi =>
    cases Step.intAt? steps (i - 1) with
    | none => exact .inl rfl
    | some n => exact .inr (.inl ⟨.inr hi, _, rfl⟩)
  · next hi =>
    cases Step.intAt? steps (i - 1) with
    | none => exact .inl rfl
    | some n => exact .inr (.inr (.inl ⟨hi, _, rfl⟩))
  · next hi =>
    rcases multisig_cases steps i s 1 with heq | ⟨m, n, heq⟩
    · exact .inl heq
    · exact .inr (.inr (.inr ⟨.inl hi, 1, m, n, heq⟩))
  · next hi =>
    rcases multisig_cases steps i s 0 with heq | ⟨m, n, heq⟩
    · exact .inl heq
    · exact .inr (.inr (.inr ⟨.inr hi, 0, m, n, heq⟩))
  · exact .inl rfl

/-- Literals do not change instructions. -/
theorem instr_refine (steps : List Step) (i : Nat) (s : Step) :
    (refine steps i s).instr = s.instr := by
  rcases refine_cases steps i s with h | ⟨-, _, h⟩ | ⟨-, _, h⟩ | ⟨-, _, _, _, h⟩
  all_goals rw [h]

/-- What literals tell of a step is genuine. -/
theorem genuine_refine (h : s.Genuine) (steps : List Step) (i : Nat) :
    (refine steps i s).Genuine := by
  rcases refine_cases steps i s with
    heq | ⟨hi, args, heq⟩ | ⟨hi, delta, heq⟩ | ⟨hi, results, m, n, heq⟩
  · rw [heq]
    exact h
  · rw [heq]
    refine ⟨h.delta, ?_, ?_⟩
    · intro hpick hroll
      exact (hi.elim hpick hroll).elim
    · intro hsig
      rcases hi with hi | hi <;> rw [hi] at hsig <;> simp at hsig
  · rw [heq]
    refine ⟨?_, h.args, ?_⟩
    · intro hsteady
      rw [hi] at hsteady
      exact hsteady.elim
    · intro hsig
      rw [hi] at hsig
      simp at hsig
  · rw [heq]
    refine ⟨?_, ?_, ?_⟩
    · intro hsteady
      rcases hi with hi | hi <;> rw [hi] at hsteady <;> exact hsteady.elim
    · intro _ _ hsig hverify
      exact (hi.elim hsig hverify).elim
    · intro _
      simp only [List.length_map, List.length_range]
      omega

variable {i : Nat} {ctx : Context} {o : Options} {t : Table}

/-- A literal in front of `IFDUP` tells whether it adds an item. -/
theorem delta_refine_ifDup {n : Int} (hs : s.instr = .op .ifDup)
    (hn : Step.intAt? steps (i - 1) = some n) :
    (refine steps i s).delta = if n = 0 then 0 else 1 := by
  simp only [refine, hs, hn]

/-- The steps of a context at a position. -/
theorem getElem?_refined (steps : List Step) (i : Nat) :
    (steps.zipIdx.map fun p => refine steps p.2 p.1)[i]? = (steps[i]?).map (refine steps i) := by
  rw [List.getElem?_map, List.getElem?_zipIdx, Nat.zero_add]
  cases steps[i]? <;> rfl

/-- Refining steps keeps their instructions. -/
theorem instrs_refined (steps : List Step) :
    Step.instrs (steps.zipIdx.map fun p => refine steps p.2 p.1) = Step.instrs steps := by
  apply List.ext_getElem?
  intro i
  rw [Step.instrs, List.getElem?_map, getElem?_refined, Step.instrs, List.getElem?_map]
  cases steps[i]? with
  | none => rfl
  | some s => exact congrArg some (instr_refine steps i s)

/-- The cause of a bad comparison says so. -/
theorem kind_of_badComparison? {ops : List Instr} {c : Cause} (h : badComparison? i ops = some c) :
    c.kind = .invalidComparison := by
  fun_induction badComparison? i ops with
  | case2 =>
    cases h
    rfl
  | case5 => cases h
  | case1 _ _ _ _ _ _ _ _ _ ih | case3 _ _ _ _ _ _ ih | case4 _ _ _ _ ih => exact ih h

variable (h : Context.of t o steps = .ok ctx)

include h

/-- What a program has that has a context. -/
theorem of_cases :
    ∃ branches, Branch.ofInstrs (Step.instrs steps) = .ok branches ∧ ctx =
      { steps := steps.zipIdx.map fun p => refine steps p.2 p.1
        branches
        assumptions := occurrences steps (assumed? t)
        assignments := occurrences steps assigned?
        reads := occurrences steps (variableRead? t)
        stack := t.stack } := by
  cases hbr : Branch.ofInstrs (Step.instrs steps) with
  | error e =>
    rw [Context.of, hbr] at h
    cases h
  | ok branches =>
    refine ⟨branches, rfl, ?_⟩
    rw [Context.of, hbr] at h
    simp only [bind, Except.bind] at h
    split at h
    · cases h
    · split at h
      · cases h
      · cases h
        rfl

/-- A program without reads has a context if one with the same instructions has one. -/
theorem exists_of_instrs {t' : Table} {steps' : List Step}
    (hinstrs : Step.instrs steps' = Step.instrs steps)
    (hreads : ∀ s ∈ steps', ∀ name, s.instr ≠ .assume name ∧ s.instr ≠ .var name) :
    ∃ ctx', Context.of t' o steps' = .ok ctx' := by
  have hnone : occurrences steps' (assumed? t') = [] := by
    apply List.filterMap_eq_nil_iff.mpr
    intro p hp
    have hread := hreads p.1 (List.fst_mem_of_mem_zipIdx hp)
    cases hi : p.1.instr with
    | assume name => exact absurd hi (hread name).1
    | var name => exact absurd hi (hread name).2
    | _ => rfl
  cases hbr : Branch.ofInstrs (Step.instrs steps) with
  | error e =>
    rw [Context.of, hbr] at h
    cases h
  | ok branches =>
    rw [Context.of, hbr] at h
    simp only [bind, Except.bind] at h
    rw [Context.of, hinstrs, hbr]
    simp only [bind, Except.bind, hnone]
    split at h
    · cases h
    · split at h
      · cases h
      · exact ⟨_, rfl⟩

/-- The branches of a context are those of its own steps. -/
theorem branches_of : Branch.ofInstrs (Step.instrs ctx.steps) = .ok ctx.branches := by
  obtain ⟨branches, hbr, rfl⟩ := of_cases h
  rw [instrs_refined]
  exact hbr

/-- The steps of a context are genuine if those of the program are. -/
theorem genuine_steps (hsteps : ∀ s ∈ steps, s.Genuine) : ∀ s ∈ ctx.steps, s.Genuine := by
  obtain ⟨branches, -, rfl⟩ := of_cases h
  intro s hs
  obtain ⟨i, hi⟩ := List.getElem?_of_mem hs
  rw [getElem?_refined, Option.map_eq_some_iff] at hi
  obtain ⟨s', hs', rfl⟩ := hi
  exact genuine_refine (hsteps s' (List.mem_of_getElem? hs')) steps i

/-- The places of writes are those of the steps that write. -/
theorem mem_assignments_iff :
    (i, name) ∈ ctx.assignments ↔ ∃ s, ctx.steps[i]? = some s ∧ s.instr = .assign name := by
  obtain ⟨branches, -, rfl⟩ := of_cases h
  rw [mem_occurrences]
  simp only [assigned?_iff, getElem?_refined]
  constructor
  · rintro ⟨s, hs, hinstr⟩
    exact ⟨_, by rw [hs, Option.map_some], (instr_refine steps i s).trans hinstr⟩
  · rintro ⟨s, hs, hinstr⟩
    obtain ⟨s', hs', rfl⟩ := Option.map_eq_some_iff.mp hs
    exact ⟨s', hs', (instr_refine steps i s').symm.trans hinstr⟩

/-- The places of reads are places of steps. -/
theorem lt_of_mem_reads (hi : (i, name) ∈ ctx.reads) : i < ctx.steps.length := by
  obtain ⟨branches, -, rfl⟩ := of_cases h
  obtain ⟨s, hs, -⟩ := mem_occurrences.mp hi
  rw [List.length_map, List.length_zipIdx]
  exact (List.getElem?_eq_some_iff.mp hs).1

end Context

end NamedStack
