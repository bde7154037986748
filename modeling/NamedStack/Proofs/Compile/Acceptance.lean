import NamedStack.Compile.Unit
import NamedStack.Proofs.Resolve.Replacements

/-!
# What the optimizer changes about compiled programs

A program is compiled with and without the optimizer. If the optimizer leaves the replacements of
references as they are, and the rules that are not safe have nothing to do, then the optimized
script accepts what the other one accepts.
-/

namespace NamedStack

open Engine
open Peephole (Lifted Optimizer Patch Preserves Simulates lossyNames unsoundNames)
open Session (InnerResult Inward Passes)

/-! ### Sessions of a program -/

namespace Session

/-- What is done before the first pass. -/
def prepare (o : Options) : SessionM Unit := do
  expandCalls o 0
  route o

/-- How inner scripts that are nested so deep are resolved. -/
def innerAt (o : Options) (opt : Optimizer) : Nat → InnerResult
  | 0 => fun _ => throw (.fault .endless)
  | n + 1 => innerWith (resolveDeep o (some opt) 0 n)

private theorem inward_innerAt (o : Options) (opt : Optimizer) (n : Nat) :
    Inward (innerAt o opt n) := by
  cases n with
  | zero => exact inward_throw _
  | succ n => exact inward_innerWith _

variable {o o' : Options}

private theorem expandWith_congr (h : currentContext o = currentContext o')
    (deeper : Nat → List Step → SessionM Nat) : expandWith deeper o = expandWith deeper o' := by
  funext i steps
  induction steps generalizing i with
  | nil => rfl
  | cons st rest ih => simp only [expandWith, h, ih]

private theorem expandDeep_congr (h : currentContext o = currentContext o') (n : Nat) :
    expandDeep o n = expandDeep o' n := by
  induction n with
  | zero => exact expandWith_congr h _
  | succ n ih =>
    rw [expandDeep, expandDeep, ih]
    exact expandWith_congr h _

/-- What is done before the first pass does not depend on the optimizer. -/
theorem prepare_peephole (o : Options) (b b' : Bool) :
    prepare { o with peephole := b } = prepare { o with peephole := b' } := by
  have hcontext : currentContext { o with peephole := b } =
      currentContext { o with peephole := b' } := rfl
  have hroute : route { o with peephole := b } = route { o with peephole := b' } := rfl
  simp only [prepare, expandCalls, expandDeep_congr hcontext, hroute]

/-- Resolving is to prepare a session and then to run passes. -/
theorem of_run_resolveDeep_some {opt : Optimizer} {n : Nat} {s s' : Session}
    (h : (resolveDeep o (some opt) 0 n).run s = .ok () s') :
    ∃ s₁, (prepare o).run s = .ok () s₁ ∧
      (resolve (pass (innerAt o opt n) o (some opt)) 0 (s₁.references + 1)).run s₁ = .ok () s' := by
  have hwith : (resolveWith (innerAt o opt n) o (some opt) 0).run s = .ok () s' := by
    cases n <;> exact h
  obtain ⟨_, s₁, hcalls, h₁⟩ := exists_of_run_bind hwith
  obtain ⟨_, s₂, hroute, h₂⟩ := exists_of_run_bind h₁
  obtain ⟨_, s₃, hget, h₃⟩ := exists_of_run_bind h₂
  cases hget
  refine ⟨s₂, ?_, h₃⟩
  rw [prepare, run_bind_ok hcalls]
  exact hroute

end Session

namespace Program

/-- The session that a program starts with. -/
def session (p : Program) : Session := { steps := Step.ofList p.ops, table := Table.ofProgram p }

/-- The optimizer that options ask for. -/
def optimizer (o : Options) : Optimizer := { enabled := o.peephole }

/-- Whether passes apply some patches while a program is compiled, where the rules of some names are
idle in all of them and at the end. -/
def Patches (p : Program) (o : Options) (names : List String) (ps : List Patch) : Prop :=
  ∃ s s', (Session.prepare o).run p.session = .ok () s ∧
    Passes (Session.innerAt o (optimizer o) (Measure.scriptDepth (Table.ofProgram p) p.ops)) o
      (optimizer o) names s ps s' ∧
    (optimizer o).Idle names s'.steps

/-- The patches that at most so many passes apply while a program is compiled. -/
def patches? (p : Program) (o : Options) (names : List String) (n : Nat) : Option (List Patch) :=
  match (Session.prepare o).run p.session with
  | .ok _ s =>
    match Session.trace (Session.innerAt o (optimizer o)
        (Measure.scriptDepth (Table.ofProgram p) p.ops)) o (optimizer o) names n s with
    | some (ps, s') => if (optimizer o).Idle names s'.steps then some ps else none
    | none => none
  | .error _ _ => none

variable {names : List String}

private theorem patches_of_patches? {p : Program} {o : Options} {n : Nat} {ps : List Patch}
    (h : p.patches? o names n = some ps) : p.Patches o names ps := by
  unfold patches? at h
  split at h
  · next s hs =>
    split at h
    · next s' htrace =>
      split at h
      · next hidle =>
        cases h
        exact ⟨s, s', hs, Session.passes_of_trace htrace, hidle⟩
      · cases h
    · cases h
  · cases h

/-- Whether the optimizer leaves what references are replaced by as it is, while the rules of some
names are idle. -/
def Undisturbed (p : Program) (o : Options) (names : List String) : Prop :=
  ∃ ps, p.Patches { o with peephole := true } names ps ∧
    p.Patches { o with peephole := false } names ps

/-- What is compiled is what the last pass leaves, optimized once more. -/
theorem of_compile {name : Name} {p : Program} {o : Options} (hinline : o.inlineNames = true)
    {out : Output} (h : (p.compile name o).outcome = .ok out) :
    ∃ s script, (Session.resolveDeep o (some (optimizer o)) 0
        (Measure.scriptDepth (Table.ofProgram p) p.ops)).run p.session = .ok () s ∧
      Script.serialize (Step.instrs ((optimizer o).run s.steps)) = .ok script ∧
      out.script = some script := by
  have hproduce : (p.compileResolved name o).1 = .ok out := by
    rw [compile, produce, if_pos hinline] at h
    split at h
    · next hres =>
      cases h
      rw [hres]
    · cases h
    · cases h
  have hresolve : NamedStack.resolve (Table.ofProgram p) o (some (optimizer o)) p.ops =
      match (Session.resolveDeep o (some (optimizer o)) 0
          (Measure.scriptDepth (Table.ofProgram p) p.ops)).run p.session with
        | .ok _ s => { session := s, failure := none }
        | .error f s => { session := s, failure := some f } := rfl
  cases hrun : (Session.resolveDeep o (some (optimizer o)) 0
      (Measure.scriptDepth (Table.ofProgram p) p.ops)).run p.session with
  | error f s =>
    rw [hrun] at hresolve
    rw [compileResolved, show NamedStack.resolve _ o (some { enabled := o.peephole }) _ = _ from
      hresolve] at hproduce
    cases hproduce
  | ok _ s =>
    rw [hrun] at hresolve
    rw [compileResolved, show NamedStack.resolve _ o (some { enabled := o.peephole }) _ = _ from
      hresolve] at hproduce
    dsimp only at hproduce
    split at hproduce
    · next script hscript =>
      cases hproduce
      exact ⟨s, script, rfl, hscript, rfl⟩
    · cases hproduce

variable {name : Name} {p : Program} {o : Options}

/-- Two ways to compile a program lead to related programs if they apply the same patches. -/
theorem Undisturbed.rel {R : List Instr → List Instr → Prop} (h : p.Undisturbed o names)
    (hR : Peephole.Chains R) (hidle : ∀ (opt : Optimizer) steps, opt.Idle names steps →
      Lifted R (Step.instrs steps) (Step.instrs (opt.run steps))) {on off : Session}
    (hon : (Session.resolveDeep { o with peephole := true } (some { enabled := true }) 0
      (Measure.scriptDepth (Table.ofProgram p) p.ops)).run p.session = .ok () on)
    (hoff : (Session.resolveDeep { o with peephole := false } (some { enabled := false }) 0
      (Measure.scriptDepth (Table.ofProgram p) p.ops)).run p.session = .ok () off) :
    R (Step.instrs off.steps) (Step.instrs (Optimizer.run { enabled := true } on.steps)) := by
  obtain ⟨ps, ⟨s, s', hs, hpasses, hlast⟩, t, t', ht, hpasses', -⟩ := h
  rw [Session.prepare_peephole o true false] at hs
  rw [ht] at hs
  cases hs
  obtain ⟨s₁, hs₁, hrun⟩ := Session.of_run_resolveDeep_some hon
  obtain ⟨t₁, ht₁, hrun'⟩ := Session.of_run_resolveDeep_some hoff
  rw [Session.prepare_peephole o true false, ht] at hs₁
  rw [ht] at ht₁
  cases hs₁
  cases ht₁
  obtain rfl := hpasses.eq_of_run_resolve hrun
  obtain rfl := hpasses'.eq_of_run_resolve hrun'
  have hchains := Lifted.chains hR
  have hlifted := hpasses.lifted hR (hidle _) (Session.inward_innerAt _ _ _)
    (Session.inward_innerAt _ _ _) rfl hpasses' (hchains.refl _)
  exact (hchains.trans hlifted (hidle _ _ hlast)).closed

/-- Compile a program with and without the optimizer. Where the optimizer changes no replacement of
a reference and the lossy rules are idle, the optimized script accepts what the other one accepts;
where all unsound rules are idle, it accepts exactly that among the spends for which the other
script runs to its end. -/
theorem compile_accepts_optimized (hinline : o.inlineNames = true) {on off : Output}
    (hon : (p.compile name { o with peephole := true }).outcome = .ok on)
    (hoff : (p.compile name { o with peephole := false }).outcome = .ok off) :
    ∃ script script', on.script = some script ∧ off.script = some script' ∧
      (p.Undisturbed o lossyNames → ∀ valid sig,
        spend valid script' sig = .ok () → spend valid script sig = .ok ()) ∧
      (p.Undisturbed o unsoundNames → ∀ valid sig m, leaves valid script' sig = .ok m →
        (spend valid script sig = .ok () ↔ spend valid script' sig = .ok ())) := by
  obtain ⟨s, script, hrun, hscript, hs⟩ := of_compile (by exact hinline) hon
  obtain ⟨t, script', hrun', hscript', hs'⟩ := of_compile (by exact hinline) hoff
  refine ⟨script, script', hs, hs', fun h valid sig hspend => ?_, fun h valid sig m hleaves => ?_⟩
  · have hpreserves := h.rel Preserves.chains (fun _ _ => Optimizer.Idle.preserves) hrun hrun'
    exact hpreserves.spends hscript' hscript hspend
  · have hsimulates := h.rel Simulates.congruent.toChains (fun _ _ => Optimizer.Idle.simulates)
      hrun hrun'
    exact hsimulates.spends_iff hscript' hscript hleaves

/-- Adds one to the lower of two items. -/
def increment : Program where
  stack := [[97], [98]]
  ops := [.assume [97], .op .one, .op (.binary .add)]

/-- Verifies the upper of two items and leaves the lower one. -/
def verifiesUpper : Program where
  stack := [[97], [98]]
  ops := [.assume [98], .op .verify]

/-- The script that a program compiles to. -/
def script? (p : Program) (o : Options) : Option Bytes :=
  match (p.compile [] o).outcome with
  | .ok out => out.script
  | .error _ => none

private theorem exists_of_script? {script : Bytes} (h : p.script? o = some script) :
    ∃ out, (p.compile [] o).outcome = .ok out ∧ out.script = some script := by
  unfold script? at h
  split at h
  · next out hout => exact ⟨out, hout, h⟩
  · cases h

private theorem increment_script :
    increment.script? {} = some [0x7c, 0x8b] ∧
      increment.script? { peephole := false } = some [0x51, 0x7a, 0x51, 0x93] := by
  constructor <;> decide +kernel

private theorem increment_undisturbed : increment.Undisturbed {} unsoundNames := by
  refine ⟨[⟨0, 1, [.op .one, .op .roll]⟩], patches_of_patches? (n := 2) ?_,
    patches_of_patches? (n := 2) ?_⟩
  · decide +kernel
  · decide +kernel

private theorem verifiesUpper_script :
    verifiesUpper.script? {} = some [] ∧
      verifiesUpper.script? { peephole := false } = some [0x69] := by
  constructor <;> decide +kernel

private theorem verifiesUpper_undisturbed : verifiesUpper.Undisturbed {} lossyNames := by
  refine ⟨[⟨0, 1, []⟩], patches_of_patches? (n := 2) ?_, patches_of_patches? (n := 2) ?_⟩
  · decide +kernel
  · decide +kernel

/-- A program that the optimizer makes shorter. -/
theorem compile_accepts_optimized_increment :
    increment.script? {} = some [0x7c, 0x8b] ∧
      increment.script? { peephole := false } = some [0x51, 0x7a, 0x51, 0x93] ∧
      increment.Undisturbed {} unsoundNames ∧
      leaves .none [0x51, 0x7a, 0x51, 0x93] [0x51, 0x55] = .ok [[2], [5]] ∧
      spend .none [0x7c, 0x8b] [0x51, 0x55] = .ok () ∧
      verifiesUpper.script? {} = some [] ∧
      verifiesUpper.script? { peephole := false } = some [0x69] ∧
      verifiesUpper.Undisturbed {} lossyNames ∧ spend .none [] [0x51, 0x55] = .ok () := by
  obtain ⟨hinc, hinc'⟩ := increment_script
  obtain ⟨hverify, hverify'⟩ := verifiesUpper_script
  have hleaves : leaves .none [0x51, 0x7a, 0x51, 0x93] [0x51, 0x55] = .ok [[2], [5]] := by
    decide +kernel
  refine ⟨hinc, hinc', increment_undisturbed, hleaves, ?_, hverify, hverify',
    verifiesUpper_undisturbed, ?_⟩
  · obtain ⟨on, hon, hscript⟩ := exists_of_script? hinc
    obtain ⟨off, hoff, hscript'⟩ := exists_of_script? hinc'
    obtain ⟨script, script', hs, hs', -, hiff⟩ := compile_accepts_optimized (o := {}) rfl hon hoff
    cases hscript.symm.trans hs
    cases hscript'.symm.trans hs'
    refine (hiff increment_undisturbed .none _ _ hleaves).mpr ?_
    rw [spend_eq, hleaves]
    rfl
  · obtain ⟨on, hon, hscript⟩ := exists_of_script? hverify
    obtain ⟨off, hoff, hscript'⟩ := exists_of_script? hverify'
    obtain ⟨script, script', hs, hs', haccepts, -⟩ :=
      compile_accepts_optimized (o := {}) rfl hon hoff
    cases hscript.symm.trans hs
    cases hscript'.symm.trans hs'
    exact haccepts verifiesUpper_undisturbed .none _ (by decide +kernel)

/-! ### Where the optimizer makes a difference -/

/-- What becomes of a spend of the script that a program compiles to. -/
def spent? (p : Program) (o : Options) (sig : Bytes) : Option (Except ExecError Unit) :=
  (p.script? o).map fun script => execute script sig

/-- Verifies more than there is. -/
def verifiesTwice : Program where
  ops := [.op .one, .op .verify, .op .verify]

/-- Rolls an item of an empty stack to its place. -/
def rollsNothing : Program where
  ops := [.op .zero, .op .roll, .op .one]

/-- Returns in an arm that is not taken. -/
def returnsInArm : Program where
  ops := [.op .zero, .op .opIf, .op .opReturn, .op .opEndIf, .op .one]

/-- Adds zero to an item and looks at its bytes. -/
def addsZero : Program where
  stack := [[97]]
  ops := [.assume [97], .op .zero, .op (.binary .add), .op .one, .op .equal]

/-- Duplicates a literal that is followed by a roll without effect, and reads an item. -/
def duplicatesRolled : Program where
  stack := [[97], [98]]
  ops := [.op .two, .op .zero, .op .roll, .op .ifDup, .assume [97]]

/-- The optimizer changes what scripts accept, in both directions. -/
theorem optimized_accepts_differently :
    (verifiesTwice.spent? {} [] = some (.ok ()) ∧
      verifiesTwice.spent? { peephole := false } [] = some (.error .opcodeFailed)) ∧
    (rollsNothing.spent? {} [] = some (.ok ()) ∧
      rollsNothing.spent? { peephole := false } [] = some (.error .opcodeFailed)) ∧
    (returnsInArm.spent? {} [] = some (.error .opcodeFailed) ∧
      returnsInArm.spent? { peephole := false } [] = some (.ok ())) ∧
    (addsZero.spent? {} [2, 1, 0] = some (.error .falseResult) ∧
      addsZero.spent? { peephole := false } [2, 1, 0] = some (.ok ())) ∧
    (duplicatesRolled.spent? {} [0, 0x52] = some (.error .falseResult) ∧
      duplicatesRolled.spent? { peephole := false } [0, 0x52] = some (.ok ())) := by
  refine ⟨⟨?_, ?_⟩, ⟨?_, ?_⟩, ⟨?_, ?_⟩, ⟨?_, ?_⟩, ?_, ?_⟩
  all_goals decide +kernel

end Program

end NamedStack
