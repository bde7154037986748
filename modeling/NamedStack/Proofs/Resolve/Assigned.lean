import NamedStack.Proofs.Resolve.Trails

/-!
# Reads of names that are written

A read of a name is replaced only if the name has a slot or the machine has an item of it. Hence a
read that finds an item which does not come from one arm of a conditional alone is written on every
path that comes to it. A name with a slot can be read on every path, as slots are filled at the
start.
-/

namespace NamedStack.Session

open Definite

variable {inner : InnerResult} {o : Options} {opt : Option Peephole.Optimizer}
variable {s s' last : Session} {ctx : Context} {k : Nat} {r : Replacement} {x : Name}

/-! ### What a read finds -/

/-- A read of a name without a slot, which is none of the initial stack, finds an item of it. -/
theorem exists_locate?_of_run_readName (hstack : s.table.Unstacked x)
    (hfree : s.table.ParameterFree) (hslots : x ∉ s.slots)
    (h : (readName ctx k x).run s = .ok r s') :
    ∃ m pos, (Machine.start ctx.stack).run (ctx.steps.take k) = .ok m ∧ m.locate? x = some pos := by
  obtain ⟨_, s₁, hget, h₁⟩ := exists_of_run_bind h
  cases hget
  cases hlookup : s.table.lookup? x with
  | none =>
    rw [hlookup] at h₁
    cases h₁
  | some sym =>
    rw [hlookup] at h₁
    dsimp only at h₁
    split at h₁
    · next hitem => exact absurd hitem (hstack.notItem sym hlookup)
    · cases hm : (Machine.start ctx.stack).run (ctx.steps.take k) with
      | error e =>
        rw [readVariable, machineAt, hm] at h₁
        cases h₁
      | ok m =>
        rw [readVariable, run_bind_ok (run_machineAt hm),
          run_bind_ok (run_fromSlot_of_notMem hslots m _)] at h₁
        dsimp only at h₁
        split at h₁
        · next pos hpos => exact ⟨m, pos, rfl, hpos⟩
        · cases h₁
    · next hargument _ => exact absurd hargument (hfree hlookup)
    · cases h₁
    · cases h₁

private theorem Edits.exists_locate? (h : Edits inner o opt s ctx k r s') (hinner : Inward inner)
    (hs : s.Expanded) (hstack : s.table.Unstacked x) (hslots : x ∉ s.slots)
    (hread : (Step.instrs ctx.steps)[k]? = some (.var x)) :
    ∃ m pos, (Machine.start ctx.stack).run (ctx.steps.take k) = .ok m ∧ m.locate? x = some pos := by
  obtain ⟨st, s₁, s₂, hst, hvisit, htable, hsub, -⟩ := h.exists_visit hinner
  have hinstr : st.instr = .var x := by
    rw [Step.instrs, List.getElem?_map, hst] at hread
    exact Option.some.inj hread
  unfold visit at hvisit
  rw [hinstr] at hvisit
  obtain ⟨r', s₃, hreadName, h₁⟩ := exists_of_run_bind hvisit
  refine exists_locate?_of_run_readName ?_ ?_ (fun hx => hslots (hsub hx)) hreadName
  · exact htable ▸ (hstack.bindAssigned _).recordAssigned _
  · exact htable ▸ (hs.free.bindAssigned _).recordAssigned _

/-- Whether the reads of a name that are left in a session are known to be written only if they are
in the analysed program. -/
structure Following (x : Name) (flags : List Bool) (s : Session) : Prop extends s.Expanded where
  stack : s.table.Unstacked x
  trails : Trails (known x s.steps) flags

variable {names : List Name} {flags : List Bool}

private theorem Following.of_edits (hs : Following x flags s) (hinner : Inward inner)
    (h : Edits inner o opt s ctx k r s') : Following x flags s' := by
  obtain ⟨-, -, htable, -⟩ := h.spec hinner hs.toExpanded
  exact ⟨hs.toExpanded.of_edits hinner h, htable ▸ (hs.stack.bindAssigned _).recordAssigned _,
    (h.trails hinner hs.toExpanded x).trans hs.trails⟩

private theorem Following.of_reaches (hs : Following x flags s) (hinner : Inward inner)
    (h : Reaches inner o opt s s') : Following x flags s' := by
  induction h with
  | refl => exact hs
  | tail _ hpass ih =>
    obtain ⟨ctx, k, r, hedits⟩ := hpass
    exact ih.of_edits hinner hedits

private theorem lt_length_of_instrs {steps : List Step} {i : Nat} {instr : Instr}
    (h : (Step.instrs steps)[i]? = some instr) : i < steps.length := by
  obtain ⟨hlt, -⟩ := List.getElem?_eq_some_iff.mp h
  rwa [Step.instrs, List.length_map] at hlt

/-- A name that is found where it is read is known to be written there. -/
theorem Following.known_of_edits (hs : Following x flags s) (hinner : Inward inner)
    (h : Edits inner o opt s ctx k r s') (hread : (Step.instrs ctx.steps)[k]? = some (.var x))
    (hx : x ≠ []) (hslots : x ∉ s.slots) (hjoins : Machine.JoinsBefore ctx.stack ctx.steps x k) :
    flags.reverse[((Step.instrs ctx.steps).drop (k + 1)).count (.var x)]? = some true := by
  obtain ⟨m, pos, hm, hpos⟩ := h.exists_locate? hinner hs.toExpanded hs.stack hslots hread
  have hk := (lt_length_of_instrs hread).le
  have hnow : (({} : Definite).run x ((Step.instrs ctx.steps).take k)).now = true := by
    obtain ⟨s₁, hctx⟩ := h.sees
    obtain ⟨hof, -⟩ := of_run_currentContext hctx
    obtain ⟨branches, hbr, rfl⟩ := Context.of_cases hof
    refine (Machine.backed_run hx (hs.stack.bindAssigned _).notMem ?_ hk hjoins hm).now_of_locate?
      hpos
    rw [Context.instrs_refined]
    exact (Nesting.balanced_iff _).mp ⟨branches, hbr⟩
  apply hs.trails
  rw [← known_of_sees h.sees, known, reverse_reads _ hread, hnow]

/-- Whether two positions are of the same read of a name, counted from the last one. -/
structure SameRead (x : Name) (a : List Step) (i : Nat) (b : List Step) (j : Nat) : Prop where
  left : (Step.instrs a)[i]? = some (.var x)
  right : (Step.instrs b)[j]? = some (.var x)
  behind : ((Step.instrs a).drop (i + 1)).count (.var x) =
    ((Step.instrs b).drop (j + 1)).count (.var x)

private theorem keptByExpansion_unstacked (o : Options) (x : Name) :
    KeptByExpansion o fun s => s.table.Unstacked x where
  context := by
    intro s s' ctx hs h
    obtain ⟨-, -, htable, -⟩ := of_run_currentContext h
    exact htable ▸ (hs.bindAssigned _).recordAssigned _
  expand := by
    intro s s' front back name args ops hs _ h
    cases h
    exact hs

/-- Calls are expanded and slots are filled before the first pass. -/
theorem Sound.following_of_route (hs : s.Sound) (hstack : s.table.Unstacked x)
    (hcalls : (expandCalls o 0).run s = .ok () s') {s₀ : Session}
    (hroute : (route o).run s' = .ok () s₀) :
    ∃ ctx r s₁, (analyse o 0).run s = .ok (ctx, r) s₁ ∧ known x s₀.steps = known x ctx.steps ∧
      Following x (known x ctx.steps) s₀ := by
  obtain ⟨ctx, r, s₁, setup, hanalyse, -, hcode, -, hsteps⟩ := hs.of_route hcalls hroute
  have hknown : known x s₀.steps = known x ctx.steps := by
    obtain ⟨hnone, hrun⟩ := reads_of_quiet {} fun i hi => quiet_of_straight (hcode.straight i hi) x
    rw [known, hsteps, reads_append, hnone, hrun]
    rfl
  refine ⟨ctx, r, s₁, hanalyse, hknown, hs.expanded_of_route hcalls hroute, ?_, ?_⟩
  · obtain ⟨hstack', -⟩ := of_run_expandCalls (keptByExpansion_unstacked o x) hstack hcalls
    obtain ⟨_, s₂, _, slots, setup, hctx, -, -, rfl⟩ := of_run_route hroute
    obtain ⟨-, -, htable, -⟩ := of_run_currentContext hctx
    exact htable ▸ (hstack'.bindAssigned _).recordAssigned _
  · rw [hknown]
    exact fun _ hj => hj

/-- Whether a session is one from which a program or an inner script is resolved, with the names of
its initial stack. -/
inductive Starts : Session → List Name → Prop
  | program (p : Program) : Starts { steps := Step.ofList p.ops, table := .ofProgram p } p.stack
  | inner (t : Table) (ops : List Instr) (tally : Tally) :
      Starts { steps := Step.ofList ops, table := (t.enter .innerScript).declareStack [], tally } []

private theorem Starts.sound (h : Starts s names) : s.Sound := by
  cases h with
  | program p => exact ⟨Step.genuine_ofList _, Table.parameterFree_ofProgram p⟩
  | inner t ops tally => exact ⟨Step.genuine_ofList ops, t.parameterFree_inner⟩

private theorem Starts.unstacked (h : Starts s names) (hx : x ∉ names) : s.table.Unstacked x := by
  cases h with
  | program p => exact Table.unstacked_ofProgram hx
  | inner t ops tally => exact .enterInner t x

/-- Every read of a name, none of the initial stack, in an analysed program that is resolved is
replaced by some pass. If the name has no slot then, and no conditional in front of the read leaves
an item with the name from one arm alone, every path of the analysed program that comes to the read,
whatever arms it takes, has written the name before. -/
theorem read_written_on_every_path {n : Nat} (hs : Starts s names) (hx : x ≠ [])
    (hstack : x ∉ names) (hresolve : (resolveDeep o opt 0 n).run s = .ok () s') :
    ∃ ctx r s₁, (analyse o 0).run s = .ok (ctx, r) s₁ ∧
      ∀ v, (Step.instrs ctx.steps)[v]? = some (.var x) →
        (∃ s₂ c k e, ReplacedFrom s o opt n s₂ c k e ∧ SameRead x ctx.steps v c.steps k) ∧
        ∀ s₂ c k e, ReplacedFrom s o opt n s₂ c k e → SameRead x ctx.steps v c.steps k →
          x ∉ s₂.slots → Machine.JoinsBefore c.stack c.steps x k →
            ∀ first, (ctx.pathTo first v).Arrives → ctx.WrittenBefore first x v := by
  have hinner := inward_innerOf o opt n
  obtain ⟨s₂, s₀, last, hcalls, hroute, hlast, hpass⟩ := exists_reaches_of_run_resolveDeep hresolve
  obtain ⟨ctx, r, s₁, hanalyse, hknown, hfollowing⟩ :=
    hs.sound.following_of_route (hs.unstacked hstack) hcalls hroute
  refine ⟨ctx, r, s₁, hanalyse, fun v hread => ⟨?_, ?_⟩⟩
  · have hlow := count_eq_zero_of_run_pass hinner hpass x
    have hhigh : ((Step.instrs ctx.steps).drop (v + 1)).count (.var x) <
        (Step.instrs s₀.steps).count (.var x) := by
      rw [← length_known, hknown, known, ← List.length_reverse]
      exact (List.getElem?_eq_some_iff.mp (reverse_reads {} hread)).1
    obtain ⟨s₃, c, k, e, s₄, hreaches, hedits, hlow, hhigh⟩ :=
      exists_edits_of_count hlast (hlow ▸ Nat.zero_le _) hhigh
    obtain ⟨hvar, hbehind⟩ :=
      hedits.read_of_count hinner (hfollowing.of_reaches hinner hreaches).toExpanded hlow hhigh
    exact ⟨s₃, c, k, e, ⟨s₂, s₀, s₄, hcalls, hroute, hreaches, hedits⟩, hread, hvar, hbehind.symm⟩
  · rintro s₃ c k e ⟨s₂', s₀', s₄, hcalls', hroute', hreaches, hedits⟩ hsame hslots hjoins first
      harrives
    cases hcalls.symm.trans hcalls'
    cases hroute.symm.trans hroute'
    have hflag := (hfollowing.of_reaches hinner hreaches).known_of_edits hinner hedits hsame.right
      hx hslots hjoins
    rw [← hsame.behind, known, reverse_reads _ hread] at hflag
    exact Context.writtenBefore_of_now (hs.sound.of_analyse hanalyse).branches
      (lt_length_of_instrs hread).le (Option.some.inj hflag) first harrives

/-- Writes a name in an arm, and reads it there behind another conditional. -/
def writtenInArm : Program where
  stack := [[99], [100]]
  ops := [.assume [99], .op .opIf, .op .two, .assign [120], .assume [100], .op .opIf, .op .one,
    .op .opElse, .op .zero, .op .opEndIf, .var [120], .op .opEndIf]

/-- The analysed form of a session's program, and what is routed in it. -/
def analysis? (o : Options) (s : Session) : Option (Context × Routing) :=
  match (analyse o 0).run s with
  | .ok p _ => some p
  | .error _ _ => none

/-- A name that is written and read in an arm. -/
theorem read_written_on_every_path_in_arm :
    ∃ s ctx r s₁ s₂ c e,
      NamedStack.resolve (.ofProgram writtenInArm) {} none writtenInArm.ops =
        { session := s, failure := none } ∧
      (analyse {} 0).run
          { steps := Step.ofList writtenInArm.ops, table := .ofProgram writtenInArm } =
        .ok (ctx, r) s₁ ∧
      ReplacedFrom { steps := Step.ofList writtenInArm.ops, table := .ofProgram writtenInArm } {}
        none (Measure.scriptDepth (.ofProgram writtenInArm) writtenInArm.ops) s₂ c 12 e ∧
      SameRead [120] ctx.steps 10 c.steps 12 ∧ [120] ∉ s₂.slots ∧
      Machine.JoinsBefore c.stack c.steps [120] 12 ∧
      (∃ first, (ctx.pathTo first 10).Arrives) ∧
      ∀ first, (ctx.pathTo first 10).Arrives → ctx.WrittenBefore first [120] 10 := by
  have hresolve : (NamedStack.resolve (.ofProgram writtenInArm) {} none writtenInArm.ops).failure =
      none := by cbv
  have hanalysis : (analysis? {} { steps := Step.ofList writtenInArm.ops
                                   table := .ofProgram writtenInArm }).map (fun p =>
      ((Step.instrs p.1.steps)[10]?, ((Step.instrs p.1.steps).drop 11).count (.var [120]),
        (p.1.pathTo (fun _ => true) 10).conds)) =
      some (some (.var [120]), 0, [.taken]) := by cbv
  have hreplaced : (replacedFrom? { steps := Step.ofList writtenInArm.ops
                                    table := .ofProgram writtenInArm } {} none
        (Measure.scriptDepth (.ofProgram writtenInArm) writtenInArm.ops) 2).map (fun e =>
      (e.1.slots, e.2.2.1, (Step.instrs e.2.1.steps)[12]?,
        ((Step.instrs e.2.1.steps).drop 13).count (.var [120]),
        Machine.joinsBefore? e.2.1.stack e.2.1.steps [120] 12)) =
      some ([], 12, some (.var [120]), 0, true) := by cbv
  have hresolve := resolve_eq_of_failure hresolve
  have hstack : [120] ∉ writtenInArm.stack := by decide
  obtain ⟨ctx, r, s₁, hanalyse, hreads⟩ := read_written_on_every_path (.program writtenInArm)
    (by decide) hstack (resolveWithin_eq_iff.mp hresolve)
  rw [analysis?, hanalyse, Option.map_some, Option.some.injEq, Prod.mk.injEq, Prod.mk.injEq]
    at hanalysis
  obtain ⟨hread, hbehind, hconds⟩ := hanalysis
  obtain ⟨⟨s₂, c, k, e⟩, hreplaced, hfacts⟩ := Option.map_eq_some_iff.mp hreplaced
  simp only [Prod.mk.injEq] at hfacts
  obtain ⟨hslots, rfl, hread', hbehind', hjoins⟩ := hfacts
  have hreplaced := replacedFrom_of_replacedFrom? hreplaced
  have hsame : SameRead [120] ctx.steps 10 c.steps 12 :=
    ⟨hread, hread', hbehind.trans hbehind'.symm⟩
  have hslots : [120] ∉ s₂.slots := hslots ▸ List.not_mem_nil
  have hjoins := Machine.joinsBefore_of_joinsBefore? hjoins
  refine ⟨_, ctx, r, s₁, s₂, c, e, hresolve, hanalyse, hreplaced, hsame, hslots, hjoins, ?_,
    (hreads 10 hread).2 s₂ c 12 e hreplaced hsame hslots hjoins⟩
  refine ⟨fun _ => true, ?_⟩
  rw [Path.Arrives, hconds]
  rfl

/-- Whether a program is resolved although a path comes to a read of a name, none of the initial
stack, without writing it. -/
def ReadsUnwritten (p : Program) (x : Name) : Prop :=
  ∃ s ctx r s₁ v first,
    NamedStack.resolve (.ofProgram p) {} none p.ops = { session := s, failure := none } ∧
      (analyse {} 0).run { steps := Step.ofList p.ops, table := .ofProgram p } = .ok (ctx, r) s₁ ∧
      x ∉ p.stack ∧ (Step.instrs ctx.steps)[v]? = some (.var x) ∧ (ctx.pathTo first v).Arrives ∧
      ¬ ctx.WrittenBefore first x v

/-- The test whether a path that always takes the same arm comes to a read without a write. -/
private def unwritten? (p : Program) (x : Name) (v : Nat) (arm : Bool) : Bool :=
  (NamedStack.resolve (.ofProgram p) {} none p.ops).failure.isNone && !p.stack.contains x &&
    (analysis? {} { steps := Step.ofList p.ops, table := .ofProgram p }).any fun q =>
      (Step.instrs q.1.steps)[v]? = some (.var x) && (q.1.pathTo (fun _ => arm) v).Arrives &&
        (List.range v).all fun a =>
          !((Step.instrs q.1.steps)[a]? = some (.assign x) && (q.1.pathTo (fun _ => arm) a).Arrives)

private theorem readsUnwritten_of_unwritten? {p : Program} {v : Nat} {b : Bool}
    (h : unwritten? p x v b = true) : ReadsUnwritten p x := by
  rw [unwritten?, Bool.and_eq_true, Bool.and_eq_true] at h
  obtain ⟨⟨hfailure, hstack⟩, h⟩ := h
  obtain ⟨⟨ctx, r⟩, hanalysis, h⟩ := (Option.any_eq_true _ _).mp h
  simp only [Bool.and_eq_true, decide_eq_true_eq, List.all_eq_true, List.mem_range,
    Bool.not_eq_true', Bool.and_eq_false_iff, decide_eq_false_iff_not] at h
  obtain ⟨⟨hread, harrives⟩, hnone⟩ := h
  unfold analysis? at hanalysis
  split at hanalysis
  · next s₁ hanalyse =>
    cases hanalysis
    refine ⟨_, ctx, r, s₁, v, fun _ => b, resolve_eq_of_failure (Option.isNone_iff_eq_none.mp
      hfailure), hanalyse, by simpa using hstack, hread, harrives, ?_⟩
    rintro ⟨a, ha, hwrite, harrives⟩
    rcases hnone a ha with hno | hno
    · exact hno hwrite
    · exact hno harrives
  · cases hanalysis

/-- Reads that a path comes to without a write: the first arm ends at another height than the
program without it, the item comes from the alt stack of the second arm, or the name has a slot. -/
theorem reads_unwritten_from_one_arm :
    ReadsUnwritten
        { stack := [[99]]
          ops := [.assume [99], .op .opIf, .op .two, .assign [120], .op .opEndIf, .var [120]] }
        [120] ∧
      ReadsUnwritten
        { stack := [[99]]
          ops := [.assume [99], .op .opIf, .op .one, .op .opElse, .op .two, .assign [120],
            .op .toAltStack, .op .one, .op .opEndIf, .op .fromAltStack, .var [120]] }
        [120] ∧
      ReadsUnwritten
        { stack := [[99]]
          ops := [.assume [99], .op .opIf, .op .two, .assign [120], .op .one, .assign [120],
            .op .opEndIf, .var [120]] }
        [120] :=
  ⟨readsUnwritten_of_unwritten? (v := 5) (b := false) (by cbv),
    readsUnwritten_of_unwritten? (v := 10) (b := true) (by cbv),
    readsUnwritten_of_unwritten? (v := 7) (b := false) (by cbv)⟩

end Session

end NamedStack
