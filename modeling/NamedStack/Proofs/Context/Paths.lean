import NamedStack.Proofs.Context.Arms

/-!
# Paths through a program

A path takes one arm of each conditional that it comes to. On the way it adds what the steps add
that it runs. The height of a context stands for all paths: in front of a step that no uneven
conditional precedes, every path that comes there has that height.
-/

namespace NamedStack

open Engine

/-- How far a path has come: the height, and the conditionals that are open, the innermost first. -/
structure Path where
  height : Int
  conds : List Cond := []
  deriving DecidableEq, Repr

namespace Path

/-- The open conditionals after an instruction at a position, where a choice says for each marker
that opens a conditional whether the first arm is taken. -/
def turn (first : Nat → Bool) (conds : List Cond) (i : Nat) : Instr → List Cond
  | .op .opIf | .op .opNotIf => (if runs conds then .ofBool (first i) else .inert) :: conds
  | .op .opElse =>
    match conds with
    | c :: cs => c.toggle :: cs
    | [] => []
  | .op .opEndIf => conds.tail
  | _ => conds

/-- Go past a step at a position. -/
def step (first : Nat → Bool) (w : Path) (i : Nat) (s : Step) : Path where
  height := if runs w.conds then w.height + s.delta else w.height
  conds := turn first w.conds i s.instr

/-- Go past steps from a position on. -/
def run (first : Nat → Bool) (w : Path) (i : Nat) : List Step → Path
  | [] => w
  | s :: rest => (w.step first i s).run first (i + 1) rest

private theorem run_concat (first : Nat → Bool) (w : Path) (i : Nat) (steps : List Step)
    (s : Step) :
    w.run first i (steps ++ [s]) = (w.run first i steps).step first (i + steps.length) s := by
  induction steps generalizing w i with
  | nil => rfl
  | cons t rest ih =>
    rw [List.cons_append, run, ih, run, List.length_cons, Nat.add_assoc, Nat.add_comm 1]

/-- Whether a path comes to the step in front of which it stands. -/
def Arrives (w : Path) : Prop := runs w.conds = true

instance (w : Path) : Decidable w.Arrives := inferInstanceAs (Decidable (_ = _))

/-- Only markers change what is open. -/
theorem turn_plain (first : Nat → Bool) (conds : List Cond) (i : Nat) {instr : Instr}
    (h : ∀ o, instr = .op o → o.isMarker = false) : turn first conds i instr = conds := by
  cases instr with
  | op o =>
    cases o with
    | opIf | opNotIf | opElse | opEndIf => cases h _ rfl
    | _ => rfl
  | _ => rfl

/-- The heights that are followed from the left keep to a path at each step, if the conditional that
the step closes is even. -/
theorem fits_step {h h' : Heights} {w : Path} (hf : Fits h.levels w.conds h.now w.height)
    (first : Nat → Bool) (i : Nat) {s : Step} (hm : h.Moves s h')
    (hzero : s.instr = .op .opElse ∨ s.instr = .op .opEndIf → s.delta = 0)
    (heven : s.instr = .op .opEndIf → ∀ l ls, h.levels = l :: ls → h.now = l.arm.getD l.entry) :
    Fits h'.levels (w.step first i s).conds h'.now (w.step first i s).height := by
  unfold step
  cases hm with
  | plain hs =>
    rw [turn_plain first w.conds i hs]
    cases hr : runs w.conds with
    | true =>
      rw [if_pos rfl, hf.eq_of_runs hr]
      exact hf.move hr _
    | false => exact hf.stay hr _
  | opens hs =>
    have hturn : turn first w.conds i s.instr =
        (if runs w.conds then .ofBool (first i) else .inert) :: w.conds := by
      rcases hs with hs | hs <;> rw [hs] <;> rfl
    rw [hturn]
    cases hr : runs w.conds with
    | true =>
      rw [if_pos rfl, if_pos rfl, hf.eq_of_runs hr]
      exact hf.opens hr (first i) _
    | false => exact .inert hr hf
  | splits hs hl =>
    rw [hl] at hf
    obtain ⟨c, cs, hc⟩ := hf.exists_cons
    rw [hzero (.inl hs), add_zero, ite_self, hs, hc]
    rw [hc] at hf
    exact hf.toggle
  | @closes l ls hs hl =>
    have hends := heven hs l ls hl
    rw [hl, hends] at hf
    obtain ⟨c, cs, hc⟩ := hf.exists_cons
    rw [hzero (.inr hs), add_zero, ite_self, hs, hc, hends,
      show l.arm.getD (l.arm.getD l.entry) = l.arm.getD l.entry by cases l.arm <;> rfl]
    rw [hc] at hf
    exact hf.close

end Path

namespace Context

/-- The path in front of a position. -/
def pathTo (ctx : Context) (first : Nat → Bool) (i : Nat) : Path :=
  Path.run first { height := ctx.stack.length } 0 (ctx.steps.take i)

variable {ctx : Context}

/-- One step more on a path. -/
theorem pathTo_succ (first : Nat → Bool) {i : Nat} {s : Step} (hs : ctx.steps[i]? = some s) :
    ctx.pathTo first (i + 1) = (ctx.pathTo first i).step first i s := by
  have hle : i ≤ ctx.steps.length := (List.getElem?_eq_some_iff.mp hs).1.le
  rw [pathTo, List.take_add_one, hs, Option.toList_some, Path.run_concat,
    List.length_take_of_le hle, Nat.zero_add]
  rfl

/-- In front of a position that only even conditionals precede, the heights that are followed from
the left keep to every path. -/
theorem fits_pathTo (hbr : Branch.ofInstrs (Step.instrs ctx.steps) = .ok ctx.branches)
    (hzero : EndsFree ctx.steps) (first : Nat → Bool) {i : Nat} (hi : i ≤ ctx.steps.length)
    (heven : ∀ c ∈ ctx.uneven, ¬ c.endIf < i) :
    ∃ h, Heights.run { now := ctx.stack.length } (ctx.steps.take i) = some h ∧
      Fits h.levels (ctx.pathTo first i).conds h.now (ctx.pathTo first i).height := by
  have hfits := heights_induction hbr hzero ctx.stack.length
    (P := fun j h => (∀ c ∈ ctx.uneven, ¬ c.endIf < j) →
      Fits h.levels (ctx.pathTo first j).conds h.now (ctx.pathTo first j).height)
    (fun _ => .outside) ?_ hi
  · obtain ⟨h, hrun, hf⟩ := hfits
    exact ⟨h, hrun, hf heven⟩
  · intro j s h h' hs hrun hmoves hf heven
    rw [pathTo_succ first hs]
    apply Path.fits_step (hf fun c hc hlt => heven c hc (Nat.lt_succ_of_lt hlt)) first j hmoves
      (hzero s (List.mem_of_getElem? hs))
    intro hinstr l ls hl
    -- the conditional that is closed here is even
    obtain ⟨c, hc, rfl⟩ := exists_conditional hbr hs hinstr
    obtain ⟨_, h₁, l₁, ls₁, -, -, hrun₁, hl₁, hiff⟩ := isUneven_iff hbr hzero ctx.stack.length hc
    cases hrun.symm.trans hrun₁
    cases hl.symm.trans hl₁
    by_contra hne
    exact heven c (List.mem_filter.mpr ⟨hc, hiff.mpr hne⟩) (Nat.lt_succ_self _)

/-- The height in front of a step that is no marker does not depend on the path, if only even
conditionals were closed before: every path that comes there has the height that the context says.
-/
theorem height_pathTo {t : Table} {o : Options} {steps : List Step}
    (hctx : Context.of t o steps = .ok ctx) (hsteps : ∀ s ∈ steps, s.Genuine) {i : Nat}
    (hi : i ≤ ctx.steps.length)
    (hmarker : ∀ s, ctx.steps[i]? = some s → ∀ op, s.instr = .op op → op.isMarker = false)
    (heven : ∀ c ∈ ctx.uneven, ¬ c.endIf < i) (first : Nat → Bool)
    (harrives : (ctx.pathTo first i).Arrives) :
    (ctx.pathTo first i).height = ctx.heightAt i := by
  have hbr := branches_of hctx
  have hzero := endsFree_of_genuine (genuine_steps hctx hsteps)
  obtain ⟨h, hrun, hf⟩ := fits_pathTo hbr hzero first hi heven
  rw [hf.eq_of_runs harrives, heightAt_eq hbr hzero hi ?_ hrun]
  intro s hs hend
  cases hmarker s hs _ hend

/-- An even conditional with another one in its first arm, and an uneven one behind it. -/
def evenThenUneven : Program where
  stack := [[97]]
  ops := [.push [7], .op .opIf, .push [7], .op .opIf, .assume [97], .op .opElse, .push [8],
    .op .opEndIf, .op .opElse, .push [9], .op .opEndIf, .op .drop, .push [7], .op .opIf, .push [8],
    .op .opEndIf]

/-- A conditional with even arms, and one with uneven arms. -/
theorem height_pathTo_even_then_uneven :
    ∃ ctx, Context.of (Table.ofProgram evenThenUneven) {} (Step.ofList evenThenUneven.ops) =
        .ok ctx ∧ ctx.uneven.length = 1 ∧ (ctx.pathTo (fun i => i = 1) 11).Arrives ∧
      (ctx.pathTo (fun i => i = 1) 11).height = ctx.heightAt 11 := by
  obtain ⟨ctx, hctx⟩ : ∃ ctx, Context.of (Table.ofProgram evenThenUneven) {}
      (Step.ofList evenThenUneven.ops) = .ok ctx := ⟨_, rfl⟩
  have htest : (Context.of (Table.ofProgram evenThenUneven) {}
      (Step.ofList evenThenUneven.ops)).toOption.map (fun ctx =>
        (ctx.steps.length, ctx.steps[11]?, ctx.uneven.map (·.endIf),
          ctx.pathTo (fun i => i = 1) 11)) =
      some (16, some (.op .drop), [15], { height := 2 }) := by cbv
  rw [hctx] at htest
  simp only [Except.toOption, Option.map_some, Option.some.injEq, Prod.mk.injEq] at htest
  obtain ⟨hlen, hstep, hends, hpath⟩ := htest
  have harrives : (ctx.pathTo (fun i => i = 1) 11).Arrives := by
    rw [hpath]
    rfl
  refine ⟨ctx, hctx, by simpa using congrArg List.length hends, harrives, ?_⟩
  apply height_pathTo hctx (Step.genuine_ofList _) (by omega) ?_ ?_ _ harrives
  · intro s hs op hop
    rw [hstep] at hs
    cases hs
    cases hop
    rfl
  · intro c hc hlt
    have hend : c.endIf ∈ ctx.uneven.map (·.endIf) := List.mem_map_of_mem hc
    rw [hends, List.mem_singleton] at hend
    omega

end Context

end NamedStack
