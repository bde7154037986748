import NamedStack.Proofs.Context.Positions
import NamedStack.Proofs.Script.Tokens

/-!
# Two ways to the height of the stack

The machine runs the steps in front of a position on simulated items; a context sums up what the
steps add. As long as every step finds the items that it asks for, the machine is as high as the
heights that are followed from the left, and its frames are as high as their levels, so that both
ways lead to the same height.
-/

namespace NamedStack

namespace Machine

/-! ### What steps ask for -/

/-- How deep an opcode reaches down: it takes, looks at or removes an item at that depth. What lies
on the alt stack is not asked for. -/
def asksOp (m : Machine) (s : Step) : Opcode → Nat
  | .small _ | .opElse | .opEndIf | .fromAltStack | .depth | .size => 0
  | .opIf | .opNotIf | .toAltStack | .ifDup | .drop | .dup | .tuck => 1
  | .drop2 | .dup2 | .nip | .over | .swap => 2
  | .dup3 | .rot => 3
  | .over2 | .swap2 => 4
  | .rot2 => 6
  | .pick | .roll =>
    match (m.peek 0).num with
    | some n => n.toNat + 2
    | none => 1
  | _ => s.args.length

/-- How many items a step asks for. -/
def asks (m : Machine) (s : Step) : Nat :=
  match s.instr with
  | .op o => m.asksOp s o
  | .assign _ => 1
  | _ => 0

/-! ### Heights -/

/-- The height grows by what is pushed. -/
@[simp]
theorem height_push (m : Machine) (items : List Item) :
    (m.push items).height = m.height + items.length := by
  simp [push, height, Nat.add_comm]

/-- The height grows by what is copied. -/
@[simp]
theorem height_pushCopies (m : Machine) (ns : List Nat) :
    (m.pushCopies ns).height = m.height + ns.length := by
  rw [pushCopies, height_push, List.length_map]

/-- The height shrinks by what is dropped. -/
@[simp]
theorem height_drop (m : Machine) (n : Nat) : (m.drop n).height = m.height - n :=
  List.length_drop

variable {m m' : Machine} {n : Nat} {s : Step} {o : Opcode}

private theorem height_take (h : n < m.height) : (m.take n).2.height = m.height - 1 :=
  List.length_eraseIdx_of_lt h

/-- Taking the item on top, if there is one. -/
theorem height_pop (h : 1 ≤ m.height) : (m.pop.2.height : Int) = m.height + -1 := by
  have hlen : m.pop.2.height = m.height - 1 := List.length_tail
  omega

private theorem height_raise (h : n < m.height) : (m.raise n).height = m.height := by
  rw [raise, height_push, height_take h, List.length_singleton]
  omega

private theorem height_raisePair (h : n < m.height) (hn : 0 < n) :
    (m.raisePair n).height = m.height := by
  have hfirst := height_take h
  have hsecond : ((m.take n).2.take (n - 1)).2.height = (m.take n).2.height - 1 :=
    height_take (by omega)
  change (((m.take n).2.take (n - 1)).2.push _).height = m.height
  rw [height_push, hsecond, hfirst]
  simp only [List.length_cons, List.length_nil]
  omega

private theorem height_generic (hasks : s.args.length ≤ m.height)
    (hresults : 0 ≤ s.args.length + s.delta) :
    ((m.generic s).height : Int) = m.height + s.delta := by
  change (((m.drop s.args.length).push _).height : Int) = _
  rw [height_push, height_drop, List.length_replicate]
  omega

private theorem height_assign (h : 1 ≤ m.height) (name : Name) :
    (m.assign name).height = m.height := by
  unfold assign height at *
  cases hm : m.main with
  | nil =>
    rw [hm] at h
    cases h
  | cons top rest => simp

private theorem length_merge (first second : List Item) :
    (merge first second).length = first.length := by
  unfold merge
  split
  · next h => rw [List.length_zipWith, h, Nat.min_self]
  · rfl

private theorem results_nonneg (o : Opcode) :
    o ≠ .roll → 0 ≤ (o.info.args.length : Int) + o.info.delta :=
  Opcode.forall_of_all (P := fun o => o ≠ .roll → 0 ≤ (o.info.args.length : Int) + o.info.delta)
    (by decide +kernel) o

private theorem results_of_genuine (hs : s.Genuine) (hinstr : s.instr = .op o) (hpick : o ≠ .pick)
    (hroll : o ≠ .roll) (hdup : o ≠ .ifDup) : 0 ≤ (s.args.length : Int) + s.delta := by
  by_cases hsig : o = .checkMultiSig ∨ o = .checkMultiSigVerify
  · apply hs.results
    rw [hinstr]
    exact hsig.imp (congrArg _) (congrArg _)
  · rw [not_or] at hsig
    have hargs := hs.args
    have hdelta := hs.delta
    rw [hinstr] at hargs hdelta
    rw [hargs (by simpa using hpick) (by simpa using hroll) (by simpa using hsig.1)
      (by simpa using hsig.2), hdelta (by cases o <;> trivial)]
    exact results_nonneg o hroll

private theorem runOp_pick (m : Machine) (s : Step) :
    m.runOp s .pick = match (m.peek 0).num with
      | none => .ok (m.pop.2.push [.anonymous])
      | some n => if n < 0 then .error m.pop.2 else .ok (m.pop.2.pushCopies [n.toNat]) := rfl

private theorem runOp_roll (m : Machine) (s : Step) :
    m.runOp s .roll = match (m.peek 0).num with
      | none => .ok m.pop.2
      | some n => if n < 0 then .error m.pop.2 else .ok (m.pop.2.raise n.toNat) := rfl

private theorem one_le_of_asks_indexed (ho : o = .pick ∨ o = .roll) (h : m.asksOp s o ≤ m.height) :
    1 ≤ m.height := by
  have hasks : m.asksOp s o = match (m.peek 0).num with
      | some n => n.toNat + 2
      | none => 1 := by
    rcases ho with rfl | rfl <;> rfl
  rw [hasks] at h
  cases hn : (m.peek 0).num with
  | none =>
    rw [hn] at h
    exact h
  | some n =>
    rw [hn] at h
    exact Nat.le_trans (Nat.le_add_left _ _) h

/-- What an opcode that is no marker does to the height. -/
theorem height_runOp (hs : s.Genuine) (hinstr : s.instr = .op o) (hmark : o.isMarker = false)
    (hasks : m.asksOp s o ≤ m.height)
    (hdup : o = .ifDup → ∃ n, (m.peek 0).num = some n ∧ s.delta = if n = 0 then 0 else 1)
    (hrun : m.runOp s o = .ok m') :
    (m'.height : Int) = m.height + s.delta ∧ m'.frames = m.frames := by
  have hdelta := hs.delta
  rw [hinstr] at hdelta
  by_cases hover : o = .over
  · subst hover
    cases hrun
    rw [hdelta trivial, height_pushCopies]
    exact ⟨rfl, rfl⟩
  cases o with
  | opIf | opNotIf | opElse | opEndIf => cases hmark
  | small | depth | size =>
    cases hrun
    rw [hdelta trivial, height_push]
    exact ⟨rfl, rfl⟩
  | dup | dup2 | dup3 | over2 =>
    cases hrun
    rw [hdelta trivial, height_pushCopies]
    exact ⟨rfl, rfl⟩
  | drop | drop2 =>
    cases hrun
    rw [hdelta trivial, height_drop]
    simp only [asksOp] at hasks
    exact ⟨by simp only [Instr.delta, Opcode.info]; omega, rfl⟩
  | toAltStack =>
    cases hrun
    rw [hdelta trivial]
    exact ⟨height_pop hasks, rfl⟩
  | fromAltStack =>
    rw [hdelta trivial]
    rw [runOp] at hrun
    split at hrun
    · cases hrun
      exact ⟨by rw [height_push]; rfl, rfl⟩
    · cases hrun
      exact ⟨by rw [height_push]; rfl, rfl⟩
  | ifDup =>
    obtain ⟨n, hn, hd⟩ := hdup rfl
    simp only [runOp, hn] at hrun
    by_cases h0 : n = 0
    · rw [if_neg (by simpa using h0)] at hrun
      cases hrun
      rw [hd, if_pos h0, add_zero]
      exact ⟨rfl, rfl⟩
    · rw [if_pos (by simpa using h0)] at hrun
      cases hrun
      rw [hd, if_neg h0, height_push]
      exact ⟨rfl, rfl⟩
  | nip =>
    cases hrun
    rw [hdelta trivial, height_take hasks]
    simp only [asksOp] at hasks
    exact ⟨by simp only [Instr.delta, Opcode.info]; omega, rfl⟩
  | pick =>
    have hpop := height_pop (one_le_of_asks_indexed (.inl rfl) hasks)
    rw [hdelta trivial]
    rw [runOp_pick] at hrun
    split at hrun
    · cases hrun
      refine ⟨?_, rfl⟩
      rw [height_push, Nat.cast_add, hpop]
      exact Int.neg_add_cancel_right _ _
    · split at hrun
      · cases hrun
      · cases hrun
        refine ⟨?_, rfl⟩
        rw [height_pushCopies, Nat.cast_add, hpop]
        exact Int.neg_add_cancel_right _ _
  | roll =>
    have hpop := height_pop (one_le_of_asks_indexed (.inr rfl) hasks)
    rw [hdelta trivial]
    rw [runOp_roll] at hrun
    split at hrun
    · cases hrun
      exact ⟨hpop, rfl⟩
    · next n hn =>
      split at hrun
      · cases hrun
      · cases hrun
        simp only [asksOp, hn] at hasks
        rw [height_raise (by omega)]
        exact ⟨hpop, rfl⟩
  | rot | swap =>
    cases hrun
    rw [hdelta trivial, height_raise hasks]
    exact ⟨(add_zero _).symm, rfl⟩
  | rot2 | swap2 =>
    cases hrun
    rw [hdelta trivial, height_raisePair hasks (by decide)]
    exact ⟨(add_zero _).symm, rfl⟩
  | tuck =>
    cases hrun
    rw [hdelta trivial]
    refine ⟨?_, rfl⟩
    change ((List.take 2 m.main ++ _ :: List.drop 2 m.main).length : Int) = m.main.length + 1
    rw [List.length_append, List.length_cons, List.length_take, List.length_drop]
    omega
  | _ =>
    first
    | exact absurd rfl hover
    | cases hrun
      exact ⟨height_generic hasks (results_of_genuine hs hinstr nofun nofun nofun), rfl⟩

/-! ### Heights of a machine -/

/-- The heights of a machine and of its frames. -/
def heights (m : Machine) : Heights where
  now := m.height
  levels := m.frames.map fun f =>
    { entry := f.entry.length, arm := f.arm.map fun a => (a.length : Int) }

private theorem heights_step_plain (hs : s.Genuine)
    (hinstr : ∀ o, s.instr = .op o → o.isMarker = false) (hasks : m.asks s ≤ m.height)
    (hdup : s.instr = .op .ifDup →
      ∃ n, (m.peek 0).num = some n ∧ s.delta = if n = 0 then 0 else 1) (hstep : m.step s = .ok m') :
    (m'.height : Int) = m.height + s.delta ∧ m'.frames = m.frames := by
  have hdelta := hs.delta
  cases hi : s.instr with
  | op o =>
    simp only [asks, step, hi] at hasks hstep
    apply height_runOp hs hi (hinstr o hi) hasks ?_ hstep
    intro ho
    rw [ho] at hi
    exact hdup hi
  | push | inner | assume | var =>
    simp only [step, hi] at hstep
    cases hstep
    rw [hi] at hdelta
    rw [hdelta trivial, height_push]
    exact ⟨rfl, rfl⟩
  | assign name =>
    simp only [asks, step, hi] at hasks hstep
    cases hstep
    rw [hi] at hdelta
    rw [hdelta trivial, height_assign hasks]
    refine ⟨(add_zero _).symm, ?_⟩
    unfold assign
    dsimp only
    split <;> rfl
  | call name args =>
    simp only [step, hi] at hstep
    cases hstep
    rw [hi] at hdelta
    rw [hdelta trivial]
    exact ⟨(add_zero _).symm, rfl⟩

/-- The heights of a machine go on with it. -/
theorem heights_step {h : Heights} (hs : s.Genuine) (hasks : m.asks s ≤ m.height)
    (hdup : s.instr = .op .ifDup →
      ∃ n, (m.peek 0).num = some n ∧ s.delta = if n = 0 then 0 else 1) (hstep : m.step s = .ok m')
    (hm : m.heights.Moves s h) : h = m'.heights := by
  have hdelta := hs.delta
  cases hm with
  | plain hinstr =>
    obtain ⟨hheight, hframes⟩ := heights_step_plain hs hinstr hasks hdup hstep
    rw [heights, heights, hheight, hframes]
  | opens hinstr =>
    have hrun : m' = { m.drop 1 with
        frames := { entry := (m.drop 1).main, alt := m.alt } :: m.frames } := by
      rcases hinstr with hi | hi
      all_goals
        simp only [step, hi] at hstep
        cases hstep
        rfl
    have hone : m.asks s = 1 := by
      rcases hinstr with hi | hi
      all_goals simp only [asks, hi, asksOp]
    have hd : s.delta = -1 := by
      rcases hinstr with hi | hi
      all_goals
        rw [hi] at hdelta
        exact hdelta trivial
    have hlen : ((m.drop 1).main.length : Int) = m.height + -1 := by
      have := height_drop m 1
      simp only [height] at this ⊢ hasks
      omega
    rw [hrun, hd]
    simp only [heights, height, List.map_cons, hlen, Option.map_none]
  | splits hinstr hlevels =>
    obtain ⟨f, fs, hframes, hf, rfl⟩ := List.map_eq_cons_iff.mp hlevels
    simp only [Level.mk.injEq, Option.map_eq_none_iff] at hf
    obtain ⟨rfl, -⟩ := hf
    simp only [step, hinstr, runOp, hframes] at hstep
    cases hstep
    rfl
  | closes hinstr hlevels =>
    obtain ⟨f, fs, hframes, rfl, rfl⟩ := List.map_eq_cons_iff.mp hlevels
    simp only [step, hinstr, runOp, hframes] at hstep
    cases hstep
    -- what the arms are joined to is as high as the first one
    cases harm : f.arm with
    | none => simp only [heights, height, length_merge, Option.map_none, Option.getD_none]
    | some arm => simp only [heights, height, length_merge, Option.map_some, Option.getD_some]

/-- A literal leaves its number on top. -/
theorem num_peek_of_literal {n : Int} (hn : s.instr.toInt? = some n) (hstep : m.step s = .ok m') :
    (m'.peek 0).num = some n := by
  cases hi : s.instr with
  | op o =>
    rw [hi] at hn
    cases o with
    | small k =>
      simp only [step, hi] at hstep
      cases hstep
      exact hn
    | _ => cases hn
  | push data =>
    rw [hi] at hn
    simp only [step, hi, show ScriptNum.read? data = some n from hn] at hstep
    cases hstep
    rfl
  | _ =>
    rw [hi] at hn
    cases hn

/-- The last step of a run. -/
theorem run_concat_iff {steps : List Step} :
    m.run (steps ++ [s]) = .ok m' ↔ ∃ u, m.run steps = .ok u ∧ u.step s = .ok m' := by
  rw [run, List.foldlM_append]
  change (m.run steps).bind (fun u => u.run [s]) = _ ↔ _
  cases m.run steps with
  | error e => exact ⟨nofun, fun ⟨_, h, _⟩ => nomatch h⟩
  | ok u =>
    have hsingle : u.run [s] = u.step s := by
      change (u.step s).bind .ok = _
      cases u.step s <;> rfl
    rw [show Except.bind (.ok u) (fun u : Machine => u.run [s]) = u.run [s] from rfl, hsingle]
    exact ⟨fun h => ⟨u, rfl, h⟩, fun ⟨_, hu, h⟩ => by cases hu; exact h⟩

end Machine

/-- Whether every `IFDUP` directly follows a literal. -/
def DupsKnown (steps : List Step) : Prop :=
  ∀ j < steps.length, (steps[j]?.map (·.instr)) = some (.op .ifDup) →
    (Step.intAt? steps (j - 1)).isSome = true

instance (steps : List Step) : Decidable (DupsKnown steps) :=
  inferInstanceAs (Decidable (∀ j < steps.length, _ → _))

namespace Context

variable {ctx : Context} {t : Table} {o : Options} {steps : List Step}

/-- Whether a machine that runs the steps in front of a position always has as many items as the
next step asks for. -/
def Supplied (ctx : Context) (i : Nat) : Prop :=
  ∀ j < i, ∀ m ∈ ((Machine.start ctx.stack).run (ctx.steps.take j)).toOption,
    ∀ s ∈ ctx.steps[j]?, m.asks s ≤ m.height

instance (ctx : Context) (i : Nat) : Decidable (ctx.Supplied i) :=
  inferInstanceAs (Decidable (∀ j < i, _))

variable {i j : Nat} {m : Machine}

private theorem Supplied.mono (h : ctx.Supplied i) (hle : j ≤ i) : ctx.Supplied j :=
  fun k hk => h k (Nat.lt_of_lt_of_le hk hle)

private theorem Supplied.asks_le {s : Step} (h : ctx.Supplied i) (hj : j < i)
    (hrun : (Machine.start ctx.stack).run (ctx.steps.take j) = .ok m)
    (hs : ctx.steps[j]? = some s) : m.asks s ≤ m.height := by
  apply h j hj m
  · rw [hrun]
    rfl
  · exact hs

private theorem ifDup_spec (hctx : Context.of t o steps = .ok ctx) {s : Step}
    (hs : ctx.steps[j]? = some s) (hinstr : s.instr = .op .ifDup) (hdup : DupsKnown steps)
    (hrun : (Machine.start ctx.stack).run (ctx.steps.take j) = .ok m) :
    ∃ n, (m.peek 0).num = some n ∧ s.delta = if n = 0 then 0 else 1 := by
  obtain ⟨branches, -, rfl⟩ := of_cases hctx
  dsimp only at hs hrun
  rw [getElem?_refined, Option.map_eq_some_iff] at hs
  obtain ⟨s', hs', rfl⟩ := hs
  rw [instr_refine] at hinstr
  obtain ⟨n, hn⟩ := Option.isSome_iff_exists.mp (hdup j (List.getElem?_eq_some_iff.mp hs').1
    (by rw [hs', Option.map_some, hinstr]))
  refine ⟨n, ?_, delta_refine_ifDup hinstr hn⟩
  cases j with
  | zero => cases hn
  | succ j =>
    have hcast : ((j + 1 : Nat) : Int) - 1 = Int.ofNat j := by
      rw [Int.ofNat_eq_natCast]
      omega
    rw [hcast] at hn
    obtain ⟨lit, hlit, hint⟩ := Option.bind_eq_some_iff.mp hn
    rw [List.take_add_one, getElem?_refined, hlit, Option.map_some, Option.toList_some,
      Machine.run_concat_iff] at hrun
    obtain ⟨u, -, hstep⟩ := hrun
    exact Machine.num_peek_of_literal (by rwa [instr_refine]) hstep

/-- A machine that runs the steps in front of a position is as high as the heights that are followed
from the left, if every step finds what it asks for. -/
theorem heights_replay (hctx : Context.of t o steps = .ok ctx) (hsteps : ∀ s ∈ steps, s.Genuine)
    (hdup : DupsKnown steps) (hi : i ≤ ctx.steps.length)
    (hrun : (Machine.start ctx.stack).run (ctx.steps.take i) = .ok m) (hasks : ctx.Supplied i) :
    Heights.run { now := ctx.stack.length } (ctx.steps.take i) = some m.heights := by
  have hgenuine := genuine_steps hctx hsteps
  have hkept := heights_induction (branches_of hctx) (endsFree_of_genuine hgenuine)
    ctx.stack.length (P := fun j h => ∀ u, (Machine.start ctx.stack).run (ctx.steps.take j) =
      .ok u → ctx.Supplied j → h = u.heights) ?_ ?_ hi
  · obtain ⟨h, hh, hall⟩ := hkept
    rw [hh, hall m hrun hasks]
  · intro u hu _
    cases hu
    simp [Machine.heights, Machine.start, Machine.height]
  · intro j s h h' hs _ hmoves hfront u' hu' hasks
    rw [List.take_add_one, hs, Option.toList_some, Machine.run_concat_iff] at hu'
    obtain ⟨u, hu, hstep⟩ := hu'
    have hh := hfront u hu (hasks.mono (Nat.le_succ j))
    subst hh
    exact Machine.heights_step (hgenuine s (List.mem_of_getElem? hs))
      (hasks.asks_le (Nat.lt_succ_self j) hu hs) (fun hinstr => ifDup_spec hctx hs hinstr hdup hu)
      hstep hmoves

/-- The machine and the context agree on the height in front of every position but the end of a
second arm, if every step before finds the items that it asks for. -/
theorem height_replay (hctx : Context.of t o steps = .ok ctx) (hsteps : ∀ s ∈ steps, s.Genuine)
    (hdup : DupsKnown steps) {i : Nat} (hi : i ≤ ctx.steps.length)
    (hend : ∀ b ∈ ctx.branches, b.isTrue = false → b.stop ≠ some i) {m : Machine}
    (hrun : (Machine.start ctx.stack).run (ctx.steps.take i) = .ok m) (hasks : ctx.Supplied i) :
    (m.height : Int) = ctx.heightAt i := by
  have hheights := heights_replay hctx hsteps hdup hi hrun hasks
  have hzero := endsFree_of_genuine (genuine_steps hctx hsteps)
  rw [heightAt_eq (branches_of hctx) hzero hi (fun _ _ _ => hend) hheights]
  rfl

/-- A conditional with `PICK` in one arm and `IFDUP` in the other one. -/
def pickOrDouble : Program where
  stack := [[97], [98]]
  ops := [.assume [97], .op .opIf, .push [1], .op .pick, .op .opElse, .push [5], .op .ifDup,
    .op .nip, .op .opEndIf, .op .depth]

/-- `PICK` in one arm and `IFDUP` in the other one. -/
theorem height_replay_pick_or_double :
    ∃ ctx, Context.of (Table.ofProgram pickOrDouble) {} (Step.ofList pickOrDouble.ops) = .ok ctx ∧
      ctx.Supplied 9 ∧ ∃ m, (Machine.start ctx.stack).run (ctx.steps.take 9) = .ok m ∧
        (m.height : Int) = ctx.heightAt 9 := by
  obtain ⟨ctx, hctx⟩ : ∃ ctx, Context.of (Table.ofProgram pickOrDouble) {}
      (Step.ofList pickOrDouble.ops) = .ok ctx := ⟨_, rfl⟩
  have htest : (Context.of (Table.ofProgram pickOrDouble) {}
      (Step.ofList pickOrDouble.ops)).toOption.map (fun ctx => (ctx.steps.length,
        decide (ctx.Supplied 9),
        ((Machine.start ctx.stack).run (ctx.steps.take 9)).toOption.map (·.height),
        ctx.branches.map fun b => (b.isTrue, b.stop))) =
      some (10, true, some 3, [(true, some 4), (false, some 8)]) := by cbv
  rw [hctx] at htest
  simp only [Except.toOption, Option.map_some, Option.some.injEq, Prod.mk.injEq,
    decide_eq_true_eq] at htest
  obtain ⟨hlen, hsupplied, hheight, hstops⟩ := htest
  cases hrun : (Machine.start ctx.stack).run (ctx.steps.take 9) with
  | error u =>
    rw [hrun] at hheight
    cases hheight
  | ok m =>
    refine ⟨ctx, hctx, hsupplied, m, hrun, ?_⟩
    apply height_replay hctx (Step.genuine_ofList _) (by decide) (by omega) ?_ hrun hsupplied
    intro b hb hsecond hstop
    have hmem : (b.isTrue, b.stop) ∈ ctx.branches.map fun b => (b.isTrue, b.stop) :=
      List.mem_map_of_mem hb
    rw [hstops, hsecond, hstop] at hmem
    revert hmem
    decide

end Context

end NamedStack
