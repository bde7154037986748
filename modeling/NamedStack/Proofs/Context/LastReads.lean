import NamedStack.Proofs.Context.Paths

/-!
# The last read of a value

A read of a name may take the value away if no path reads the name again before it is written. What
is tested is that the text of the program has no read up to the next write. That is the same if the
next write stands outside of all conditionals; a write inside of an arm is passed by on another
path, which then finds the value gone.
-/

namespace NamedStack

open Engine

namespace Path

/-- What is chosen behind a position does not matter in front of it. -/
theorem run_congr {first first' : Nat → Bool} {w : Path} {i : Nat} {steps : List Step}
    (h : ∀ j < i + steps.length, first j = first' j) :
    w.run first i steps = w.run first' i steps := by
  induction steps generalizing w i with
  | nil => rfl
  | cons s rest ih =>
    have hhere : first i = first' i := h i (by rw [List.length_cons]; omega)
    have hstep : w.step first i s = w.step first' i s := by
      unfold step turn
      rw [hhere]
    rw [run, run, hstep]
    apply ih
    intro j hj
    apply h
    rw [List.length_cons]
    omega

/-- As many conditionals are open on a path as levels are followed from the left. -/
theorem length_step {h h' : Heights} {w : Path} (hl : w.conds.length = h.levels.length)
    (first : Nat → Bool) (i : Nat) {s : Step} (hm : h.Moves s h') :
    (w.step first i s).conds.length = h'.levels.length := by
  unfold step
  cases hm with
  | plain hs =>
    rw [turn_plain first w.conds i hs]
    exact hl
  | opens hs =>
    rcases hs with hs | hs
    all_goals
      rw [hs]
      exact congrArg Nat.succ hl
  | splits hs hlevels =>
    rw [hlevels] at hl
    obtain ⟨c, cs, hc⟩ := List.exists_cons_of_length_eq_add_one hl
    rw [hc] at hl
    rw [hs, hc]
    exact hl
  | closes hs hlevels =>
    rw [hlevels] at hl
    obtain ⟨c, cs, hc⟩ := List.exists_cons_of_length_eq_add_one hl
    rw [hc] at hl
    rw [hs, hc]
    exact Nat.succ.inj hl

end Path

namespace Context

variable {ctx : Context} {t : Table} {o : Options} {steps : List Step}

variable {i : Nat}

private theorem pathTo_congr {first first' : Nat → Bool} (h : ∀ j < i, first j = first' j) :
    ctx.pathTo first i = ctx.pathTo first' i := by
  apply Path.run_congr
  intro j hj
  apply h
  rw [Nat.zero_add, List.length_take] at hj
  omega

/-- Outside of all conditionals every path goes on. -/
theorem arrives_of_nestLevel (hctx : Context.of t o steps = .ok ctx)
    (hsteps : ∀ s ∈ steps, s.Genuine) {s : Step} (hs : ctx.steps[i]? = some s)
    (hmarker : ∀ op, s.instr = .op op → op.isMarker = false) (hnest : ctx.nestLevel i = 0)
    (first : Nat → Bool) : (ctx.pathTo first i).Arrives := by
  have hbr := branches_of hctx
  have hzero := endsFree_of_genuine (genuine_steps hctx hsteps)
  obtain ⟨h, hrun, hlen⟩ := heights_induction hbr hzero 0
    (P := fun j h => (ctx.pathTo first j).conds.length = h.levels.length) rfl
    (fun j s h h' hs _ hmoves hl => by
      rw [pathTo_succ first hs]
      exact Path.length_step hl first j hmoves) (List.getElem?_eq_some_iff.mp hs).1.le
  have helse : s.instr ≠ .op .opElse := fun he => nomatch hmarker _ he
  have hend : s.instr ≠ .op .opEndIf := fun he => nomatch hmarker _ he
  rw [(nestLevel_eq_zero_iff hbr hzero hs helse hend hrun).mp hnest] at hlen
  rw [Path.Arrives, List.length_eq_zero_iff.mp hlen]
  rfl

/-! ### Every position is on some path -/

/-- Some path takes all open arms, and for each open conditional that is still in its first arm some
path passes that arm by. -/
structure Open (ctx : Context) (i : Nat) (levels : List (Level Int)) : Prop where
  taken : ∃ first, (ctx.pathTo first i).conds = levels.map fun _ => .taken
  passed : ∀ inner l outer, levels = inner ++ l :: outer → l.arm = none →
    ∃ first, (ctx.pathTo first i).conds =
      inner.map (fun _ => .inert) ++ .skipped :: outer.map fun _ => .taken

private theorem runs_taken (levels : List (Level Int)) :
    runs (levels.map fun _ => .taken) = true := by
  cases levels <;> rfl

private theorem runs_passed (inner outer : List (Level Int)) :
    runs (inner.map (fun _ => .inert) ++ .skipped :: outer.map fun _ => .taken) = false := by
  cases inner <;> rfl

private theorem open_step {s : Step} {h h' : Heights} (hs : ctx.steps[i]? = some s)
    (hm : h.Moves s h') (ho : Open ctx i h.levels) : Open ctx (i + 1) h'.levels := by
  have hsucc (first : Nat → Bool) : (ctx.pathTo first (i + 1)).conds =
      Path.turn first (ctx.pathTo first i).conds i s.instr := by
    rw [pathTo_succ first hs]
    rfl
  obtain ⟨⟨first, htaken⟩, hpassed⟩ := ho
  cases hm with
  | plain hinstr =>
    constructor
    · exact ⟨first, by rw [hsucc, Path.turn_plain _ _ _ hinstr, htaken]⟩
    · intro inner l outer hlevels harm
      obtain ⟨first, hfirst⟩ := hpassed inner l outer hlevels harm
      exact ⟨first, by rw [hsucc, Path.turn_plain _ _ _ hinstr, hfirst]⟩
  | opens hinstr =>
    have hturn (first : Nat → Bool) (conds : List Cond) : Path.turn first conds i s.instr =
        (if runs conds then .ofBool (first i) else .inert) :: conds := by
      rcases hinstr with hinstr | hinstr <;> rw [hinstr] <;> rfl
    -- the choice at the marker is free
    have hchoose (b : Bool) : (ctx.pathTo (Function.update first i b) (i + 1)).conds =
        .ofBool b :: h.levels.map fun _ => .taken := by
      have hsame : ctx.pathTo (Function.update first i b) i = ctx.pathTo first i :=
        pathTo_congr fun j hj => Function.update_of_ne (Nat.ne_of_lt hj) b first
      rw [hsucc, hturn, hsame, htaken, runs_taken, if_pos rfl, Function.update_self]
    constructor
    · exact ⟨_, hchoose true⟩
    · intro inner l outer hlevels harm
      cases inner with
      | nil =>
        cases hlevels
        exact ⟨_, hchoose false⟩
      | cons l₀ inner =>
        obtain ⟨-, hlevels⟩ := List.cons.inj hlevels
        obtain ⟨first, hfirst⟩ := hpassed inner l outer hlevels harm
        exact ⟨first, by rw [hsucc, hturn, hfirst, runs_passed]; rfl⟩
  | splits hinstr hlevels =>
    constructor
    · obtain ⟨first, hfirst⟩ := hpassed [] _ _ hlevels rfl
      exact ⟨first, by rw [hsucc, hfirst, hinstr]; rfl⟩
    · intro inner l outer hlevels' harm
      cases inner with
      | nil =>
        cases hlevels'
        cases harm
      | cons l₀ inner =>
        obtain ⟨-, rfl⟩ := List.cons.inj hlevels'
        obtain ⟨first, hfirst⟩ := hpassed (_ :: inner) l outer hlevels harm
        exact ⟨first, by rw [hsucc, hfirst, hinstr]; rfl⟩
  | closes hinstr hlevels =>
    constructor
    · exact ⟨first, by rw [hsucc, htaken, hlevels, hinstr]; rfl⟩
    · intro inner l outer hlevels' harm
      obtain ⟨first, hfirst⟩ := hpassed (_ :: inner) l outer
        (hlevels.trans (congrArg (List.cons _) hlevels')) harm
      exact ⟨first, by rw [hsucc, hfirst, hinstr]; rfl⟩

/-- Some path comes to every position. -/
theorem exists_arrives (hctx : Context.of t o steps = .ok ctx) (hsteps : ∀ s ∈ steps, s.Genuine)
    (hi : i ≤ ctx.steps.length) : ∃ first, (ctx.pathTo first i).Arrives := by
  obtain ⟨h, -, ⟨first, htaken⟩, -⟩ := heights_induction (branches_of hctx)
    (endsFree_of_genuine (genuine_steps hctx hsteps)) 0 (P := fun j h => Open ctx j h.levels)
    ⟨⟨fun _ => true, rfl⟩, fun inner l outer hnil => by cases inner <;> cases hnil⟩
    (fun j s h h' hs _ hmoves ho => open_step hs hmoves ho) hi
  exact ⟨first, by rw [Path.Arrives, htaken, runs_taken]⟩

/-! ### The next write -/

/-- Whether, on every path, a name is written after a position before it is read again. -/
def LastRead (ctx : Context) (name : Name) (i : Nat) : Prop :=
  ∀ first v, i < v → (v, name) ∈ ctx.reads → (ctx.pathTo first v).Arrives →
    ∃ a, i < a ∧ a < v ∧ (a, name) ∈ ctx.assignments ∧ (ctx.pathTo first a).Arrives

/-- Whether a position is that of the first write of a name after another one. -/
def NextWrite (ctx : Context) (name : Name) (i a : Nat) : Prop :=
  i < a ∧ (a, name) ∈ ctx.assignments ∧ ∀ b, i < b → (b, name) ∈ ctx.assignments → a ≤ b

private theorem pairwise_occurrences (steps : List Step) (f : Instr → Option Name) (name : Name) :
    ((occurrences steps f).of name).Pairwise (· < ·) := by
  have hzip : steps.zipIdx.Pairwise fun p q => p.2 < q.2 := by
    apply List.pairwise_iff_getElem.mpr
    intro i j hi hj hij
    simpa only [List.getElem_zipIdx, Nat.zero_add] using hij
  rw [Occurrences.of, List.pairwise_filterMap, occurrences, List.pairwise_filterMap]
  apply hzip.imp
  intro p q hlt p' hp' q' hq' a ha b hb
  obtain ⟨x, -, rfl⟩ := Option.map_eq_some_iff.mp hp'
  obtain ⟨y, -, rfl⟩ := Option.map_eq_some_iff.mp hq'
  split at ha
  · cases ha
    split at hb
    · cases hb
      exact hlt
    · cases hb
  · cases ha

private theorem ne_of_read_of_write (hctx : Context.of t o steps = .ok ctx) {a v : Nat}
    {name : Name} (hv : (v, name) ∈ ctx.reads) (ha : (a, name) ∈ ctx.assignments) : a ≠ v := by
  obtain ⟨branches, -, rfl⟩ := of_cases hctx
  obtain ⟨s, hs, hread⟩ := mem_occurrences.mp hv
  obtain ⟨s', hs', hwrite⟩ := mem_occurrences.mp ha
  rintro rfl
  cases hs.symm.trans hs'
  rw [assigned?_iff.mp hwrite] at hread
  cases hread

/-- No read follows exactly if a write stands in front of every read that comes later in the text.
-/
theorem followingUses_eq_zero_iff (hctx : Context.of t o steps = .ok ctx) (name : Name) (i : Nat) :
    ctx.followingUses name i = 0 ↔
      ∀ v, i < v → (v, name) ∈ ctx.reads →
        ∃ a, i < a ∧ a < v ∧ (a, name) ∈ ctx.assignments := by
  have hsorted : (ctx.assignments.of name).Pairwise (· < ·) := by
    obtain ⟨branches, -, rfl⟩ := of_cases hctx
    exact pairwise_occurrences steps assigned? name
  rw [followingUses, List.length_eq_zero_iff, List.filter_eq_nil_iff]
  simp only [mem_occurrencesOf, Bool.and_eq_true, decide_eq_true_eq, not_and, Nat.not_lt]
  cases hfind : (ctx.assignments.of name).find? (i < ·) with
  | none =>
    -- nothing is written any more, so nothing may be read
    have hnone := List.find?_eq_none.mp hfind
    constructor
    · intro h v hiv hv
      exact absurd (lt_of_mem_reads hctx hv) (Nat.not_lt.mpr (h v hv hiv))
    · intro h v hv hiv
      obtain ⟨a, hia, -, ha⟩ := h v hiv hv
      exact absurd (decide_eq_true hia) (hnone a (mem_occurrencesOf.mpr ha))
  | some a =>
    obtain ⟨hia, front, back, hsplit, hfront⟩ := List.find?_eq_some_iff_append.mp hfind
    have ha : (a, name) ∈ ctx.assignments := by
      rw [← mem_occurrencesOf, hsplit]
      exact List.mem_append_right _ List.mem_cons_self
    constructor
    · intro h v hiv hv
      have hle : a ≤ v := h v hv hiv
      exact ⟨a, of_decide_eq_true hia, lt_of_le_of_ne hle (ne_of_read_of_write hctx hv ha), ha⟩
    · intro h v hv hiv
      obtain ⟨b, hib, hbv, hb⟩ := h v hiv hv
      rw [← mem_occurrencesOf, hsplit] at hb
      rw [hsplit, List.pairwise_append, List.pairwise_cons] at hsorted
      change a ≤ v
      rcases List.mem_append.mp hb with hb | hb
      · have := hfront b hb
        simp [hib] at this
      · rcases List.mem_cons.mp hb with rfl | hb
        · exact hbv.le
        · exact (hsorted.2.1.1 b hb).le.trans hbv.le

/-- If the next write of a name stands outside of all conditionals, then no read follows in the text
exactly if the name is written again, on every path, before it is read again. -/
theorem followingUses_eq_zero_iff_lastRead (hctx : Context.of t o steps = .ok ctx)
    (hsteps : ∀ s ∈ steps, s.Genuine) {name : Name} {i : Nat}
    (hnext : ∀ a, ctx.NextWrite name i a → ctx.nestLevel a = 0) :
    ctx.followingUses name i = 0 ↔ ctx.LastRead name i := by
  rw [followingUses_eq_zero_iff hctx]
  constructor
  · intro h first v hiv hv _
    obtain ⟨b, hib, hbv, hb⟩ := h v hiv hv
    have hexists : ∃ a, i < a ∧ (a, name) ∈ ctx.assignments := ⟨b, hib, hb⟩
    classical
    obtain ⟨hia, ha⟩ := Nat.find_spec hexists
    have hleast (b : Nat) (hib : i < b) (hb : (b, name) ∈ ctx.assignments) :
        Nat.find hexists ≤ b := Nat.find_min' hexists ⟨hib, hb⟩
    obtain ⟨s, hs, hinstr⟩ := (mem_assignments_iff hctx).mp ha
    refine ⟨Nat.find hexists, hia, (hleast b hib hb).trans_lt hbv, ha, ?_⟩
    apply arrives_of_nestLevel hctx hsteps hs ?_ (hnext _ ⟨hia, ha, hleast⟩)
    intro op hop
    cases hinstr.symm.trans hop
  · intro h v hiv hv
    -- some path comes to the read
    obtain ⟨first, hfirst⟩ := exists_arrives hctx hsteps (lt_of_mem_reads hctx hv).le
    obtain ⟨a, hia, hav, ha, -⟩ := h first v hiv hv hfirst
    exact ⟨a, hia, hav, ha⟩

/-- Writes a name, reads it, and writes it again. -/
def rewritten : Program where
  stack := [[99]]
  ops := [.push [7], .assign [120], .var [120], .op .opIf, .push [5], .op .opElse, .push [6],
    .op .opEndIf, .assign [120], .var [120]]

/-- A name that is read and then written again. -/
theorem followingUses_eq_zero_iff_lastRead_rewritten :
    ∃ ctx, Context.of (Table.ofProgram rewritten) {} (Step.ofList rewritten.ops) = .ok ctx ∧
      ctx.followingUses [120] 2 = 0 ∧ ctx.LastRead [120] 2 := by
  obtain ⟨ctx, hctx⟩ : ∃ ctx, Context.of (Table.ofProgram rewritten) {}
      (Step.ofList rewritten.ops) = .ok ctx := ⟨_, rfl⟩
  have htest : (Context.of (Table.ofProgram rewritten) {}
      (Step.ofList rewritten.ops)).toOption.map (fun ctx =>
        (ctx.followingUses [120] 2, ctx.assignments, ctx.nestLevel 8)) =
      some (0, [(1, [120]), (8, [120])], 0) := by cbv
  rw [hctx] at htest
  simp only [Except.toOption, Option.map_some, Option.some.injEq, Prod.mk.injEq] at htest
  obtain ⟨huses, hwrites, hnest⟩ := htest
  refine ⟨ctx, hctx, huses, ?_⟩
  apply (followingUses_eq_zero_iff_lastRead hctx (Step.genuine_ofList _) ?_).mp huses
  rintro a ⟨hlt, ha, -⟩
  rw [hwrites] at ha
  simp only [List.mem_cons, Prod.mk.injEq, and_true, List.not_mem_nil, or_false] at ha
  obtain rfl : a = 8 := by omega
  exact hnest

/-- Reads a name, writes it in one arm of a conditional, and reads it after that. -/
def writtenInOneArm : Program where
  stack := [[99]]
  ops := [.push [7], .assign [120], .var [120], .op .drop, .assume [99], .op .opIf, .push [5],
    .assign [120], .op .opEndIf, .var [120], .push [7], .op .equal]

/-- No read follows a read outside of all conditionals in the text up to the next write, but the
path that passes the write by reads the value again. -/
theorem not_lastRead_of_write_in_arm :
    ∃ ctx, Context.of (Table.ofProgram writtenInOneArm) {} (Step.ofList writtenInOneArm.ops) =
        .ok ctx ∧ (2, [120]) ∈ ctx.reads ∧ ctx.nestLevel 2 = 0 ∧ ctx.followingUses [120] 2 = 0 ∧
      ¬ ctx.LastRead [120] 2 := by
  obtain ⟨ctx, hctx⟩ : ∃ ctx, Context.of (Table.ofProgram writtenInOneArm) {}
      (Step.ofList writtenInOneArm.ops) = .ok ctx := ⟨_, rfl⟩
  have htest : (Context.of (Table.ofProgram writtenInOneArm) {}
      (Step.ofList writtenInOneArm.ops)).toOption.map (fun ctx =>
        (ctx.reads, ctx.assignments, ctx.nestLevel 2, ctx.followingUses [120] 2,
          decide (ctx.pathTo (fun _ => false) 9).Arrives,
          decide (ctx.pathTo (fun _ => false) 7).Arrives)) =
      some ([(2, [120]), (9, [120])], [(1, [120]), (7, [120])], 0, 0, true, false) := by cbv
  rw [hctx] at htest
  simp only [Except.toOption, Option.map_some, Option.some.injEq, Prod.mk.injEq,
    decide_eq_true_eq, decide_eq_false_iff_not] at htest
  obtain ⟨hreads, hwrites, hnest, huses, harrives, hpassed⟩ := htest
  refine ⟨ctx, hctx, by rw [hreads]; decide, hnest, huses, ?_⟩
  intro hlast
  obtain ⟨a, hlt, -, ha, hfirst⟩ :=
    hlast (fun _ => false) 9 (by decide) (by rw [hreads]; decide) harrives
  rw [hwrites] at ha
  simp only [List.mem_cons, Prod.mk.injEq, and_true, List.not_mem_nil, or_false] at ha
  obtain rfl : a = 7 := by omega
  exact hpassed hfirst

end Context

end NamedStack
