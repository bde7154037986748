import NamedStack.Proofs.Named.Passes
import NamedStack.Proofs.Peephole.Structural

/-!
# Resolving keeps the meaning of names

A structured program with names is resolved, whatever it reads and writes: each pass replaces a read
or drops a write, until no name is left. What the engine does with the result is what the program
with names means: it ends with the same expressions on top of what is left of the hidden items, and
it fails where the meaning fails.
-/

namespace NamedStack.Named

open Engine
open Session (InnerResult)

variable {p : Program} {s : Session} {o : Options} {code th rest : List Instr} {hidden : Hidden}
  {shape : Shape}

/-! ### One pass -/

/-- Whether a program is resolved to the end. -/
def Resolved (p : Program) (ops : List Instr) : Prop :=
  ∃ code hidden shape, Resolves p.stack p.ops p.ops code hidden shape [] ∧ ops = withoutWrites code

private theorem instrs_append (a b : List Step) :
    Step.instrs (a ++ b) = Step.instrs a ++ Step.instrs b :=
  List.map_append

private theorem run_splice (a b c new : List Step) (hsteps : s.steps = a ++ (b ++ c))
    (hfaithful : ∀ st ∈ s.steps, Faithful st) (hnew : ∀ st ∈ new, Faithful st)
    (hfewer : Measure.referencesList (Step.instrs new) < Measure.referencesList (Step.instrs b)) :
    ∃ s', (Session.splice a.length b.length new).run s = .ok () s' ∧
      Step.instrs s'.steps = Step.instrs a ++ (Step.instrs new ++ Step.instrs c) ∧
      (∀ st ∈ s'.steps, Faithful st) ∧ s'.table = s.table ∧ s'.slots = s.slots ∧
      s'.references < s.references := by
  refine ⟨_, rfl, ?_⟩
  have hreplaced : s.steps.take a.length ++ new ++ s.steps.drop (a.length + b.length) =
      a ++ (new ++ c) := by
    rw [hsteps, List.take_left, ← List.drop_drop, List.drop_left, List.drop_left, List.append_assoc]
  refine ⟨?_, fun st hst => ?_, rfl, rfl, ?_⟩
  · dsimp only
    rw [hreplaced, instrs_append, instrs_append]
  · dsimp only at hst
    rw [hreplaced] at hst
    rw [hsteps] at hfaithful
    simp only [List.mem_append] at hst hfaithful
    rcases hst with hst | hst | hst
    · exact hfaithful st (.inl hst)
    · exact hnew st hst
    · exact hfaithful st (.inr (.inr hst))
  · simp only [Session.references]
    rw [hreplaced, hsteps]
    simp only [instrs_append, Measure.referencesList_append]
    omega

namespace Progress

variable {back front : List Step}

private theorem drop_write (h : Progress p s code th rest hidden shape) {tail : List Step}
    {st : Step} {name : Name} (hsteps : s.steps = (front ++ st :: back) ++ tail)
    (hth : Step.instrs (front ++ st :: back) = th) (hst : st.instr = .assign name)
    (hname : ¬ ReadIn rest name) :
    ∃ s', (Session.splice front.length 1 []).run s = .ok () s' ∧
      (∃ th', Progress p s' code th' rest hidden shape) ∧ s'.references < s.references := by
  have htail : Step.instrs tail = rest := by
    have := h.instrs
    rw [hsteps, instrs_append, hth] at this
    exact List.append_cancel_left this
  have hsplit : th = Step.instrs front ++ .assign name :: Step.instrs back := by
    rw [← hth, instrs_append, ← hst]
    rfl
  have hfewer : Measure.referencesList (Step.instrs []) <
      Measure.referencesList (Step.instrs [st]) := by
    simp [Step.instrs, hst, Measure.referencesList, Measure.references]
  obtain ⟨s', hrun, hinstrs, hfaithful, htable, hslots, hlt⟩ := run_splice front [st]
    (back ++ tail) [] (by rw [hsteps]; simp) h.faithful (by simp) hfewer
  refine ⟨s', hrun, ⟨Step.instrs front ++ Step.instrs back, ?_, hfaithful, htable ▸ h.knows,
    hslots ▸ h.slots, h.resolves, ?_⟩, hlt⟩
  · rw [hinstrs, instrs_append, htail, List.append_assoc]
    rfl
  · exact (hsplit ▸ h.thins).drop_write hname

private theorem resolve_read (hp : Structured p) (h : Progress p s code th rest hidden shape)
    (hsteps : s.steps = front ++ back) (hth : Step.instrs front = th) {r : Session.Replacement}
    (hr : Resolvable shape hidden rest r) :
    ∃ s', (Session.splice front.length r.2 r.1).run s = .ok () s' ∧
      (∃ code' th' rest' hidden' shape', Progress p s' code' th' rest' hidden' shape') ∧
      s'.references < s.references := by
  obtain ⟨final, -, hfinal, -⟩ := h.exists_final hp
  obtain ⟨done, hres⟩ := h.resolves
  obtain ⟨hidden', hseg⟩ := hr.segment
  have hback : Step.instrs back = rest := by
    have := h.instrs
    rw [hsteps, instrs_append, hth] at this
    exact List.append_cancel_left this
  have htake : Step.instrs (back.take r.2) = rest.take r.2 := by
    rw [← hback]
    exact List.map_take
  have hdrop : Step.instrs (back.drop r.2) = rest.drop r.2 := by
    rw [← hback]
    exact List.map_drop
  have hlen : (back.take r.2).length = r.2 := by
    have hle := hr.le
    rw [← hback, Step.instrs, List.length_map] at hle
    exact List.length_take_of_le hle
  have hfewer : Measure.referencesList (Step.instrs r.1) <
      Measure.referencesList (Step.instrs (back.take r.2)) := by
    rw [hr.resolved, htake]
    cases hreads : rest.take r.2 with
    | nil =>
      have hnone := congrArg List.length hreads
      rw [List.length_take_of_le hr.le] at hnone
      exact absurd hr.pos (by simp [hnone])
    | cons i l =>
      obtain ⟨x, hx⟩ := hr.reads i (hreads ▸ List.mem_cons_self)
      rcases hx with rfl | rfl <;> simp [Measure.referencesList, Measure.references]
  obtain ⟨s', hrun, hinstrs, hfaithful, htable, hslots, hlt⟩ := run_splice front (back.take r.2)
    (back.drop r.2) r.1 (by rw [hsteps, List.take_append_drop]) h.faithful hr.faithful hfewer
  rw [hlen] at hrun
  rw [← List.take_append_drop r.2 rest] at hres hfinal
  rw [Shape.run, List.foldlM_append] at hfinal
  obtain ⟨shape', hshape, -⟩ := Option.bind_eq_some_iff.mp hfinal
  refine ⟨s', hrun, ⟨code ++ Step.instrs r.1, th ++ Step.instrs r.1, rest.drop r.2, hidden',
    shape', ?_, hfaithful, htable ▸ h.knows, hslots ▸ h.slots, ⟨_, hres.step hseg hshape⟩, ?_⟩, hlt⟩
  · rw [hinstrs, hth, hdrop, List.append_assoc]
  · refine (h.thins.mono ?_).append (.refl _)
    rintro x ⟨j, hj, hx⟩
    exact ⟨j, List.mem_of_mem_drop hj, hx⟩

end Progress

/-- Whether a session is on the way to resolve a program. -/
def InProgress (p : Program) (s : Session) : Prop :=
  ∃ code th rest hidden shape, Progress p s code th rest hidden shape

private theorem withoutWrites_thins {K : Name → Prop} (h : Thins K code th) :
    withoutWrites th = withoutWrites code := by
  induction h with
  | nil => rfl
  | keep i _ ih =>
    cases i <;> simpa [withoutWrites] using ih
  | drop _ _ ih => simpa [withoutWrites] using ih

private theorem Progress.resolved (h : Progress p s code th [] hidden shape)
    (hwrites : ∀ x, .assign x ∉ th) : Resolved p (Step.instrs s.steps) := by
  obtain ⟨done, hres⟩ := h.resolves
  have hdone := hres.append_eq
  rw [List.append_nil] at hdone
  subst hdone
  refine ⟨code, hidden, shape, hres, ?_⟩
  rw [h.instrs, List.append_nil, ← withoutWrites_thins h.thins, withoutWrites,
    List.filter_eq_self.mpr]
  intro i hi
  cases i with
  | assign x => exact absurd hi (hwrites x)
  | _ => rfl

private theorem Progress.mem_of_read (hp : Structured p) {i : Instr} {name : Name}
    {tail : List Instr} (h : Progress p s code th (i :: tail) hidden shape) (hi : IsRead i name) :
    name ∈ p.stack ∨ name ∈ shape.written ∧ name ∈ writes p.ops := by
  obtain ⟨final, hfinal, hshape, -⟩ := h.exists_final hp
  obtain ⟨mid, hmid, -⟩ := Option.bind_eq_some_iff.mp hshape
  have hknown := (known_of_read hfinal (h.mem_ops List.mem_cons_self) hi).1
  rcases (Shape.step_read hi hmid).2.1 with hstack | hwritten
  · exact .inl hstack
  · exact (List.mem_append.mp hknown).imp id fun hw => ⟨hwritten, hw⟩

private theorem Progress.exists_machine (hp : Structured p)
    (h : Progress p s code th rest hidden shape) {ctx : Context} (hv : Views p.stack ctx)
    (hsteps : ctx.steps = s.steps) :
    ∃ m, (Machine.start ctx.stack).run (ctx.steps.take th.length) = .ok m := by
  obtain ⟨done, hres⟩ := h.resolves
  obtain ⟨m, below, hm, -⟩ := hres.tracks (h.not_readIn_nil hp) h.thins hp.bounded
  refine ⟨m, ?_⟩
  rw [run_eq_of_faithful fun st hst => hv.faithful st (List.mem_of_mem_take hst),
    instrs_take, hsteps, h.instrs, List.take_left, hv.stack_eq]
  exact hm

private theorem run_pass (hp : Structured p) (ho : o.allowInvalidComparisons = true)
    (inner : InnerResult) (h : InProgress p s) :
    (∃ s', (Session.pass inner o none).run s = .ok false s' ∧ Resolved p (Step.instrs s'.steps)) ∨
      ∃ s', (Session.pass inner o none).run s = .ok true s' ∧ InProgress p s' ∧
        s'.references < s.references := by
  obtain ⟨code₀, th₀, rest₀, hidden₀, shape₀, h₀⟩ := h
  have hstart : Progress p (s.optimized none) code₀ th₀ rest₀ hidden₀ shape₀ :=
    ⟨h₀.instrs, h₀.faithful, h₀.knows, h₀.slots, h₀.resolves, h₀.thins⟩
  obtain ⟨ctx, s₁, hctx, hv, hsteps, h₁⟩ := hstart.exists_context hp ho
  have hreferences : s₁.references = s.references := by
    rw [Session.references, Session.references, h₁.instrs, h₀.instrs]
  obtain ⟨code, th, rest, hidden, shape, h, hrest⟩ := h₁.exists_read hp
  obtain ⟨m, hm⟩ := h.exists_machine hp hv hsteps
  obtain ⟨front, back, hsplit, hfront, hback⟩ : ∃ front back, s₁.steps = front ++ back ∧
      Step.instrs front = th ∧ Step.instrs back = rest := List.map_eq_append_iff.mp h.instrs
  have hlen : th.length = front.length := by rw [← hfront, Step.instrs, List.length_map]
  rw [hsteps, hsplit, hlen, List.take_left] at hm
  have hcode : ∀ st ∈ front, IsCode st.instr := fun st hst =>
    h.isCode (hfront ▸ List.mem_map_of_mem hst)
  rcases scanned_code inner hv h.slots [] front hcode (hsteps.trans hsplit) hm with
    ⟨l₁, st, l₂, name, rfl, hassign, hread, hfirst⟩ | ⟨hwrites, hfirst⟩
  · -- a write that is not read any more
    obtain ⟨s₂, hsplice, ⟨th', h'⟩, hlt⟩ := h.drop_write hsplit hfront hassign (hback ▸ hread)
    refine .inr ⟨s₂, Session.run_pass_some (r := ([], 1)) hctx ?_ hsplice,
      ⟨code, th', rest, hidden, shape, h'⟩, by omega⟩
    rw [hsteps, hsplit]
    exact hfirst
  · rw [List.nil_append] at hfirst
    rcases hrest with rfl | ⟨i, name, tail, rfl, hi⟩
    · -- no read is left, and so no write
      obtain rfl : back = [] := List.map_eq_nil_iff.mp hback
      refine .inl ⟨s₁, Session.run_pass_none hctx ?_, ?_⟩
      · rw [hsteps, hsplit]
        exact hfirst
      · refine h.resolved fun x hx => ?_
        rw [← hfront] at hx
        obtain ⟨st, hst, hassign⟩ := List.mem_map.mp hx
        obtain ⟨_, hnone, -⟩ := hwrites st hst x hassign
        cases hnone
    · -- the first read is replaced
      obtain ⟨st, back, rfl⟩ : ∃ st back', back = st :: back' := by
        cases back with
        | nil => cases hback
        | cons st back => exact ⟨st, back, rfl⟩
      obtain ⟨hst, -⟩ := List.cons.inj hback
      obtain ⟨m', hat⟩ := h.atRead hp hi hv hsteps
      have hmem : st ∈ ctx.steps := by
        rw [hsteps, hsplit]
        exact List.mem_append_right _ List.mem_cons_self
      obtain ⟨r, hvisit, hr⟩ := hat.run_visit inner h.knows h.slots hi (h.mem_of_read hp hi)
        (by rw [hsteps]; exact h.mem_stack hp) hst hmem
      obtain ⟨s₂, hsplice, hprogress, hlt⟩ := h.resolve_read hp hsplit hfront hr
      refine .inr ⟨s₂, Session.run_pass_some hctx ?_ hsplice, hprogress, by omega⟩
      rw [hlen] at hvisit
      rw [hsteps, hsplit]
      exact hfirst.trans (run_firstReplacement_some hvisit)

/-! ### All passes -/

private theorem faithful_mark {steps : List Step} (h : ∀ st ∈ steps, Faithful st)
    (ds : List Duplicate) :
    (∀ st ∈ Session.markDuplicates ds steps, Faithful st) ∧
      Step.instrs (Session.markDuplicates ds steps) = Step.instrs steps := by
  constructor
  · intro st hst
    obtain ⟨⟨st', i⟩, hmem, rfl⟩ := List.mem_map.mp hst
    have := h st' (List.mem_of_getElem? (List.mem_zipIdx_iff_getElem?.mp hmem))
    exact ⟨this.steady, this.delta, this.args⟩
  · rw [Session.markDuplicates, Step.instrs, List.map_map]
    change steps.zipIdx.map ((·.instr) ∘ Prod.fst) = _
    rw [← List.map_map, List.zipIdx_map_fst]
    rfl

private theorem run_route (hp : Structured p) (ho : o.allowInvalidComparisons = true) :
    ∃ s', (Session.route o).run { steps := Step.ofList p.ops, table := Table.ofProgram p } =
      .ok () s' ∧ InProgress p s' := by
  obtain ⟨final, hfinal, harms⟩ := Option.map_eq_some_iff.mp hp.shaped
  have hknows := (Table.knows_ofProgram hp.functions).bindAssigned (Step.ofList p.ops)
  rw [Step.instrs_ofList, List.append_nil] at hknows
  have hmem {st : Step} (hst : st ∈ Step.ofList p.ops) : st.instr ∈ p.ops ∧ st = .of st.instr := by
    obtain ⟨i, hi, rfl⟩ := List.mem_map.mp hst
    exact ⟨hi, rfl⟩
  have hfaithful : ∀ st ∈ Step.ofList p.ops, Faithful st := fun st hst => by
    rw [(hmem hst).2]
    exact faithful_of (instr_cases hfinal (hmem hst).1).1
  obtain ⟨h, count, hrun, habove⟩ := (above_start p.stack).run hfinal
  obtain ⟨ctx, hctx, hv, hinstrs⟩ := exists_context hknows ho hfaithful
    (fun st hst name hname => (known_of_read hfinal (hmem hst).1 (.inl hname)).2 hname) hrun
    (by rw [habove.levels, harms]; rfl)
  rw [Step.instrs_ofList] at hinstrs
  obtain ⟨hmarked, hinstrs'⟩ := faithful_mark hv.faithful ctx.duplicates
  refine ⟨_, Session.run_route (Session.run_currentContext hctx)
    (hv.routing_eq (by rw [hinstrs]; exact hfinal) _ _), ?_⟩
  exact ⟨[], [], p.ops, p.stack.reverse.map some, {}, hinstrs'.trans hinstrs, hmarked,
    hknows.recordAssigned _, rfl, ⟨[], .start⟩, .nil⟩

private theorem isCall_eq_false (hp : Structured p) {st : Step} (hst : st ∈ Step.ofList p.ops) :
    st.instr.isCall = false := by
  obtain ⟨final, hfinal, -⟩ := Option.map_eq_some_iff.mp hp.shaped
  obtain ⟨i, hi, rfl⟩ := List.mem_map.mp hst
  rcases (instr_cases hfinal hi).2 with hcode | ⟨x, rfl | rfl⟩
  · cases i <;> first | rfl | cases hcode
  · rfl
  · rfl

/-- A structured program is resolved without a failure. -/
theorem resolve_succeeds (hp : Structured p) (ho : o.allowInvalidComparisons = true) :
    ∃ s, resolve (Table.ofProgram p) o none p.ops = { session := s, failure := none } ∧
      Resolved p (Step.instrs s.steps) := by
  obtain ⟨s, hroute, hs⟩ := run_route hp ho
  have hcalls : (Session.expandCalls o 0).run
      { steps := Step.ofList p.ops, table := Table.ofProgram p } = .ok () _ :=
    Session.run_expandCalls fun _ => isCall_eq_false hp
  have hdeep (inner : InnerResult) : ∃ s', (Session.resolveWith inner o none 0).run
      { steps := Step.ofList p.ops, table := Table.ofProgram p } = .ok () s' ∧
        Resolved p (Step.instrs s'.steps) := by
    obtain ⟨s', hresolve, hdone⟩ := Session.run_resolve (fun _ => run_pass hp ho inner) hs
      (Nat.lt_succ_self _)
    refine ⟨s', ?_, hdone⟩
    rw [Session.resolveWith, Session.run_bind_ok hcalls, Session.run_bind_ok hroute]
    exact hresolve
  obtain ⟨s', hrun, hdone⟩ : ∃ s', (Session.resolveDeep o none 0
      (Measure.scriptDepth (Table.ofProgram p) p.ops)).run
      { steps := Step.ofList p.ops, table := Table.ofProgram p } = .ok () s' ∧
        Resolved p (Step.instrs s'.steps) := by
    cases Measure.scriptDepth (Table.ofProgram p) p.ops <;> exact hdeep _
  exact ⟨s', resolveWithin_eq_iff.mpr hrun, hdone⟩

/-! ### What the engine does -/

variable {items : Stack} {ops : List Instr}

private theorem matches_start (hn : p.stack.Nodup) (hlen : items.length = p.stack.length) :
    Matches {} (p.stack.reverse.map some) { main := [], store := initial p.stack items } items := by
  refine ⟨.outside, List.forall₂_map_left_iff.mpr (List.forall₂_iff_zip.mpr ⟨?_, ?_⟩), nofun⟩
  · rw [List.length_reverse, hlen]
  · intro x v hv y hy
    cases hy
    simp only [initial, lookup_zip (List.nodup_reverse.mpr hn) hv, Option.getD_some]

private theorem Resolved.isScript (h : Resolved p ops) :
    ∀ i ∈ ops, (∃ o, i = .op o) ∨ ∃ data, i = .push data := by
  obtain ⟨code, hidden, shape, hres, rfl⟩ := h
  intro i hi
  obtain ⟨hmem, hwrite⟩ := List.mem_filter.mp hi
  have hcode := hres.isCode hmem
  cases i with
  | op o => exact .inl ⟨o, rfl⟩
  | push data => exact .inr ⟨data, rfl⟩
  | assign => cases hwrite
  | assume | var | call | inner => cases hcode

/-- What running a script comes to, where a program with names means something: it exceeds a limit,
or ends with the expressions of the program on top of what is left of the initial stack; it fails
where the program fails. -/
def Realizes (meaning : Except ExecError State) (ran : Except ExecError Engine.State) : Prop :=
  match meaning with
  | .ok r => ran = .error .limitExceeded ∨
      ∃ t below, ran = .ok t ∧ t.main = r.main ++ below ∧ t.alt = []
  | .error _ => ∃ e, ran = .error e

private theorem Resolved.realizes (hp : Structured p) (h : Resolved p ops) {script : Bytes}
    (hs : Script.serialize ops = .ok script) (valid : Checker)
    (hlen : items.length = p.stack.length) :
    Realizes (runProgram valid p items) (runFrom valid items [] script) := by
  obtain ⟨code, hidden, shape, hres, rfl⟩ := h
  obtain ⟨ps, hps, rfl, hl, hf⟩ := (Script.serialize_eq_ok_iff _ script).mp hs
  have harms : shape.arms = [] := by
    have hshaped := hp.shaped
    rw [hres.shape_eq] at hshaped
    exact Option.some.inj hshaped
  have hfollows : Follows valid shape hidden _ items p.ops ps :=
    hres.follows hps (matches_start hp.distinct hlen)
  have hrun : runFrom valid items [] (Script.forms ps) =
      complete valid { main := items } (ps.map Script.Piece.token) := by
    rw [runFrom, load_forms ps hf hl]
    rfl
  rw [hrun, complete, runProgram]
  unfold Follows at hfollows
  cases hmeans : run valid { main := [], store := initial p.stack items } p.ops with
  | error e =>
    rw [hmeans] at hfollows
    obtain ⟨e, he⟩ := hfollows 0
    refine ⟨e, ?_⟩
    change (Engine.run valid { main := items } _).bind _ = _
    rw [show Engine.run valid { main := items } _ = _ from he]
    rfl
  | ok r =>
    rw [hmeans] at hfollows
    obtain ⟨below, hm, halt, hleads⟩ := hfollows
    have hconds : r.conds = [] := by
      have hfits := hm.fits
      rw [harms] at hfits
      exact hfits.conds_eq_nil
    rcases hleads 0 with hlimit | ⟨k, hend⟩
    · refine .inl ?_
      change (Engine.run valid { main := items } _).bind _ = _
      rw [show Engine.run valid { main := items } _ = _ from hlimit]
      rfl
    · refine .inr ⟨{ r.above below with ops := k }, below, ?_, rfl, halt⟩
      change (Engine.run valid { main := items } _).bind _ = _
      rw [show Engine.run valid { main := items } _ = _ from hend]
      exact if_pos hconds

/-- Resolving a structured program succeeds and leaves opcodes and data only. The script of the
result does on every initial stack what the program with names means. -/
theorem resolve_realizes_meaning (hp : Structured p) (ho : o.allowInvalidComparisons = true) :
    ∃ s, resolve (Table.ofProgram p) o none p.ops = { session := s, failure := none } ∧
      (∀ st ∈ s.steps, (∃ op, st.instr = .op op) ∨ ∃ data, st.instr = .push data) ∧
      ∀ script, Script.serialize (Step.instrs s.steps) = .ok script →
        ∀ (valid : Checker) (items : Stack), items.length = p.stack.length →
          Realizes (runProgram valid p items) (runFrom valid items [] script) := by
  obtain ⟨s, hrun, hdone⟩ := resolve_succeeds hp ho
  refine ⟨s, hrun, fun st hst => hdone.isScript _ (List.mem_map_of_mem hst), ?_⟩
  intro script hs valid items hlen
  exact hdone.realizes hp hs valid hlen

/-- Moves two items, and copies another one to each arm of a conditional. -/
def twoArms : Program where
  stack := [[97], [98], [99]]
  ops := [.assume [98], .assign [120], .assume [99], .op .opIf, .var [120], .op .opElse,
    .assume [97], .op .opEndIf, .var [120], .op (.binary .add)]

/-- A conditional with two arms. -/
theorem resolve_realizes_meaning_two_arms :
    Structured twoArms ∧
      (runProgram .none twoArms [[1], [2], [3]]).map (·.main) = .ok [[4]] ∧
      ∃ s, resolve (Table.ofProgram twoArms) { allowInvalidComparisons := true } none twoArms.ops =
          { session := s, failure := none } ∧
        Script.serialize (Step.instrs s.steps) =
          .ok [81, 122, 81, 122, 99, 0, 121, 103, 81, 121, 104, 81, 122, 147] ∧
        Realizes (runProgram .none twoArms [[1], [2], [3]]) (runFrom .none [[1], [2], [3]] []
          [81, 122, 81, 122, 99, 0, 121, 103, 81, 121, 104, 81, 122, 147]) := by
  have hp : Structured twoArms := ⟨rfl, by decide, by decide, by decide, by decide⟩
  obtain ⟨s, hs, -, hrealizes⟩ := resolve_realizes_meaning hp
    (show ({ allowInvalidComparisons := true } : Options).allowInvalidComparisons = true from rfl)
  have hscript : Script.serialize (Step.instrs (resolve (Table.ofProgram twoArms)
      { allowInvalidComparisons := true } none twoArms.ops).session.steps) =
      .ok [81, 122, 81, 122, 99, 0, 121, 103, 81, 121, 104, 81, 122, 147] := by cbv
  rw [hs] at hscript
  exact ⟨hp, by cbv, s, hs, hscript, hrealizes _ hscript .none _ rfl⟩

end NamedStack.Named
