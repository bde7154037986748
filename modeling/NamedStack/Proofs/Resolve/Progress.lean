import NamedStack.Proofs.Resolve.NoReference
import NamedStack.Proofs.Resolve.Unfolding

/-!
# What a pass does to a program

A pass that replaces something puts a content or an expansion in place, code in the place of reads
or of a write, or a settled inner script in the place of another one. So fewer references can still
come up after it, or as many and inner scripts are lighter. A pass that replaces nothing has found
no reference at any depth.
-/

namespace NamedStack.Session

open NamedStack.Measure
open Peephole (Reduces openings weight)

variable {s s' : Session} {o : Options} {t : Table} {d n : Nat}

/-! ### Bounds on a session -/

/-- Whether names stand for what they stand for in a table, but for variables, and inner scripts are
nested no deeper than so in all that comes up. -/
structure Bounded (t : Table) (n : Nat) (s : Session) : Prop where
  agrees : t.Agrees s.table
  definitions : s.table.definitions = t.definitions
  steps : ∃ k, Unfolds t.unfold (Expand.depth t) n (Step.instrs s.steps) k

namespace Bounded

variable (hs : s.Bounded t n)

include hs

/-- The same is put in place as in the table. -/
theorem unfold_eq : s.table.unfold = t.unfold :=
  Table.unfold_congr hs.agrees hs.definitions

/-- A call adds as many levels as in the table. -/
theorem depth_eq : Expand.depth s.table = Expand.depth t :=
  Expand.depth_congr hs.definitions

/-- Finding the context of a program makes no difference. -/
theorem of_currentContext {ctx : Context} (h : (currentContext o).run s = .ok ctx s') :
    s'.Bounded t n := by
  obtain ⟨-, -, htable, -⟩ := of_run_currentContext h
  have hextends : s.table.Extends (fun _ => True) s'.table := by
    rw [htable]
    exact ((Table.Extends.refl _ s.table).bindAssigned fun _ _ => trivial).recordAssigned _
  refine ⟨fun _ _ hsym => (hs.agrees hsym).trans (hextends.agrees hsym), ?_, ?_⟩
  · rw [htable, Table.definitions_recordAssigned, Table.definitions_bindAssigned, hs.definitions]
  · rw [instrs_of_run_currentContext h]
    exact hs.steps

/-- Finding the context of a program ends. -/
theorem ends_currentContext : Ends (currentContext o) s fun _ => Bounded t n :=
  Ends.imp (Session.ends_currentContext o s) fun _ _ h _ => hs.of_currentContext h

/-- Putting a program in the place of steps ends. -/
theorem ends_splice (i k : Nat) {new : List Step}
    (hnew : ∃ m, Unfolds t.unfold (Expand.depth t) n (Step.instrs new) m) :
    Ends (splice i k new) s fun _ => Bounded t n := by
  refine ⟨hs.agrees, hs.definitions, exists_unfolds_of_mem fun instr hinstr => ?_⟩
  obtain ⟨_, hsteps⟩ := hs.steps
  obtain ⟨_, hnew⟩ := hnew
  have hof {ops : List Instr} {k : Nat} (h : Unfolds t.unfold (Expand.depth t) n ops k)
      (hmem : instr ∈ ops) : nesting (Expand.depth t) instr ≤ n ∧
        ∃ m, Unfolds t.unfold (Expand.depth t) n (t.unfold instr) m :=
    (h.of_mem hmem).imp id fun ⟨m, hm, _⟩ => ⟨m, hm⟩
  obtain ⟨st, hst, rfl⟩ := List.mem_map.mp hinstr
  rcases List.mem_append.mp hst with hst | hst
  · rcases List.mem_append.mp hst with hst | hst
    · exact hof hsteps (List.mem_map_of_mem (List.mem_of_mem_take hst))
    · exact hof hnew (List.mem_map_of_mem hst)
  · exact hof hsteps (List.mem_map_of_mem (List.mem_of_mem_drop hst))

/-- Expanding a call ends, and its expansion is what is put in its place. -/
theorem ends_expandCall (i : Nat) (name : Name) (args : List (List Instr)) :
    Ends (expandCall i name args) s fun r s' =>
      s' = s ∧ r = (Step.ofList (t.unfold (.call name args)), 1) := by
  have hcall := Expand.gives_call_true s.table name args
  rw [← hs.unfold_eq, Table.unfold]
  refine Leads.get_bind ?_
  cases hout : Expand.call s.table name args with
  | ok ops => exact ⟨rfl, rfl⟩
  | error f =>
    rw [hout] at hcall
    exact hcall.note _

end Bounded

/-! ### What a pass replaces -/

/-- Whether a program without references has come out of another one, and is the same or weighs less
if that one had none either. -/
structure Settled (ops ops' : List Instr) : Prop where
  references : referencesList ops' = 0
  lighter : referencesList ops = 0 → ops' = ops ∨ potential (.inner ops') < potential (.inner ops)

/-- Whether inner scripts that are nested no deeper than so are settled. -/
def SettlesInner (d n : Nat) (inner : InnerResult) : Prop :=
  ∀ ops s, nesting d (.inner ops) ≤ n → Expand.depth s.table = d →
    Ends (inner ops) s fun r s' => s.Keeps s' ∧
      ∀ new, r = some new → ∃ ops', new = ([Step.of (.inner ops')], 1) ∧ ops' ≠ ops ∧
        Settled ops ops' ∧ nesting d (.inner ops') ≤ n

/-- What a pass may put in place of instructions that stand next to each other. -/
inductive Change (t : Table) (n : Nat) : List Instr → List Instr → Prop
  | code {old new : List Instr} (hne : old ≠ []) (hold : ∀ i ∈ old, IsAccess i)
      (hnew : ∀ i ∈ new, Straight i) : Change t n old new
  | inner {ops ops' : List Instr} (hne : ops' ≠ ops) (hsettled : Settled ops ops')
      (hnesting : nesting (Expand.depth t) (.inner ops') ≤ n) :
      Change t n [.inner ops] [.inner ops']
  | unfold {i : Instr} (hi : 0 < Measure.references i) : Change t n [i] (t.unfold i)

/-- Whether fewer references can come up in a program than in another one where so many come up, or
as many and inner scripts are lighter in a program that is otherwise no lighter. -/
def Progress (t : Table) (n k : Nat) (old new : List Instr) : Prop :=
  ∃ k', Unfolds t.unfold (Expand.depth t) n new k' ∧ (k' < k ∨
    k' = k ∧ potentialList new < potentialList old ∧ weight new = weight old)

private theorem isOpen_of_straight {i : Instr} (h : Straight i) : i.isOpen = false := by
  cases i with
  | op | push => rfl
  | _ => cases h

variable {ops : List Instr} {i : Nat} {st : Step}

/-- In code nothing comes up. -/
theorem unfolds_of_straight (h : ∀ i ∈ ops, Straight i) : Unfolds t.unfold d n ops 0 := by
  have hnone : openings ops = [] := List.filter_eq_nil_iff.mpr fun i hi => by
    rw [isOpen_of_straight (h i hi)]
    exact Bool.false_ne_true
  refine (Unfolds.openings_iff fun i => Table.unfold_of_references).mp ?_
  rw [hnone]
  exact .nil

namespace Change

variable {old new : List Instr}

private theorem weight_inner (front back ops ops' : List Instr) :
    weight (front ++ ([.inner ops'] ++ back)) = weight (front ++ ([.inner ops] ++ back)) := by
  have hbulk : Peephole.bulk [.inner ops'] = Peephole.bulk [.inner ops] := rfl
  have hlate : Peephole.ReturnsLate (front ++ ([.inner ops'] ++ back)) ↔
      Peephole.ReturnsLate (front ++ ([.inner ops] ++ back)) := by
    cases front with
    | nil => exact Iff.rfl
    | cons i front => simp [Peephole.ReturnsLate]
  simp only [weight, Peephole.bulk_append, hbulk, hlate]

variable {k : Nat}

private theorem unfolds_inner_iff :
    Unfolds t.unfold d n [.inner ops] k ↔ nesting d (.inner ops) ≤ n ∧ k = referencesList ops := by
  have hown : own (.inner ops) = referencesList ops := by
    rw [own_of_isCall rfl, Measure.references]
  constructor
  · intro h
    cases h with
    | cons hnesting hfront hback =>
      rw [hfront.eq_zero_of_nil, hback.eq_zero_of_nil]
      exact ⟨hnesting, hown⟩
  · rintro ⟨hnesting, rfl⟩
    have hnone : Unfolds t.unfold d n (t.unfold (.inner ops)) 0 := .nil
    rw [← hown]
    exact .cons hnesting hnone .nil

/-- A change is progress, wherever it is made. -/
theorem progress (h : Change t n old new) (front back : List Instr)
    (hk : Unfolds t.unfold (Expand.depth t) n (front ++ (old ++ back)) k) :
    Progress t n k (front ++ (old ++ back)) (front ++ (new ++ back)) := by
  obtain ⟨f, m, rfl, hfront, hrest⟩ := hk.of_append
  obtain ⟨j, b, rfl, hold, hback⟩ := hrest.of_append
  -- it is enough to look at what is replaced
  have hless {j' : Nat} (hnew : Unfolds t.unfold (Expand.depth t) n new j') (hj : j' < j) :
      Progress t n (f + (j + b)) (front ++ (old ++ back)) (front ++ (new ++ back)) :=
    ⟨_, hfront.append (hnew.append hback), .inl (by omega)⟩
  cases h with
  | code hne haccess hnew =>
    refine hless (unfolds_of_straight hnew) ?_
    obtain ⟨i, hi⟩ := List.exists_mem_of_ne_nil old hne
    obtain ⟨-, _, -, hle⟩ := hold.of_mem hi
    obtain ⟨name, rfl | rfl | rfl⟩ := haccess i hi <;>
      rw [own_of_isCall rfl, Measure.references] at hle <;> omega
  | @inner ops ops' hne hsettled hnesting =>
    obtain ⟨-, rfl⟩ := unfolds_inner_iff.mp hold
    have hzero := hsettled.references
    have hnew : Unfolds t.unfold (Expand.depth t) n [.inner ops'] 0 :=
      unfolds_inner_iff.mpr ⟨hnesting, hzero.symm⟩
    by_cases hops : referencesList ops = 0
    · have hlt := (hsettled.lighter hops).resolve_left hne
      refine ⟨_, hfront.append (hnew.append hback), .inr ⟨by omega, ?_, weight_inner ..⟩⟩
      simp only [potentialList_append, potentialList]
      omega
    · exact hless hnew (Nat.pos_of_ne_zero hops)
  | @unfold i hi =>
    cases hold with
    | cons _ hunfold hnil =>
      refine hless hunfold ?_
      have hown : own i ≠ 0 := fun hzero => hi.ne' (own_eq_zero_iff.mp hzero)
      omega

end Change

variable {ctx : Context} {inner : InnerResult}

private theorem change_of_replaces {slots : List Name} {r : Replacement}
    (h : Replaces ctx slots i st.instr r) (hst : ctx.steps[i]? = some st)
    (haccess : IsAccess st.instr) (hcode : IsCode r.1) :
    Change t n (Step.instrs ((ctx.steps.drop i).take r.2)) (Step.instrs r.1) := by
  cases h with
  | code =>
    rw [Step.take_one_drop hst]
    exact .code (List.cons_ne_nil _ _) (by simpa [Step.instrs] using haccess) hcode.straight
  | @elides k _ hpos hk hreads =>
    refine .code ?_ (fun instr hinstr => ?_) (List.forall_mem_nil _)
    · rw [← List.length_pos_iff, Step.instrs, List.length_map, List.length_take_of_le hk]
      exact hpos
    · obtain ⟨st', hst', rfl⟩ := List.mem_map.mp hinstr
      obtain ⟨name, hname⟩ := hreads st' hst'
      exact ⟨name, .inl hname⟩

private theorem ends_visit (hinner : SettlesInner (Expand.depth t) n inner) (hs : s.Bounded t n)
    (hst : ctx.steps[i]? = some st) (hnesting : nesting (Expand.depth t) st.instr ≤ n) :
    Ends (visit inner ctx i st) s fun r s' => s.Keeps s' ∧ ∀ new, r = some new →
      Change t n (Step.instrs ((ctx.steps.drop i).take new.2)) (Step.instrs new.1) := by
  have hone : Step.instrs ((ctx.steps.drop i).take 1) = [st.instr] := by
    rw [Step.take_one_drop hst]
    rfl
  refine (leads_visit inner ctx i st s).imp (fun r s' _ h => ?_) fun f s' _ h => ?_
  · generalize hi : st.instr = instr at h hone hnesting
    have hunfold {ops : List Instr} (hreferences : 0 < Measure.references instr)
        (hops : t.unfold instr = ops) : s.Keeps s ∧ ∀ new, some (Step.ofList ops, 1) = some new →
          Change t n (Step.instrs ((ctx.steps.drop i).take new.2)) (Step.instrs new.1) := by
      refine ⟨.refl s, ?_⟩
      rintro _ ⟨⟩
      rw [hone, Step.instrs_ofList, ← hops]
      exact .unfold hreferences
    cases h with
    | code hkeeps haccess hreplaces hcode =>
      refine ⟨hkeeps, ?_⟩
      rintro _ ⟨⟩
      exact change_of_replaces (hi ▸ hreplaces) hst (hi ▸ haccess) hcode
    | @content name sname ops hlookup =>
      refine hunfold (by rw [Measure.references]; omega) ?_
      rw [← hs.unfold_eq, Table.unfold, Table.content?_eq_some_iff.mpr ⟨sname, hlookup⟩]
      rfl
    | call hcall =>
      refine hunfold (by rw [Measure.references]; omega) ?_
      rw [← hs.unfold_eq, Table.unfold, hcall]
      rfl
    | inner hrun =>
      have hsettles := (leads_iff.mp (hinner _ s hnesting hs.depth_eq)).1 r s' hrun
      refine ⟨hsettles.1, fun new hnew => ?_⟩
      obtain ⟨ops', rfl, hne, hsettled, hnesting'⟩ := hsettles.2 new hnew
      rw [hone]
      exact .inner hne hsettled hnesting'
    | kept | plain => exact ⟨.refl s, fun new hnew => by cases hnew⟩
  · generalize st.instr = instr at h hnesting
    cases h with
    | regular hregular => exact hregular
    | @call name args f hcall =>
      have hgives := Expand.gives_call_true s.table name args
      rw [hcall] at hgives
      exact hgives.note _
    | inner hrun => exact (leads_iff.mp (hinner _ s hnesting hs.depth_eq)).2 f s' hrun

/-- What is kept of a session keeps it within its bounds. -/
theorem Bounded.of_keeps (hs : s.Bounded t n) (h : s.Keeps s') : s'.Bounded t n :=
  ⟨h.table ▸ hs.agrees, h.table ▸ hs.definitions, h.steps ▸ hs.steps⟩

/-! ### One pass -/

variable {opt : Option Peephole.Optimizer}

/-- What a pass does to the optimized program: one change, or nothing if it has no reference. -/
inductive Effect (t : Table) (n : Nat) : List Instr → List Instr → Bool → Prop
  | change {old new : List Instr} (h : Change t n old new) (front back : List Instr) :
      Effect t n (front ++ (old ++ back)) (front ++ (new ++ back)) true
  | nothing {ops : List Instr} (h : referencesList ops = 0) : Effect t n ops ops false

/-- What has become of a session by a pass. -/
structure Passed (t : Table) (n : Nat) (s s' : Session) (b : Bool) : Prop extends
    Bounded t n s' where
  effect : ∃ ops, Reduces (Step.instrs s.steps) ops ∧ Effect t n ops (Step.instrs s'.steps) b

private theorem reduces_optimized (opt : Option Peephole.Optimizer) (s : Session) :
    Reduces (Step.instrs s.steps) (Step.instrs (s.optimized opt).steps) := by
  cases opt with
  | none => exact .refl _
  | some opt => exact opt.run_reduces s.steps

private theorem unfolds_of_reduces {ops' : List Instr} (h : Reduces ops ops') {k : Nat} :
    Unfolds t.unfold d n ops' k ↔ Unfolds t.unfold d n ops k := by
  have hopenings (ops : List Instr) :
      Unfolds t.unfold d n (openings ops) k ↔ Unfolds t.unfold d n ops k :=
    Unfolds.openings_iff fun _ => Table.unfold_of_references
  rw [← hopenings ops', h.openings_eq, hopenings ops]

private theorem Bounded.optimized (hs : s.Bounded t n) (opt : Option Peephole.Optimizer) :
    (s.optimized opt).Bounded t n :=
  ⟨hs.agrees, hs.definitions,
    hs.steps.imp fun _ hk => (unfolds_of_reduces (reduces_optimized opt s)).mpr hk⟩

private theorem Passed.of_effect (hs : (s.optimized opt).Bounded t n) {b : Bool}
    (h : Effect t n (Step.instrs (s.optimized opt).steps) (Step.instrs s'.steps) b)
    (hagrees : t.Agrees s'.table) (hdefinitions : s'.table.definitions = t.definitions) :
    Passed t n s s' b where
  agrees := hagrees
  definitions := hdefinitions
  steps := by
    obtain ⟨k, hk⟩ := hs.steps
    generalize Step.instrs (s.optimized opt).steps = ops at h hk
    generalize Step.instrs s'.steps = ops' at h
    cases h with
    | nothing => exact ⟨k, hk⟩
    | change hchange front back =>
      obtain ⟨k', hk', -⟩ := hchange.progress front back hk
      exact ⟨k', hk'⟩
  effect := ⟨_, reduces_optimized opt s, h⟩

/-- A pass ends, and makes one change or finds no reference. -/
theorem Bounded.ends_pass (hinner : SettlesInner (Expand.depth t) n inner)
    (hclears : InnerClears inner) (hs : s.Bounded t n) :
    Ends (pass inner o opt) s fun b s' => Passed t n s s' b := by
  have hopt := hs.optimized opt
  unfold Ends Leads
  rw [run_pass]
  refine Leads.bind (Q := fun ctx s₁ => (currentContext o).run (s.optimized opt) = .ok ctx s₁)
    (Ends.imp (Session.ends_currentContext o _) fun _ _ hrun _ => hrun) fun ctx s₁ hctx => ?_
  obtain ⟨hof, hsteps, -⟩ := of_run_currentContext hctx
  have hs₁ := hopt.of_currentContext hctx
  have hinstrs := instrs_of_run_currentContext hctx
  rw [hsteps] at hinstrs
  have hnesting (st : Step) (hst : st ∈ ctx.steps) : nesting (Expand.depth t) st.instr ≤ n := by
    obtain ⟨k, hk⟩ := hopt.steps
    exact (hk.of_mem (hinstrs ▸ List.mem_map_of_mem hst)).1
  have hfirst : Ends (firstReplacement inner ctx 0 ctx.steps) s₁ fun r s' => s₁.Keeps s' ∧
      ∀ j new, r = some (j, new) →
        Change t n (Step.instrs ((ctx.steps.drop j).take new.2)) (Step.instrs new.1) := by
    refine leads_firstReplacement (fun k st s₂ hst hkeeps => ?_) (.refl s₁)
    rw [Nat.zero_add]
    exact Ends.imp (ends_visit hinner (hs₁.of_keeps hkeeps) hst
      (hnesting st (List.mem_of_getElem? hst))) fun _ _ _ h => ⟨hkeeps.trans h.1, h.2⟩
  refine (Ends.imp hfirst fun r s₂ hrun h => And.intro hrun h).bind fun r s₂ h => ?_
  obtain ⟨hrun, hkeeps, hr⟩ := h
  have hsteps₂ : s₂.steps = ctx.steps := hkeeps.steps.trans hsteps
  have hs₂ := hs₁.of_keeps hkeeps
  cases r with
  | none =>
    refine Passed.of_effect hopt ?_ hs₂.agrees hs₂.definitions
    obtain ⟨-, hidle⟩ := idle_of_run_firstReplacement hclears hrun
    rw [hsteps₂, ← hinstrs]
    exact .nothing (references_of_idle hof hidle)
  | some r =>
    obtain ⟨j, new, k⟩ := r
    have hnew : Step.instrs (ctx.steps.take j ++ new ++ ctx.steps.drop (j + k)) =
        Step.instrs (ctx.steps.take j) ++
          (Step.instrs new ++ Step.instrs (ctx.steps.drop (j + k))) := by
      simp [Step.instrs]
    refine Passed.of_effect hopt ?_ hs₂.agrees hs₂.definitions
    dsimp only
    rw [hsteps₂, ← hinstrs, instrs_split ctx.steps j k, hnew]
    exact .change (hr j (new, k) rfl) _ _

namespace Passed

/-- After a pass that replaces something fewer references can come up, or inner scripts are
lighter. -/
theorem decreases (h : Passed t n s s' true) {k : Nat}
    (hk : Unfolds t.unfold (Expand.depth t) n (Step.instrs s.steps) k) :
    ∃ k', Unfolds t.unfold (Expand.depth t) n (Step.instrs s'.steps) k' ∧ (k' < k ∨
      k' = k ∧ potentialList (Step.instrs s'.steps) < potentialList (Step.instrs s.steps)) := by
  obtain ⟨ops, hreduces, heffect⟩ := h.effect
  rw [← unfolds_of_reduces hreduces] at hk
  rw [← potentialList_congr hreduces.openings_eq]
  generalize Step.instrs s'.steps = ops' at heffect
  cases heffect with
  | change hchange front back =>
    obtain ⟨k', hk', hprogress⟩ := hchange.progress front back hk
    exact ⟨k', hk', hprogress.imp id fun h => ⟨h.1, h.2.1⟩⟩

/-- Without parameters a pass brings in no calls. -/
theorem isCall_eq_false {b : Bool} (h : Passed t n s s' b) (ht : t.ParameterFree)
    (hs : ∀ i ∈ Step.instrs s.steps, i.isCall = false) :
    ∀ i ∈ Step.instrs s'.steps, i.isCall = false := by
  obtain ⟨ops, hreduces, heffect⟩ := h.effect
  have hops : ∀ i ∈ ops, i.isCall = false := by
    intro i hi
    cases hopen : i.isOpen with
    | false =>
      cases i with
      | call => cases hopen
      | _ => rfl
    | true =>
      have hmem : i ∈ openings (Step.instrs s.steps) :=
        hreduces.openings_eq ▸ List.mem_filter.mpr ⟨hi, hopen⟩
      exact hs i (List.mem_filter.mp hmem).1
  generalize Step.instrs s'.steps = ops' at heffect
  cases heffect with
  | nothing => exact hops
  | @change old new hchange front back =>
    have hold := fun i (hi : i ∈ old) =>
      hops i (List.mem_append_right _ (List.mem_append_left _ hi))
    have hnew : ∀ i ∈ new, i.isCall = false := by
      cases hchange with
      | code _ _ hnew => exact fun i hi => (hnew i hi).isCall_eq_false
      | inner => exact List.forall_mem_singleton.mpr rfl
      | @unfold i _ =>
        rw [unfold_of_isCall ht (hold i List.mem_cons_self)]
        exact List.forall_mem_nil _
    intro i hi
    simp only [List.mem_append] at hi hops
    rcases hi with hi | hi | hi
    · exact hops i (.inl hi)
    · exact hnew i hi
    · exact hops i (.inr (.inr hi))

private theorem eq_or_potential_lt {ops' : List Instr} (h : Reduces ops ops') :
    ops' = ops ∨ potential (.inner ops') < potential (.inner ops) := by
  have hinner := potentialList_congr h.openings_eq
  refine h.lighter.imp id fun hlt => ?_
  rw [potential, potential]
  omega

/-- A pass that replaces nothing leaves a settled program. -/
theorem settled (h : Passed t n s s' false) :
    Settled (Step.instrs s.steps) (Step.instrs s'.steps) := by
  obtain ⟨ops, hreduces, heffect⟩ := h.effect
  generalize Step.instrs s'.steps = ops' at heffect
  cases heffect with
  | nothing hzero => exact ⟨hzero, fun _ => eq_or_potential_lt hreduces⟩

/-- What is settled after a pass is settled. -/
theorem trans (h : Passed t n s s' true) (hs : s.Bounded t n)
    (hops : Settled (Step.instrs s'.steps) ops) : Settled (Step.instrs s.steps) ops := by
  refine ⟨hops.references, fun hzero => .inr ?_⟩
  have hu (i : Instr) := Table.unfold_of_references (t := t) (i := i)
  obtain ⟨k, hk⟩ := hs.steps
  obtain ⟨mid, hreduces, heffect⟩ := h.effect
  have hmid : Unfolds t.unfold (Expand.depth t) n mid k := (unfolds_of_reduces hreduces).mpr hk
  have hk : k = 0 := (hk.eq_zero_iff hu).mpr hzero
  generalize Step.instrs s'.steps = ops' at heffect hops
  cases heffect with
  | @change old new hchange front back =>
    -- where no reference comes up, progress is made in inner scripts only
    obtain ⟨k', hk', hlt | ⟨heq, hlt, hweight⟩⟩ := hchange.progress front back hmid
    · omega
    · have hzero' : referencesList (front ++ (new ++ back)) = 0 :=
        (hk'.eq_zero_iff hu).mp (heq.trans hk)
      have hfirst : potential (.inner (front ++ (old ++ back))) ≤
          potential (.inner (Step.instrs s.steps)) :=
        (eq_or_potential_lt hreduces).elim (fun h => h ▸ Nat.le_refl _) Nat.le_of_lt
      have hsecond : potential (.inner (front ++ (new ++ back))) <
          potential (.inner (front ++ (old ++ back))) := by
        rw [potential, potential]
        omega
      have hthird : potential (.inner ops) ≤ potential (.inner (front ++ (new ++ back))) :=
        (hops.lighter hzero').elim (fun h => h ▸ Nat.le_refl _) Nat.le_of_lt
      omega

end Passed

end NamedStack.Session
