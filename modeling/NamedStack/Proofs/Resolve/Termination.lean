import NamedStack.Proofs.Resolve.Following
import NamedStack.Proofs.Resolve.Progress

/-!
# Resolving comes to an end

Every pass that replaces something leaves a program in which fewer references can come up, or as
many and lighter inner scripts. So passes come to an end if only so many references can come up,
and the last of them has found no reference at any depth. Without parameters the bounds that are
read off the program are enough. With parameters some larger bounds are, unless a parameter leads
back to itself.
-/

namespace NamedStack.Session

open NamedStack.Measure

variable {s s' : Session} {o : Options} {opt : Option Peephole.Optimizer} {t : Table} {n e : Nat}

/-! ### Expanding calls -/

variable {steps : List Step}

private theorem ends_expandWith {deeper : Nat → List Step → SessionM Nat}
    (hsteps : ∃ k, Unfolds t.unfold (Expand.depth t) n (Step.instrs steps) k)
    (hdeeper : ∀ i ∈ Step.instrs steps, i.isCall = true → ∀ j s, s.Bounded t n →
      Ends (deeper j (Step.ofList (t.unfold i))) s fun _ => Bounded t n) (hs : s.Bounded t n)
    (i : Nat) : Ends (expandWith deeper o i steps) s fun _ => Bounded t n := by
  induction steps generalizing s i with
  | nil => exact hs
  | cons st rest ih =>
    obtain ⟨k, hk⟩ := hsteps
    have hst : ∃ m, Unfolds t.unfold (Expand.depth t) n (t.unfold st.instr) m ∧ _ :=
      (hk.of_mem List.mem_cons_self).2
    have hnext {s : Session} (hs : s.Bounded t n) (i : Nat) :
        Ends (expandWith deeper o i rest) s fun _ => Bounded t n := by
      refine ih ?_ (fun i hi => hdeeper i (List.mem_cons_of_mem _ hi)) hs i
      cases hk with
      | cons _ _ hback => exact ⟨_, hback⟩
    rw [expandWith]
    split
    · next name args hi =>
      refine hs.ends_currentContext.bind fun _ s₁ hs₁ => ?_
      refine (hs₁.ends_expandCall i name args).bind ?_
      rintro _ _ ⟨rfl, rfl⟩
      rw [hi] at hst
      obtain ⟨m, hm, -⟩ := hst
      have hnew : ∃ m, Unfolds t.unfold (Expand.depth t) n
          (Step.instrs (Step.ofList (t.unfold (.call name args)))) m := by
        rw [Step.instrs_ofList]
        exact ⟨m, hm⟩
      refine (hs₁.ends_splice i 1 hnew).bind fun _ s₂ hs₂ => ?_
      exact (hdeeper _ (hi ▸ List.mem_cons_self) rfl i s₂ hs₂).bind fun j s₃ hs₃ => hnext hs₃ j
    · exact hnext hs (i + 1)

private theorem ends_expandDeep (m : Nat)
    (hsteps : ∃ k, Unfolds t.unfold (Expand.depth t) n (Step.instrs steps) k)
    (hm : ExpandsIn t.unfold m (Step.instrs steps)) (hs : s.Bounded t n) (i : Nat) :
    Ends (expandDeep o m i steps) s fun _ => Bounded t n := by
  induction m generalizing s steps i with
  | zero =>
    refine ends_expandWith hsteps (fun i hi hcall => ?_) hs i
    rw [hm i hi] at hcall
    cases hcall
  | succ m ih =>
    refine ends_expandWith hsteps (fun i hi hcall j s hs => ?_) hs i
    obtain ⟨k, hk⟩ := hsteps
    obtain ⟨-, k', hk', -⟩ := hk.of_mem hi
    refine ih ?_ ?_ hs j
    · rw [Step.instrs_ofList]
      exact ⟨k', hk'⟩
    · rw [Step.instrs_ofList]
      exact hm i hi hcall

/-- What is known of a session besides once all its calls are expanded. -/
structure CallFree (t : Table) (n : Nat) (s : Session) : Prop extends Bounded t n s where
  calls : ∀ i ∈ Step.instrs s.steps, i.isCall = false

/-- Expanding all calls ends if so many rounds are enough, and nothing is done if there are no
references. -/
theorem Bounded.ends_expandCalls (hs : s.Bounded t n)
    (h : ExpandsIn t.unfold (callHeightList (Step.instrs s.steps) + e) (Step.instrs s.steps)) :
    Ends (expandCalls o e) s fun _ s' => s'.CallFree t n ∧
      (s.references = 0 → Step.instrs s'.steps = Step.instrs s.steps) := by
  have hdeep : Ends (expandCalls o e) s fun _ => Bounded t n := by
    refine Leads.get_bind ?_
    exact (ends_expandDeep _ hs.steps h hs 0).bind fun _ _ hs' => hs'
  refine hdeep.imp fun _ s' hrun hs' => ⟨⟨hs', fun i hi => ?_⟩, fun hzero => ?_⟩
  · obtain ⟨-, hcalls⟩ := of_run_expandCalls (P := fun _ => True)
      ⟨fun _ _ _ _ _ => trivial, fun _ _ _ _ _ _ _ _ _ _ => trivial⟩ trivial hrun
    obtain ⟨st, hst, rfl⟩ := List.mem_map.mp hi
    exact hcalls st hst
  · have hnone : ∀ st ∈ s.steps, st.instr.isCall = false := by
      intro st hst
      have hst := referencesList_eq_zero_iff.mp hzero _ (List.mem_map_of_mem hst)
      cases hi : st.instr with
      | call =>
        rw [hi, Measure.references] at hst
        omega
      | _ => rfl
    rw [run_expandCalls hnone] at hrun
    cases hrun
    rfl

/-! ### Filling slots -/

private theorem routing_of_references {t' : Table} {ctx : Context}
    (hctx : Context.of t o steps = .ok ctx) (h : referencesList (Step.instrs steps) = 0) :
    ctx.routing t' o = .ok {} := by
  obtain ⟨branches, -, rfl⟩ := Context.of_cases hctx
  have hnone (f : Instr → Option Name) (hf : ∀ i, Measure.references i = 0 → f i = none) :
      Context.occurrences steps f = [] := by
    refine List.eq_nil_iff_forall_not_mem.mpr fun p hp => ?_
    obtain ⟨st, hst, hname⟩ := mem_occurrences.mp hp
    have hzero := referencesList_eq_zero_iff.mp h _ (List.mem_map_of_mem (List.mem_of_getElem? hst))
    rw [hf _ hzero] at hname
    cases hname
  have hassumed : Context.occurrences steps (Context.assumed? t) = [] :=
    hnone _ fun i hi => by cases i <;> simp_all [Measure.references, Context.assumed?]
  have hassigned : Context.occurrences steps Context.assigned? = [] :=
    hnone _ fun i hi => by cases i <;> simp_all [Measure.references, Context.assigned?]
  have hnames : Occurrences.names [] = [] := List.mergeSort_nil
  have hvars (le : Name → Name → Bool) : ([] : List Name).mergeSort le = [] := List.mergeSort_nil
  simp only [Context.routing, Context.routedAssumptions, Context.routedVariables, hassumed,
    hassigned, hnames, List.filter_nil, hvars]
  rfl

/-- Filling slots ends and brings in no calls, and nothing is done if there are no references. -/
theorem CallFree.ends_route (hs : s.CallFree t n) :
    Ends (route o) s fun _ s' => s'.CallFree t n ∧
      (s.references = 0 → Step.instrs s'.steps = Step.instrs s.steps) := by
  refine Ends.imp (Session.ends_route o s) fun _ s' hrun _ => ?_
  obtain ⟨ctx, s₁, r, slots, setup, hctx, hrouting, hsetup, rfl⟩ := of_run_route hrun
  have hs₁ := hs.toBounded.of_currentContext hctx
  have hinstrs := instrs_of_run_currentContext hctx
  obtain ⟨hcode, -⟩ := AltSlots.setup_code hsetup
  have hsteps : Step.instrs (setup ++ markDuplicates ctx.duplicates s₁.steps) =
      Step.instrs setup ++ Step.instrs s.steps := by
    rw [← hinstrs, ← instrs_markDuplicates ctx.duplicates s₁.steps]
    exact List.map_append
  refine ⟨⟨⟨hs₁.agrees, hs₁.definitions, ?_⟩, ?_⟩, fun hzero => ?_⟩
  · obtain ⟨k, hk⟩ := hs.steps
    rw [hsteps]
    exact ⟨_, (unfolds_of_straight hcode.straight).append hk⟩
  · rw [hsteps]
    exact List.forall_mem_append.mpr
      ⟨fun i hi => (hcode.straight i hi).isCall_eq_false, hs.calls⟩
  · obtain ⟨hof, -⟩ := of_run_currentContext hctx
    rw [routing_of_references hof hzero] at hrouting
    cases hrouting
    rw [setup_empty] at hsetup
    cases hsetup
    exact hsteps

/-! ### All passes -/

/-- Whether a session's program is settled within bounds. -/
def SettledFrom (d n : Nat) (s s' : Session) : Prop :=
  Settled (Step.instrs s.steps) (Step.instrs s'.steps) ∧ nestingList d (Step.instrs s'.steps) ≤ n

private theorem SettledFrom.of_passed (h : Passed t n s s' false) :
    SettledFrom (Expand.depth t) n s s' := by
  obtain ⟨k, hk⟩ := h.steps
  exact ⟨h.settled, nestingList_le_iff.mpr fun i hi => (hk.of_mem hi).1⟩

private theorem SettledFrom.after (h : Passed t n s s' true) (hs : s.Bounded t n) {s'' : Session}
    (h' : SettledFrom (Expand.depth t) n s' s'') : SettledFrom (Expand.depth t) n s s'' :=
  ⟨h.trans hs h'.1, h'.2⟩

section

variable {pass : SessionM Bool}
  (hpass : ∀ s, s.Bounded t n → Ends pass s fun b s' => Passed t n s s' b)

section

variable (ht : t.ParameterFree)

include ht in
private theorem CallFree.of_passed {b : Bool} (hs : s.CallFree t n) (h : Passed t n s s' b) :
    s'.CallFree t n :=
  ⟨h.toBounded, h.isCall_eq_false ht hs.calls⟩

include ht in
private theorem CallFree.decreases (hs : s.CallFree t n) (h : Passed t n s s' true) :
    s'.references < s.references ∨ s'.references = s.references ∧
      potentialList (Step.instrs s'.steps) < potentialList (Step.instrs s.steps) := by
  have hload {s : Session} (hs : s.CallFree t n) {k : Nat}
      (hk : Unfolds t.unfold (Expand.depth t) n (Step.instrs s.steps) k) : k = s.references :=
    hk.eq_references fun i hi => ⟨hs.calls i hi, unfold_of_isCall ht (hs.calls i hi)⟩
  obtain ⟨k, hk⟩ := hs.steps
  obtain ⟨k', hk', hdecreases⟩ := h.decreases hk
  rwa [hload hs hk, hload (hs.of_passed ht h) hk'] at hdecreases

include hpass ht

private theorem ends_settle {next : SessionM Unit} {m : Nat}
    (hnext : ∀ s, s.CallFree t n → s.references < m →
      Ends next s fun _ => SettledFrom (Expand.depth t) n s)
    {k : Nat} (hs : s.CallFree t n) (hm : s.references ≤ m)
    (hk : potentialList (Step.instrs s.steps) < k) :
    Ends (settle next pass k) s fun _ => SettledFrom (Expand.depth t) n s := by
  induction k generalizing s with
  | zero => omega
  | succ k ih =>
    rw [settle]
    refine Leads.get_bind ?_
    refine (hpass s hs.toBounded).bind fun b s₁ h => ?_
    have hs₁ := hs.of_passed ht h
    cases b with
    | false => exact .of_passed h
    | true =>
      refine Leads.get_bind ?_
      have hdecreases := hs.decreases ht h
      split
      · next hlt =>
        exact (hnext s₁ hs₁ (hlt.trans_le hm)).imp fun _ _ _ => .after h hs.toBounded
      · next hge => exact (ih hs₁ (by omega) (by omega)).imp fun _ _ _ => .after h hs.toBounded

/-- Without parameters the bounds read off the program are enough for all passes: references become
fewer whenever inner scripts are no lighter. -/
theorem ends_resolve {m : Nat} (hs : s.CallFree t n) (hm : s.references < m) :
    Ends (resolve pass e m) s fun _ => SettledFrom (Expand.depth t) n s := by
  induction m generalizing s with
  | zero => omega
  | succ m ih =>
    have hslack := potentialList_le_slackList (Step.instrs s.steps)
    exact ends_settle hpass ht (fun s hs hm => ih hs hm) hs (Nat.le_of_lt_succ hm) (by omega)

end

section

variable {α β : Type} {P : α → Session → Prop} {Q : β → Session → Prop}

/-- What ends within some bounds ends the same way within larger ones. -/
theorem Ends.of_follows {x y : SessionM β} (h : Ends x s Q) (hxy : Follows Eq Eq x y) :
    Ends y s Q := by
  unfold Ends Leads at h ⊢
  rw [← hxy.run_eq]
  · exact h
  · intro s' hs'
    rw [hs'] at h
    exact h rfl

private theorem Ends.exists_bind {x : SessionM α} {f : Nat → α → SessionM β} (h : Ends x s P)
    (hf : ∀ a s', P a s' → ∃ N, Ends (f N a) s' Q) : ∃ N, Ends (x >>= f N) s Q := by
  unfold Ends Leads at h
  cases hx : x.run s with
  | ok a s' =>
    rw [hx] at h
    obtain ⟨N, hN⟩ := hf a s' h
    exact ⟨N, by rw [Ends, Leads, EStateM.run_bind, hx]; exact hN⟩
  | error f s' =>
    rw [hx] at h
    exact ⟨0, by rw [Ends, Leads, EStateM.run_bind, hx]; exact h⟩

end

include hpass in
private theorem exists_ends_settle (hs : s.Bounded t n) :
    ∃ N, Ends (settle (resolve pass N N) pass (N + 1)) s fun _ =>
      SettledFrom (Expand.depth t) n s := by
  -- induction on the references that can still come up, and then on the weight of inner scripts
  obtain ⟨k, hk⟩ := hs.steps
  induction k using Nat.strong_induction_on generalizing s with
  | _ k ihk =>
    induction hp : potentialList (Step.instrs s.steps) using Nat.strong_induction_on
      generalizing s with
    | _ p ihp =>
      refine (hpass s hs).exists_bind fun replaced s₁ h => ?_
      cases replaced with
      | false => exact ⟨0, .of_passed h⟩
      | true =>
        obtain ⟨k', hk', hdecreases⟩ := h.decreases hk
        obtain ⟨N, hN⟩ : ∃ N, Ends (settle (resolve pass N N) pass (N + 1)) s₁ fun _ =>
            SettledFrom (Expand.depth t) n s₁ := by
          rcases hdecreases with hlt | ⟨rfl, hlt⟩
          · exact ihk k' hlt h.toBounded hk'
          · exact ihp _ (hp ▸ hlt) h.toBounded hk' rfl
        have hlarger {a b : Nat} (ha : N ≤ a) (hb : N ≤ b) :
            Ends (settle (resolve pass (N + 1) b) pass (a + 1)) s₁ fun _ =>
              SettledFrom (Expand.depth t) n s₁ :=
          hN.of_follows ((resembling_eq {}).settle
            ((resembling_eq {}).resolve (.self pass) (Nat.le_succ N) hb) (.self pass)
            (Nat.succ_le_succ ha))
        refine ⟨N + 1, Ends.imp (Leads.get_bind ?_) fun _ _ _ => SettledFrom.after h hs⟩
        split
        · exact Leads.get_bind (hlarger (by omega) (Nat.le_refl N))
        · exact hlarger (Nat.le_refl N) (Nat.le_succ N)

include hpass in
/-- With parameters all passes end within some bounds. -/
theorem exists_ends_resolve (hs : s.Bounded t n) :
    ∃ N, Ends (resolve pass N (N + 1)) s fun _ => SettledFrom (Expand.depth t) n s := by
  obtain ⟨N, hN⟩ := exists_ends_settle hpass hs
  refine ⟨N, Leads.get_bind (hN.of_follows ?_)⟩
  exact (resembling_eq {}).settle (.self _) (.self pass) (by omega)

end

/-! ### Whole programs -/

variable {inner : InnerResult}

private theorem SettledFrom.of_prepared {s₁ s₂ s₃ : Session} {d : Nat}
    (h₁ : s.references = 0 → Step.instrs s₁.steps = Step.instrs s.steps)
    (h₂ : s₁.references = 0 → Step.instrs s₂.steps = Step.instrs s₁.steps)
    (h : SettledFrom d n s₂ s₃) : SettledFrom d n s s₃ := by
  refine ⟨⟨h.1.references, fun hzero => ?_⟩, h.2⟩
  have hinstrs₁ := h₁ hzero
  have hinstrs₂ := h₂ (by rw [references, hinstrs₁]; exact hzero)
  have hlighter := h.1.lighter
  rw [hinstrs₂, hinstrs₁] at hlighter
  exact hlighter hzero

/-- Without parameters a program is settled if its inner scripts are. Without references nothing is
expanded or routed in it, so that the passes start from the program itself. -/
theorem ends_resolveWith (ht : t.ParameterFree) (hinner : SettlesInner (Expand.depth t) n inner)
    (hclears : InnerClears inner) (hs : s.Bounded t n) :
    Ends (resolveWith inner o opt e) s fun _ => SettledFrom (Expand.depth t) n s := by
  have hexpands := expandsIn_of_parameterFree ht
    (Nat.le_add_right (callHeightList (Step.instrs s.steps)) e)
  refine (hs.ends_expandCalls hexpands).bind fun _ s₁ hcalled => ?_
  obtain ⟨hs₁, hsame₁⟩ := hcalled
  refine hs₁.ends_route.bind fun _ s₂ hrouted => ?_
  obtain ⟨hs₂, hsame₂⟩ := hrouted
  refine Leads.get_bind ?_
  exact (ends_resolve (fun s hs => hs.ends_pass hinner hclears) ht hs₂ (by omega)).imp
    fun _ s₃ _ h => .of_prepared hsame₁ hsame₂ h

/-- With parameters it is settled within some bounds. -/
theorem exists_ends_resolveWith (hinner : SettlesInner (Expand.depth t) n inner)
    (hclears : InnerClears inner) (hs : s.Bounded t n) :
    ∃ e, Ends (resolveWith inner o opt e) s fun _ => SettledFrom (Expand.depth t) n s := by
  obtain ⟨k, hk⟩ := hs.steps
  have hexpands := hk.expandsIn (Nat.le_add_left k (callHeightList (Step.instrs s.steps)))
  obtain ⟨N, hN⟩ : ∃ N, Ends (expandCalls o k >>= fun _ => route o >>= fun _ =>
      resolve (pass inner o opt) N (N + 1)) s fun _ => SettledFrom (Expand.depth t) n s := by
    refine (hs.ends_expandCalls hexpands).exists_bind fun _ s₁ hcalled => ?_
    obtain ⟨hs₁, hsame₁⟩ := hcalled
    refine hs₁.ends_route.exists_bind fun _ s₂ hrouted => ?_
    obtain ⟨hs₂, hsame₂⟩ := hrouted
    obtain ⟨N, hN⟩ := exists_ends_resolve (fun s hs => hs.ends_pass hinner hclears) hs₂.toBounded
    exact ⟨N, hN.imp fun _ s₃ _ h => .of_prepared hsame₁ hsame₂ h⟩
  have hself := resembling_eq o
  refine ⟨k + N, hN.of_follows ?_⟩
  refine (hself.expandCalls (Nat.le_add_right k N)).bind fun _ => hself.route.bind fun _ => ?_
  rintro s _ rfl
  exact hself.resolve (.self _) (Nat.le_add_left N k) (by omega) rfl

/-- An inner script is settled by what settles programs that are nested one level less. -/
theorem settlesInner_innerWith {d : Nat} {run : SessionM Unit}
    (hrun : ∀ {t s}, t.ParameterFree → Expand.depth t = d → s.Bounded t n →
      Ends run s fun _ => SettledFrom d n s) : SettlesInner d (n + 1) (innerWith run) := by
  intro ops s hnesting hdepth
  rw [nesting] at hnesting
  have hfree : (s.child ops).table.ParameterFree := Table.parameterFree_inner s.table
  have hdepth' : Expand.depth (s.child ops).table = d := hdepth
  have hops : Step.instrs (Step.ofList ops) = ops := Step.instrs_ofList ops
  have hbounded : (s.child ops).Bounded (s.child ops).table n := by
    refine ⟨fun _ _ _ => Iff.rfl, rfl, exists_unfolds_of_parameterFree hfree ?_⟩
    rw [hdepth']
    refine Nat.le_of_succ_le_succ ?_
    rw [child, hops]
    omega
  have hchild := hrun hfree hdepth' hbounded
  unfold Ends Leads at hchild ⊢
  rw [run_innerWith]
  cases hresult : run.run (s.child ops) with
  | error f c =>
    rw [hresult] at hchild
    exact hchild
  | ok _ c =>
    rw [hresult] at hchild
    obtain ⟨hsettled, hchildNesting⟩ := hchild
    rw [child, hops] at hsettled
    refine ⟨⟨rfl, rfl, List.Subset.refl _⟩, fun new hnew => ?_⟩
    by_cases hsame : Step.instrs c.steps = ops
    · rw [if_pos hsame] at hnew
      cases hnew
    · rw [if_neg hsame] at hnew
      cases hnew
      refine ⟨_, rfl, hsame, hsettled, ?_⟩
      rw [nesting]
      omega

private theorem settlesInner_zero (d : Nat) (inner : InnerResult) : SettlesInner d 0 inner := by
  intro ops s hnesting
  rw [nesting] at hnesting
  omega

/-- Without parameters resolving settles a program whose inner scripts are nested no deeper than so,
whatever is added to the bounds that are read off it. -/
theorem ends_resolveDeep (ht : t.ParameterFree) (hs : s.Bounded t n) :
    Ends (resolveDeep o opt e n) s fun _ => SettledFrom (Expand.depth t) n s := by
  induction n generalizing s t with
  | zero => exact ends_resolveWith ht (settlesInner_zero _ _) (innerClears_throw _) hs
  | succ n ih =>
    refine ends_resolveWith ht (settlesInner_innerWith fun hu hdepth hs => ?_)
      (innerClears_innerWith fun _ _ => references_of_run_resolveDeep) hs
    rw [← hdepth]
    exact ih hu hs

/-- With parameters it does so within some bounds. -/
theorem exists_ends_resolveDeep (o : Options) (opt : Option Peephole.Optimizer)
    (hs : s.Bounded t n) : ∃ e, ∀ m ≥ e, Ends (resolveDeep o opt e m) s fun _ =>
      SettledFrom (Expand.depth t) (n + 1) s := by
  -- the tables of inner scripts have no parameters, whatever the one around them has
  have hinner : SettlesInner (Expand.depth t) (n + 1) (innerWith (resolveDeep o opt 0 n)) :=
    settlesInner_innerWith fun hu hdepth hs => hdepth ▸ ends_resolveDeep hu hs
  have hs' : s.Bounded t (n + 1) :=
    ⟨hs.agrees, hs.definitions, hs.steps.imp fun _ hk => hk.mono (Nat.le_succ n)⟩
  obtain ⟨e, he⟩ := exists_ends_resolveWith hinner
    (innerClears_innerWith fun _ _ => references_of_run_resolveDeep) hs'
  refine ⟨e + n + 1, fun m hm => he.of_follows ?_⟩
  obtain ⟨m, rfl⟩ : ∃ k, m = k + 1 := ⟨m - 1, by omega⟩
  have hself := resembling_eq o
  rw [resolveDeep]
  exact hself.resolveWith (hself.innerWith (hself.resolveDeep (Nat.zero_le _) (by omega)))
    (by omega)

end NamedStack.Session

namespace NamedStack

open NamedStack.Measure

variable {t : Table} {o : Options} {opt : Option Peephole.Optimizer} {ops : List Instr}

variable {e : Nat}

private theorem regular_of_ends {Q : Unit → Session → Prop}
    (h : Session.Ends (Session.resolveDeep o opt e (Measure.scriptDepth t ops + e))
      { steps := Step.ofList ops, table := t } Q) {f : Failure}
    (hf : (resolveWithin e t o opt ops).failure = some f) : f.Regular := by
  unfold Session.Ends Session.Leads EStateM.run at h
  unfold resolveWithin at hf
  split at hf
  · cases hf
  · next hrun =>
    cases hf
    rw [hrun] at h
    exact h

private theorem bounded_ofList {n : Nat}
    (h : ∃ k, Measure.Unfolds t.unfold (Expand.depth t) n ops k) :
    Session.Bounded t n { steps := Step.ofList ops, table := t } := by
  refine ⟨fun _ _ _ => Iff.rfl, rfl, ?_⟩
  rw [Step.instrs_ofList]
  exact h

/-- Without parameters a program is resolved within the bounds read off it, or refused for a regular
reason. -/
theorem regular_of_resolveWithin (ht : t.ParameterFree) {f : Failure}
    (hf : (resolveWithin e t o opt ops).failure = some f) : f.Regular :=
  regular_of_ends (Session.ends_resolveDeep ht
    (bounded_ofList (exists_unfolds_of_parameterFree ht (Nat.le_add_right _ e)))) hf

/-- Without parameters larger bounds make no difference. -/
theorem resolveWithin_eq_resolve (ht : t.ParameterFree) (e : Nat) :
    resolveWithin e t o opt ops = resolve t o opt ops :=
  resolveWithin_eq_of_le (Nat.zero_le e) fun hf => regular_of_resolveWithin ht hf rfl

/-- With parameters a program is resolved within some bounds, or refused for a regular reason,
unless a parameter leads back to itself. -/
theorem exists_regular_of_resolveWithin (o : Options) (opt : Option Peephole.Optimizer)
    (h : ∀ i ∈ ops, t.Founded i) :
    ∃ e, ∀ f, (resolveWithin e t o opt ops).failure = some f → f.Regular := by
  obtain ⟨n, hn⟩ := exists_unfolds_of_founded (Expand.depth t) h
  obtain ⟨e, he⟩ := Session.exists_ends_resolveDeep o opt (bounded_ofList hn)
  exact ⟨e, fun f hf => regular_of_ends (he _ (Nat.le_add_left e _)) hf⟩

/-- A program that was resolved has no reference. -/
theorem references_of_resolveWithin (h : (resolveWithin e t o opt ops).failure = none) :
    Measure.referencesList (Step.instrs (resolveWithin e t o opt ops).session.steps) = 0 := by
  unfold resolveWithin at h ⊢
  split
  · next hrun => exact Session.references_of_run_resolveDeep hrun
  · next hrun =>
    rw [hrun] at h
    cases h

end NamedStack
