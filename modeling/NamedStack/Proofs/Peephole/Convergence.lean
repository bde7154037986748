import NamedStack.Proofs.Peephole.Weight
import NamedStack.Proofs.Source.Printed

/-!
# The optimizer settles

A scan for the runs of a template moves a position through the program and goes back by one where it
leaves a gap. It ends, since what is left ahead of the position gets shorter in every round; this
needs templates of two steps or more wherever a run may be replaced by nothing. As every rule that
changes a program makes it lighter, the optimizer changes it only so often; with enough passes it
ends with a program that no rule changes any more.
-/

namespace NamedStack

/-! ### Scans -/

namespace Template

/-- One round of a scan at a position: the next position, and the program by then. A run that
matches is replaced, and the scan goes on behind what stands in its place, or in front of the gap if
nothing does. -/
def scanStep (t : Template) (f : List Step → List Step) (i : Nat) (steps : List Step) :
    Nat × List Step :=
  if t.matchesFront (steps.drop i) then
    let new := f ((steps.drop i).take t.length)
    (if new.isEmpty then i - 1 else i + new.length,
      steps.take i ++ new ++ steps.drop (i + t.length))
  else (i + 1, steps)

/-- A scan from a position on ends after so many rounds, and leaves a program. -/
inductive Scans (t : Template) (f : List Step → List Step) :
    Nat → Nat → List Step → List Step → Prop
  | ended {i : Nat} {steps : List Step} (h : steps.length ≤ i) : Scans t f 0 i steps steps
  | round {n i : Nat} {steps out : List Step} (h : i < steps.length)
      (hrest : Scans t f n (t.scanStep f i steps).1 (t.scanStep f i steps).2 out) :
      Scans t f (n + 1) i steps out

end Template

namespace Peephole

open Template (Scans)

variable {t : Template} {f : List Step → List Step}

/-- Whether what is ahead of a scan gets shorter wherever a run is replaced. -/
def Advances (t : Template) (f : List Step → List Step) : Prop :=
  1 < t.length ∨ t ≠ [] ∧ ∀ run, Matching t run → f run ≠ []

private theorem scanStep_passed (passed ahead : List Step) :
    t.scanStep f passed.length (passed.reverse ++ ahead) =
      if t.matchesFront ahead then
        (if (f (ahead.take t.length)).isEmpty then passed.length - 1
          else passed.length + (f (ahead.take t.length)).length,
          passed.reverse ++ f (ahead.take t.length) ++ ahead.drop t.length)
      else (passed.length + 1, passed.reverse ++ ahead) := by
  have hlen : passed.length = passed.reverse.length := List.length_reverse.symm
  have hdrop : (passed.reverse ++ ahead).drop passed.length = ahead := by
    rw [hlen, List.drop_left]
  have htake : (passed.reverse ++ ahead).take passed.length = passed.reverse := by
    rw [hlen, List.take_left]
  rw [Template.scanStep, hdrop, htake, ← List.drop_drop, hdrop]

private theorem length_close (h : Advances t f) {steps : List Step}
    (hm : t.matchesFront steps = true) (hnew : (f (steps.take t.length)).isEmpty = true)
    (passed rest : List Step) : (t.close passed rest).1.length = passed.length - 1 := by
  have hlen : 1 < t.length :=
    h.resolve_right fun h => h.2 _ (matching_take hm) (List.isEmpty_iff.mp hnew)
  match t, passed with
  | _ :: _ :: _, [] => rfl
  | _ :: _ :: _, _ :: _ => rfl

private theorem scans_walk (h : Advances t f) (passed ahead : List Step) (changed : Bool)
    (runs : Nat) : ∃ n ≤ ahead.length, Scans t f n passed.length (passed.reverse ++ ahead)
      (Template.walk t f passed ahead changed runs).steps := by
  have hne : t ≠ [] := by
    rcases h with h | h
    · rintro rfl
      cases h
    · exact h.1
  fun_induction Template.walk t f passed ahead changed runs with
  | case1 passed changed runs =>
    rw [List.append_nil]
    exact ⟨0, Nat.zero_le _, .ended (by rw [List.length_reverse])⟩
  | case2 passed changed runs s rest hm run left new changed' hnew ih =>
    obtain ⟨n, hn, hscans⟩ := ih
    have hlt : n < (s :: rest).length := hn.trans_lt (Template.length_close_lt hne hm.2)
    refine ⟨n + 1, hlt, .round (by simp) ?_⟩
    rw [scanStep_passed, if_pos hm.2, if_pos hnew,
      show f ((s :: rest).take t.length) = [] from List.isEmpty_iff.mp hnew, List.append_nil]
    rwa [reverse_close, length_close h hm.2 hnew] at hscans
  | case3 passed changed runs s rest hm run left new changed' hnew ih =>
    obtain ⟨n, hn, hscans⟩ := ih
    have hlt : left.length < (s :: rest).length := by
      have := List.length_pos_iff.mpr hne
      simp only [left, List.length_drop, List.length_cons]
      omega
    refine ⟨n + 1, hn.trans_lt hlt, .round (by simp) ?_⟩
    rw [scanStep_passed, if_pos hm.2, if_neg hnew]
    rwa [List.reverse_append, List.reverse_reverse, List.length_append, List.length_reverse,
      Nat.add_comm new.length] at hscans
  | case4 passed changed runs s rest hm ih =>
    obtain ⟨n, hn, hscans⟩ := ih
    refine ⟨n + 1, Nat.succ_le_succ hn, .round (by simp) ?_⟩
    rw [scanStep_passed, if_neg fun hmatch => hm ⟨hne, hmatch⟩]
    rwa [List.reverse_cons, List.append_assoc] at hscans

/-- A scan for the runs that an exchange replaces ends, with what the exchange leaves. -/
def Exchange.ScanEnds (e : Exchange) : Prop :=
  ∀ steps, ∃ n ≤ steps.length,
    Scans e.template e.replace n 0 steps (e.template.replace e.replace steps).steps

private theorem Exchange.scanEnds {e : Exchange} (h : Advances e.template e.replace) : e.ScanEnds :=
  fun steps => scans_walk h [] steps false 0

private theorem shortcut_advances {number math short : Opcode} :
    ∀ e ∈ shortcut number math short, Advances e.template e.replace := by
  simp only [shortcut, List.forall_mem_cons]
  exact ⟨.inl (by simp), .inl (by simp), .inl (by simp), List.forall_mem_nil _⟩

private theorem fixedRule_advances {pairs : List (List Opcode × List Opcode)}
    (h : ∀ p ∈ pairs, 1 < p.1.length) :
    ∀ e ∈ pairs.map fun p => Exchange.ofOpcodes p.1 p.2, Advances e.template e.replace := by
  intro e he
  obtain ⟨p, hp, rfl⟩ := List.mem_map.mp he
  exact .inl ((List.length_map _).symm ▸ h p hp)

/-- No scan of a rule gets stuck: only templates of two steps or more leave gaps. -/
theorem scanEnds_of_mem_rules {r : Rule} (hr : r ∈ rules) {es : List Exchange}
    (hes : r.action = .exchanges es) : ∀ e ∈ es, e.ScanEnds := by
  suffices h : ∀ e ∈ es, Advances e.template e.replace from fun e he => Exchange.scanEnds (h e he)
  simp only [rules, List.mem_cons, List.not_mem_nil, or_false] at hr
  rcases hr with rfl | rfl | rfl | rfl | rfl | rfl | rfl | rfl | rfl | rfl | rfl | rfl | rfl <;>
    cases hes
  · exact fixedRule_advances (by decide)
  · exact fixedRule_advances (by decide)
  · exact fixedRule_advances (by decide)
  · simp only [List.cons_append, List.nil_append, List.forall_mem_cons, List.forall_mem_append]
    exact ⟨.inl (by decide), .inl (by decide), .inl (by decide), shortcut_advances,
      shortcut_advances⟩
  · exact fixedRule_advances (by decide)
  · exact fixedRule_advances (by decide)
  · simp only [List.forall_mem_cons]
    exact ⟨.inl (by decide), .inl (by decide), .inl (by decide), List.forall_mem_nil _⟩
  · exact fixedRule_advances (by decide)
  · simp only [List.forall_mem_cons]
    exact ⟨.inl (by decide), List.forall_mem_nil _⟩
  · simp only [List.forall_mem_cons]
    refine ⟨.inr ⟨by decide, fun run hrun => ?_⟩, List.forall_mem_nil _⟩
    -- pushed data is replaced by one step, so this template of one matcher leaves no gap
    obtain _ | ⟨-, -⟩ := hrun
    exact List.cons_ne_nil _ _
  · exact fixedRule_advances (by decide)

/-! ### Settled programs -/

/-- Whether no rule changes a program. -/
def Settled (steps : List Step) : Prop := ∀ r ∈ rules, (r.apply steps).1 = steps

private theorem apply_eq_of_weight_eq {rs : List Rule}
    (h : ∀ r ∈ rs, ∀ steps, Condenses steps (r.apply steps).1) {steps : List Step}
    (hw : weight (Step.instrs (rs.foldl (fun acc r => (r.apply acc).1) steps)) =
      weight (Step.instrs steps)) : ∀ r ∈ rs, (r.apply steps).1 = steps := by
  induction rs generalizing steps with
  | nil => exact nofun
  | cons r rs ih =>
    have hrest := foldl_chains Condenses.chains (fun r' hr' => h r' (.tail _ hr')) (r.apply steps).1
    have hr : (r.apply steps).1 = steps := by
      refine (h r (.head _) steps).lighter.resolve_right fun hlt => ?_
      rw [List.foldl_cons] at hw
      rcases hrest.lighter with heq | hlt'
      · rw [heq] at hw
        omega
      · omega
    rw [List.foldl_cons, hr] at hw
    exact List.forall_mem_cons.mpr ⟨hr, ih (fun r' hr' => h r' (.tail _ hr')) hw⟩

private theorem pass_condenses (steps : List Step) : Condenses steps (pass steps) :=
  foldl_chains Condenses.chains (fun _ hr => condenses_of_mem_rules hr) steps

private theorem settled_of_pass {steps : List Step}
    (h : Step.instrs (pass steps) = Step.instrs steps) : pass steps = steps ∧ Settled steps := by
  refine ⟨(pass_condenses steps).lighter.resolve_right (by rw [h]; exact lt_irrefl _), ?_⟩
  exact apply_eq_of_weight_eq (fun _ hr => condenses_of_mem_rules hr) (congrArg weight h)

private theorem settled_passes {n : Nat} {steps : List Step}
    (h : weight (Step.instrs steps) < n) : Settled (passes n steps) := by
  induction n generalizing steps with
  | zero => cases h
  | succ n ih =>
    rw [passes]
    split
    · next heq =>
      obtain ⟨hpass, hsettled⟩ := settled_of_pass heq
      rwa [hpass]
    · next hne =>
      have hlt : weight (Step.instrs (pass steps)) < weight (Step.instrs steps) :=
        (pass_condenses steps).lighter.resolve_left fun heq => hne (congrArg _ heq)
      exact ih (by omega)

namespace Settled

variable {steps : List Step}

private theorem pass_eq (h : Settled steps) : pass steps = steps :=
  foldl_chains (R := fun a b => a = steps → b = steps) ⟨fun _ => id, fun _ _ _ h k => k ∘ h⟩
    (fun r hr _ heq => heq ▸ h r hr) steps rfl

private theorem passes_eq (h : Settled steps) (n : Nat) : passes n steps = steps := by
  cases n with
  | zero => rfl
  | succ n =>
    rw [passes]
    simp only [h.pass_eq, if_true]

/-- No optimizer changes a settled program. -/
theorem run_eq (h : Settled steps) (o : Optimizer) : o.run steps = steps := by
  unfold Optimizer.run
  split
  · exact h.passes_eq _
  · rfl

end Settled

/-! ### Written programs -/

/-- Apply all rules until the text of a program stops changing, at most so many times. -/
def writtenPasses : Nat → List Step → List Step
  | 0, steps => steps
  | n + 1, steps =>
    let out := pass steps
    if Step.render out = Step.render steps then out else writtenPasses n out

private theorem wellNamed_of_condenses {old new : List Step} (h : Condenses old new)
    (hnames : ∀ i ∈ Step.instrs old, i.WellNamed) : ∀ i ∈ Step.instrs new, i.WellNamed := by
  intro i hi
  obtain ⟨s, hs, rfl⟩ := List.mem_map.mp hi
  by_cases hopen : s.instr.isOpen = true
  · have hmem : s ∈ openSteps old := h.open_eq ▸ List.mem_filter.mpr ⟨hs, hopen⟩
    exact hnames _ (List.mem_map_of_mem (List.mem_of_mem_filter hmem))
  · cases hinstr : s.instr with
    | op o => exact .op o
    | push data => exact .push data
    | _ => exact absurd (by rw [hinstr]; rfl) hopen

/-- Where all names are valid, the text of a program stops changing when its instructions do. -/
theorem writtenPasses_eq {steps : List Step} (hnames : ∀ i ∈ Step.instrs steps, i.WellNamed)
    (n : Nat) : writtenPasses n steps = passes n steps := by
  induction n generalizing steps with
  | zero => rfl
  | succ n ih =>
    have hout := wellNamed_of_condenses (pass_condenses steps) hnames
    have hsame : Step.render (pass steps) = Step.render steps ↔
        Step.instrs (pass steps) = Step.instrs steps :=
      ⟨Instr.eq_of_renderList_eq hout hnames, congrArg Instr.renderList⟩
    simp only [writtenPasses, passes, hsame, ih hout]

/-- The rule set converges: a rule that changes a program makes it lighter, no scan of a rule takes
more rounds than there are steps, and enough passes, up to the one that leaves the text as it was,
end with a program that no rule and no optimizer changes. -/
theorem optimizer_settles {steps : List Step} (hnames : ∀ i ∈ Step.instrs steps, i.WellNamed) :
    (∀ r ∈ rules, (r.apply steps).1 ≠ steps →
      weight (Step.instrs (r.apply steps).1) < weight (Step.instrs steps)) ∧
    (∀ r ∈ rules, ∀ es, r.action = .exchanges es → ∀ e ∈ es, e.ScanEnds) ∧
    ∀ o : Optimizer, o.enabled = true → 2 * steps.length + 2 ≤ o.maxPasses →
      o.run steps = writtenPasses o.maxPasses steps ∧ Settled (o.run steps) ∧
      ∀ again : Optimizer, again.run (o.run steps) = o.run steps := by
  refine ⟨fun r hr hne => ?_, fun r hr es hes => scanEnds_of_mem_rules hr hes,
    fun o henabled hpasses => ?_⟩
  · exact (condenses_of_mem_rules hr steps).lighter.resolve_left hne
  · have hrun : o.run steps = passes o.maxPasses steps := if_pos henabled
    have hweight : weight (Step.instrs steps) < o.maxPasses := by
      have hle := weight_le (Step.instrs steps)
      rw [Step.instrs, List.length_map] at hle
      change weight (steps.map _) < _
      omega
    have hsettled : Settled (o.run steps) := hrun ▸ settled_passes hweight
    exact ⟨hrun.trans (writtenPasses_eq hnames _).symm, hsettled, hsettled.run_eq⟩

/-- One roll becomes a swap only once its operand is an opcode, the swap goes in the pass after, and
a return moves to the front. -/
theorem optimizer_settles_after_rewriting :
    let steps := Step.ofList
      [.var [97], .push [1], .op .roll, .op (.binary .add), .op .opReturn, .op .verify]
    let o : Optimizer := { enabled := true, maxPasses := 14 }
    (∀ i ∈ Step.instrs steps, i.WellNamed) ∧
    Step.instrs (o.run steps) = [.op .opReturn, .var [97], .op (.binary .add)] ∧
    (o.run steps = writtenPasses o.maxPasses steps ∧ Settled (o.run steps) ∧
      ∀ again : Optimizer, again.run (o.run steps) = o.run steps) := by
  intro steps o
  have hnames : ∀ i ∈ Step.instrs steps, i.WellNamed := by
    simp only [steps, Step.ofList, Step.instrs, List.map_cons, List.map_nil, List.forall_mem_cons]
    exact ⟨.var (by decide), .push _, .op _, .op _, .op _, .op _, List.forall_mem_nil _⟩
  exact ⟨hnames, by cbv, (optimizer_settles hnames).2.2 o rfl (by decide)⟩

end Peephole

end NamedStack
