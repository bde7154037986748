import NamedStack.Proofs.Engine.Executed
import NamedStack.Proofs.Resolve.Accepted

/-!
# What steps say of effects that depend on data

A context takes the effects of `IFDUP` and of checks of several signatures from literals in front of
them, and a step keeps what was found while the program around it is resolved. No literal is ever
replaced, and nothing is put between a literal and what follows it; so `IFDUP` says that it adds an
item only where a number stands in front of it still. The counts of a check may have been found when
other instructions stood in front of it, but what it says that it takes is what they say.
-/

namespace NamedStack

/-! ### Steps -/

/-- Whether an instruction is a literal that is a number. -/
def Instr.isNumber (i : Instr) : Bool := i.toInt?.isSome

/-- What a step may say of an effect that depends on data, given whether a number stands in front of
it: `IFDUP` adds nothing unless one does, and a check of several signatures takes what its counts
say, or nothing while it has none. -/
structure Step.Told (number : Bool) (s : Step) : Prop where
  ifDup : s.instr = .op .ifDup → s.delta = 0 ∨ number = true
  multisig : ∀ o r, s.instr = .op o → o.multisigResults? = some r →
    s.delta = (s.multisig.map fun m => (r : Int) - (3 + m.keys + m.sigs : Nat)).getD 0

namespace Step

variable {s : Step} {number number' : Bool}

private theorem told_of (i : Instr) (number : Bool) : (Step.of i).Told number where
  ifDup := by
    rintro rfl
    exact .inl rfl
  multisig := by
    rintro o r rfl ho
    cases o with
    | checkMultiSig | checkMultiSigVerify => rfl
    | _ => cases ho

private theorem told_of_steady (h : Steady s.instr) (number : Bool) : s.Told number where
  ifDup := by
    intro hs
    rw [hs] at h
    exact h.elim
  multisig := by
    intro o r hs ho
    rw [hs] at h
    cases o with
    | checkMultiSig | checkMultiSigVerify => exact h.elim
    | _ => cases ho

private theorem Told.mono (h : s.Told number) (hnumber : number = true → number' = true) :
    s.Told number' :=
  ⟨fun hs => (h.ifDup hs).imp_right hnumber, h.multisig⟩

/-- What the literals in front of a step tell may be said. -/
theorem Told.refine (h : s.Told number) {steps : List Step} {i : Nat}
    (hnumber : ∀ n, intAt? steps (i - 1) = some n → number = true) :
    (Context.refine steps i s).Told number := by
  have hmultisig {o : Opcode} {r : Nat} (hs : s.instr = .op o) (ho : o.multisigResults? = some r)
      (hif : o ≠ .ifDup) : (Context.refine.multisig steps i s r).Told number := by
    unfold Context.refine.multisig
    split
    · refine ⟨fun hs' => absurd (hs.symm.trans hs') (by simpa using hif), ?_⟩
      rintro o' r' hs' ho'
      obtain rfl : o = o' := Instr.op.inj (hs.symm.trans hs')
      obtain rfl : r = r' := Option.some.inj (ho.symm.trans ho')
      rfl
    · exact h
  unfold Context.refine
  split
  · split
    · exact ⟨h.ifDup, h.multisig⟩
    · exact h
  · split
    · exact ⟨h.ifDup, h.multisig⟩
    · exact h
  · next hs =>
    split
    · next n hn =>
      refine ⟨fun _ => .inr (hnumber n hn), fun o r hs' ho => ?_⟩
      obtain rfl := Instr.op.inj (hs.symm.trans hs')
      cases ho
    · exact h
  · next hs => exact hmultisig hs rfl (by decide)
  · next hs => exact hmultisig hs rfl (by decide)
  · exact h

end Step

/-! ### Programs -/

/-- Whether a number stands at the end of instructions, or in front of them if there are none. -/
def numberBehind (number : Bool) (ops : List Instr) : Bool :=
  ops.foldl (fun _ i => i.isNumber) number

private theorem numberBehind_eq_false {ops : List Instr} (hne : ops ≠ [])
    (h : ∀ i ∈ ops, i.isNumber = false) (number : Bool) : numberBehind number ops = false := by
  rcases List.eq_nil_or_concat ops with rfl | ⟨front, i, rfl⟩
  · exact absurd rfl hne
  · rw [List.concat_eq_append] at h ⊢
    rw [numberBehind, List.foldl_append]
    exact h i (List.mem_append_right _ (.head _))

/-- Whether each step says only what it may say, given whether a number stands in front of all. -/
def AllTold (number : Bool) : List Step → Prop
  | [] => True
  | s :: rest => s.Told number ∧ AllTold s.instr.isNumber rest

variable {steps front mid new back : List Step} {number : Bool}

private theorem allTold_append : AllTold number (front ++ back) ↔
    AllTold number front ∧ AllTold (numberBehind number (Step.instrs front)) back := by
  induction front generalizing number with
  | nil => exact ⟨fun h => ⟨trivial, h⟩, And.right⟩
  | cons s rest ih =>
    rw [List.cons_append, AllTold, AllTold, ih, and_assoc]
    rfl

private theorem allTold_of_forall (h : ∀ s ∈ steps, ∀ number, s.Told number) (number : Bool) :
    AllTold number steps := by
  induction steps generalizing number with
  | nil => trivial
  | cons s rest ih =>
    obtain ⟨hs, hrest⟩ := List.forall_mem_cons.mp h
    exact ⟨hs number, ih hrest _⟩

/-- Each step is told by the instructions in front of it. -/
theorem allTold_iff : AllTold number steps ↔
    ∀ (i : Nat) (s : Step), steps[i]? = some s →
      s.Told (numberBehind number ((Step.instrs steps).take i)) := by
  induction steps generalizing number with
  | nil => exact ⟨fun _ => nofun, fun _ => trivial⟩
  | cons s rest ih =>
    rw [AllTold, ih]
    constructor
    · rintro ⟨hs, hrest⟩ (_ | i) st hst
      · cases hst
        exact hs
      · exact hrest i st hst
    · intro h
      exact ⟨h 0 s rfl, fun i st hst => h (i + 1) st hst⟩

namespace AllTold

/-- What may be said without a number in front may be said with one. -/
theorem of_false (h : AllTold false steps) (number : Bool) : AllTold number steps := by
  cases steps with
  | nil => trivial
  | cons s rest => exact ⟨h.1.mono nofun, h.2⟩

/-- Other steps may be put in place of steps that end in no number. -/
theorem splice (h : AllTold false (front ++ (mid ++ back))) (hne : mid ≠ [])
    (hmid : ∀ s ∈ mid, s.instr.isNumber = false) (hnew : ∀ s ∈ new, ∀ number, s.Told number) :
    AllTold false (front ++ (new ++ back)) := by
  simp only [allTold_append] at h ⊢
  obtain ⟨hfront, -, hback⟩ := h
  refine ⟨hfront, allTold_of_forall hnew _, ?_⟩
  rw [numberBehind_eq_false] at hback
  · exact hback.of_false _
  · rwa [Step.instrs, ne_eq, List.map_eq_nil_iff]
  · intro i hi
    obtain ⟨s, hs, rfl⟩ := List.mem_map.mp hi
    exact hmid s hs

/-- Steps may say more if it may be said where they stand. -/
theorem zipIdx_map (h : AllTold false steps) {f : Step × Nat → Step}
    (hinstr : ∀ p, (f p).instr = p.1.instr)
    (hf : ∀ i s, steps[i]? = some s → s.Told (numberBehind false ((Step.instrs steps).take i)) →
      (f (s, i)).Told (numberBehind false ((Step.instrs steps).take i))) :
    AllTold false (steps.zipIdx.map f) := by
  have hinstrs : Step.instrs (steps.zipIdx.map f) = Step.instrs steps := by
    rw [Step.instrs, List.map_map, show (fun s : Step => s.instr) ∘ f = (·.instr) ∘ Prod.fst from
      funext hinstr, ← List.map_map, List.zipIdx_map_fst]
    rfl
  rw [allTold_iff] at h ⊢
  intro i s hs
  rw [List.getElem?_map, List.getElem?_zipIdx, Nat.zero_add, Option.map_map] at hs
  obtain ⟨st, hst, rfl⟩ := Option.map_eq_some_iff.mp hs
  rw [hinstrs]
  exact hf i st hst (h i st hst)

end AllTold

/-- The integer at a position is that of the instruction. -/
theorem intAt?_eq (steps : List Step) (j : Nat) :
    Step.intAt? steps j = (Step.instrs steps)[j]?.bind Instr.toInt? := by
  rw [Step.instrs, List.getElem?_map, Option.bind_map]
  rfl

/-- Integers only need the instructions. -/
theorem intAt?_congr {other : List Step} (h : Step.instrs other = Step.instrs steps) (j : Int) :
    Step.intAt? other j = Step.intAt? steps j := by
  cases j with
  | ofNat j => exact (intAt?_eq other j).trans (h ▸ (intAt?_eq steps j).symm)
  | negSucc j => rfl

/-- A number is read in front of a position exactly if one stands there. -/
theorem numberBehind_take {i : Nat} (hi : i ≤ steps.length) :
    numberBehind false ((Step.instrs steps).take i) = (Step.intAt? steps (i - 1)).isSome := by
  cases i with
  | zero => rfl
  | succ j =>
    have hj : j < (Step.instrs steps).length := by rwa [Step.instrs, List.length_map]
    rw [Nat.cast_succ, Int.add_sub_cancel, intAt?_eq, numberBehind, List.take_add_one,
      List.getElem?_eq_getElem hj, List.foldl_append]
    rfl

/-- A context leaves steps that say what they may say. -/
theorem AllTold.refined (h : AllTold false steps) :
    AllTold false (steps.zipIdx.map fun p => Context.refine steps p.2 p.1) := by
  refine h.zipIdx_map (fun p => Context.instr_refine steps p.2 p.1) fun i s hs htold => ?_
  refine htold.refine fun n hn => ?_
  rw [numberBehind_take (List.getElem?_eq_some_iff.mp hs).1.le, hn]
  rfl

/-! ### Sessions -/

variable {i : Instr}

private theorem Replaceable.steady (h : Replaceable i) : Steady i :=
  (steady_iff i).mpr ⟨h.2 _, h.2 _, h.2 _⟩

private theorem Replaceable.isNumber_eq_false (h : Replaceable i) : i.isNumber = false := by
  cases i with
  | op o => exact absurd rfl (h.2 o)
  | push data => exact absurd trivial h.1
  | _ => rfl

namespace Session

variable {s s' : Session} {o : Options} {e : Nat}

/-- Whether the steps of a session say what they may say. -/
def Told (s : Session) : Prop := AllTold false s.steps

/-- Whether the steps of a session are those of a context of steps that say what they may say. -/
def Refined (s : Session) : Prop :=
  ∃ steps, AllTold false steps ∧ s.steps = steps.zipIdx.map fun p => Context.refine steps p.2 p.1

namespace Told

private theorem of_currentContext (hs : s.Told) {ctx : Context}
    (h : (currentContext o).run s = .ok ctx s') : s'.Refined := by
  obtain ⟨hof, hsteps, -⟩ := of_run_currentContext h
  obtain ⟨branches, -, rfl⟩ := Context.of_cases hof
  exact ⟨s.steps, hs, hsteps⟩

private theorem of_refined (hs : s.Refined) : s.Told := by
  obtain ⟨steps, htold, hsteps⟩ := hs
  rw [Told, hsteps]
  exact htold.refined

/-- Steps may be put in place of ones that are no numbers. -/
theorem of_splice (hs : s.Told) {k n : Nat} (hne : (s.steps.drop k).take n ≠ [])
    (hmid : ∀ st ∈ (s.steps.drop k).take n, st.instr.isNumber = false)
    (hnew : ∀ st ∈ new, ∀ number, st.Told number) (h : (splice k n new).run s = .ok () s') :
    s'.Told := by
  cases h
  rw [Told, ← List.take_append_drop k s.steps, ← List.take_append_drop n (s.steps.drop k)] at hs
  have hsplice := hs.splice hne hmid hnew
  rwa [List.drop_drop, ← List.append_assoc] at hsplice

private theorem keptByExpansion : KeptByExpansion o Told where
  context := fun _ _ _ hs h => of_refined (hs.of_currentContext h)
  expand := by
    intro s s' front back name args ops hs hsteps h
    have hmid : Step.instrs ((s.steps.drop front.length).take 1) = [.call name args] := by
      rw [Step.instrs, List.map_take, List.map_drop, ← Step.instrs, hsteps, List.drop_left]
      rfl
    refine hs.of_splice ?_ (fun st hst => ?_) (fun st hst number => ?_) h
    · intro hnil
      rw [hnil] at hmid
      cases hmid
    · have hinstr : st.instr ∈ Step.instrs ((s.steps.drop front.length).take 1) :=
        List.mem_map_of_mem hst
      rw [hmid, List.mem_singleton] at hinstr
      rw [hinstr]
      rfl
    · obtain ⟨i, -, rfl⟩ := List.mem_map.mp hst
      exact Step.told_of i number

/-- The code that fills slots comes to stand in front, and reads are marked. -/
theorem of_route (hs : s.Told) (h : (route o).run s = .ok () s') : s'.Told := by
  obtain ⟨ctx, s₁, r, slots, setup, hctx, -, hsetup, rfl⟩ := of_run_route h
  have hmarked : AllTold false (markDuplicates ctx.duplicates s₁.steps) :=
    (of_refined (hs.of_currentContext hctx)).zipIdx_map (fun _ => rfl) fun _ _ _ hst =>
      ⟨hst.ifDup, hst.multisig⟩
  refine allTold_append.mpr ⟨allTold_of_forall (fun st hst number => ?_) _, hmarked.of_false _⟩
  obtain ⟨i, rfl, -⟩ := (AltSlots.setup_code hsetup).1 st hst
  exact Step.told_of i number

/-- A pass leaves steps that say what they may say; if it replaces nothing, they are those of the
context that it has found. -/
theorem of_pass {ops : List Instr} {slots : List Name} {inner : InnerResult}
    (hinner : Inward inner) {opt : Option Peephole.Optimizer}
    (hopt : ∀ p, opt = some p → p.enabled = false) (hcalls : ∀ i ∈ ops, i.isCall = false)
    (hresolving : Resolving ops slots s) (hs : s.Told) {b : Bool}
    (h : (pass inner o opt).run s = .ok b s') : if b then s'.Told else s'.Refined := by
  obtain ⟨ctx, s₁, r, s₂, hctx, hfirst, hcases⟩ := of_run_pass h
  have hoptimized := steps_optimized hopt s
  have hrefined : s₁.Refined := by
    refine of_currentContext ?_ hctx
    rwa [Told, hoptimized]
  have hsound : (s.optimized opt).Sound := ⟨hoptimized ▸ hresolving.genuine, hresolving.free⟩
  obtain ⟨hsound₁, hinstrs⟩ := hsound.of_currentContext hctx
  obtain ⟨-, hsteps, -⟩ := of_run_currentContext hctx
  have hexpansion := hresolving.expansion
  rw [← hoptimized, ← hinstrs, hsteps] at hexpansion
  have hcalls₁ : ∀ st ∈ ctx.steps, st.instr.isCall = false := fun st hst =>
    hexpansion.isCall_eq_false hcalls _ (List.mem_map_of_mem hst)
  obtain ⟨hkeeps, hsome, -⟩ := of_run_firstReplacement hinner ctx.steps hcalls₁ hsound₁.free hfirst
  have hsteps₂ : s₂.steps = s₁.steps := hkeeps.steps
  have hrefined₂ : s₂.Refined := by
    rwa [Refined, hsteps₂]
  rcases hcases with ⟨-, rfl, rfl⟩ | ⟨i, new, n, rfl, rfl, hsplice⟩
  · exact hrefined₂
  · obtain ⟨k, st, rfl, hst, hreplaces, hreplaceable⟩ := hsome i (new, n) rfl
    rw [Nat.zero_add] at hreplaces hsplice
    rw [← hsteps, ← hsteps₂] at hst
    cases hreplaces with
    | code _ hexpands =>
      have hone := Step.take_one_drop hst
      refine (of_refined hrefined₂).of_splice ?_ ?_ (fun st' hst' => ?_) hsplice
      · rw [hone]
        exact List.cons_ne_nil _ _
      · rw [hone]
        exact List.forall_mem_singleton.mpr hreplaceable.isNumber_eq_false
      · exact Step.told_of_steady (hexpands.steady hreplaceable.steady _ (List.mem_map_of_mem hst'))
    | elides _ hpos _ hreads =>
      rw [← hsteps, ← hsteps₂] at hreads
      refine (of_refined hrefined₂).of_splice ?_ (fun st' hst' => ?_) (List.forall_mem_nil _)
        hsplice
      · intro hnil
        rw [List.take_eq_nil_iff] at hnil
        rcases hnil with rfl | hnil
        · cases hpos
        · have hlt := (List.getElem?_eq_some_iff.mp hst).1
          exact absurd (List.drop_eq_nil_iff.mp hnil) (Nat.not_le.mpr hlt)
      · obtain ⟨name, hname⟩ := hreads st' hst'
        rw [hname]
        rfl

end Told

variable {opt : Option Peephole.Optimizer}

/-- The steps of a resolved program are those of the last context that was found. -/
theorem refined_of_run_resolveDeep (hopt : ∀ p, opt = some p → p.enabled = false) {n : Nat}
    (hsound : s.Sound) (hs : s.Told) (h : (resolveDeep o opt e n).run s = .ok () s') :
    s'.Refined := by
  obtain ⟨inner, s₀, s₁, s₂, ctx, r, setup, k, hinner, hcalls, hroute, -, -, hstart, hnone, hrun⟩ :=
    parts_of_run_resolveDeep hsound h
  have htold : s₁.Told := (of_run_expandCalls Told.keptByExpansion hs hcalls).1.of_route hroute
  refine of_run_resolve (I := fun s => Resolving _ _ s ∧ s.Told) (fun s s' b hs h => ?_)
    ⟨hstart, htold⟩ hrun
  have hpass := Told.of_pass hinner hopt hnone hs.1 hs.2 h
  cases b with
  | true => exact ⟨(hs.1.of_pass hinner hopt hnone h).1, hpass⟩
  | false => exact hpass

/-- So are those of a program that is resolved as it was read. -/
theorem refined_of_resolve {p : Program} (hopt : ∀ q, opt = some q → q.enabled = false)
    (h : NamedStack.resolve (.ofProgram p) o opt p.ops = { session := s, failure := none }) :
    s.Refined := by
  have hsound : Session.Sound { steps := Step.ofList p.ops, table := .ofProgram p } :=
    ⟨Step.genuine_ofList p.ops, Table.parameterFree_ofProgram p⟩
  have hstart : Session.Told { steps := Step.ofList p.ops, table := .ofProgram p } := by
    refine allTold_of_forall (fun st hst => ?_) false
    obtain ⟨i, -, rfl⟩ := List.mem_map.mp hst
    exact Step.told_of i
  exact refined_of_run_resolveDeep hopt hsound hstart (resolveWithin_eq_iff.mp h)

end Session

end NamedStack
