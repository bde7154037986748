import NamedStack.Proofs.Machine.Written
import NamedStack.Proofs.Peephole.Outline
import NamedStack.Proofs.Resolve.History
import NamedStack.Proofs.Resolve.Surroundings

/-!
# Reads along passes

Along the passes, reads of a name go from the left, and writes go or stay; so what is known to be
written at a read in a later pass is known at the same read in the analysed program. A name that is
not on the initial stack never comes to be on it.
-/

namespace NamedStack

/-! ### Names that are not on the initial stack -/

namespace Table

variable {t : Table} {x : Name} {sym : Symbol}

/-- Whether a name is none of the initial stack. -/
structure Unstacked (t : Table) (x : Name) : Prop where
  notMem : x ∉ t.stack
  notItem : ∀ sym, t.lookup? x = some sym → sym.kind ≠ .stackItem

private theorem lookupIn_updateIn {hidden : Bool} {a : List Scope} (hsym : sym.kind ≠ .stackItem)
    (h : ∀ old, lookupIn x hidden a = some old → old.kind ≠ .stackItem) :
    ∀ new, lookupIn x hidden (updateIn sym hidden a) = some new → new.kind ≠ .stackItem := by
  induction a generalizing hidden with
  | nil => exact h
  | cons s a ih =>
    have hfurther : ∀ new,
        lookupIn x hidden (s :: updateIn sym (hidden || s.kind = .innerScript) a) = some new →
          new.kind ≠ .stackItem := by
      rw [lookupIn] at h ⊢
      cases hfind : s.find? x with
      | none =>
        rw [hfind] at h
        exact ih h
      | some found =>
        simp only [hfind] at h ⊢
        by_cases hvisible : visible hidden found = true
        · simp only [if_pos hvisible] at h ⊢
          exact h
        · simp only [if_neg hvisible] at h ⊢
          exact ih h
    rw [updateIn]
    split
    · split
      · rw [lookupIn] at h ⊢
        simp only [Scope.find?_insert]
        by_cases hx : x = sym.name
        · simp only [if_pos hx]
          split
          · rintro new ⟨⟩
            exact hsym
          · next hvisible =>
            -- what cannot be seen here is hidden, and so is all but functions further out
            have hhidden : hidden = true := by
              cases hidden with
              | true => rfl
              | false => exact absurd rfl hvisible
            intro new hnew hkind
            rw [hhidden, Bool.true_or] at hnew
            rw [kind_of_lookupIn hnew] at hkind
            cases hkind
        · simp only [if_neg hx]
          exact h
      · exact hfurther
    · exact hfurther

private theorem stack_update (t : Table) (sym : Symbol) : (t.update sym).stack = t.stack := by
  have hstack (hidden : Bool) (a : List Scope) : stackIn (updateIn sym hidden a) = stackIn a := by
    induction a generalizing hidden with
    | nil => rfl
    | cons s a ih =>
      rw [updateIn]
      split
      · split
        · rfl
        · rw [stackIn, stackIn, ih]
      · rw [stackIn, stackIn, ih]
  rw [stack, stack, stack?, stack?, scopes_update, hstack]

namespace Unstacked

private theorem declare (h : t.Unstacked x) (hsym : sym.kind ≠ .stackItem) :
    (t.declare sym).Unstacked x := by
  refine ⟨h.notMem, fun found hfound => ?_⟩
  rw [lookup?_declare] at hfound
  split at hfound
  · cases hfound
    exact hsym
  · exact h.notItem found hfound

private theorem update (h : t.Unstacked x) (hsym : sym.kind ≠ .stackItem) :
    (t.update sym).Unstacked x := by
  refine ⟨stack_update t sym ▸ h.notMem, ?_⟩
  rw [lookup?, scopes_update]
  exact lookupIn_updateIn hsym h.notItem

/-- Binding names that are assigned adds none to the initial stack. -/
theorem bindAssigned (h : t.Unstacked x) (steps : List Step) :
    (Session.bindAssigned t steps).Unstacked x := by
  unfold Session.bindAssigned
  induction steps generalizing t with
  | nil => exact h
  | cons s steps ih =>
    rw [List.foldl_cons]
    apply ih
    split
    · split
      · exact h
      · exact h.declare (by simp)
    · exact h

/-- Recording names that are assigned adds none to the initial stack. -/
theorem recordAssigned (h : t.Unstacked x) (o : Occurrences) :
    (Session.recordAssigned t o).Unstacked x := by
  unfold Session.recordAssigned
  generalize o.names = names
  induction names generalizing t with
  | nil => exact h
  | cons name names ih =>
    rw [List.foldl_cons]
    apply ih
    split
    · exact h.update (by simp)
    · exact h

/-- Inner scripts have an empty initial stack. -/
theorem enterInner (t : Table) (x : Name) :
    ((t.enter .innerScript).declareStack []).Unstacked x := by
  refine ⟨List.not_mem_nil, fun sym hsym hkind => ?_⟩
  rw [kind_of_lookupIn (show lookupIn x true t.scopes = some sym from hsym)] at hkind
  cases hkind

end Unstacked

/-- A name that is none of a program's initial stack. -/
theorem unstacked_ofProgram {p : Program} (h : x ∉ p.stack) : (ofProgram p).Unstacked x := by
  have hstart : (({} : Table).declareStack p.stack).Unstacked x := by
    refine ⟨?_, fun sym hsym => ?_⟩
    · rwa [stack_declareStack]
    · rw [lookup?_eq _ rfl] at hsym
      rcases Scope.find?_declareStack { kind := .general } p.stack x with ⟨hnone, -⟩ | ⟨hmem, -⟩
      · cases hnone.symm.trans hsym
      · exact absurd hmem h
  rw [ofProgram]
  generalize ({} : Table).declareStack p.stack = t at hstart
  induction p.functions generalizing t with
  | nil => exact hstart
  | cons f fs ih => exact ih _ (hstart.declare (by simp))

end Table

/-! ### Reads along passes -/

namespace Definite

open Peephole

variable {x : Name}

/-- Go past an instruction, and note what is known if it is a read of the name. -/
private def gather (x : Name) (p : Definite × List Bool) (i : Instr) : Definite × List Bool :=
  (p.1.step x i, if i = .var x then p.2 ++ [p.1.now] else p.2)

private theorem foldl_gather (d : Definite) (flags : List Bool) (ops : List Instr) :
    ops.foldl (gather x) (d, flags) = (d.run x ops, flags ++ reads x d ops) := by
  induction ops generalizing d flags with
  | nil => rw [reads, List.append_nil]; rfl
  | cons i rest ih =>
    rw [List.foldl_cons, gather, ih, reads]
    split
    · rw [List.append_assoc]
      rfl
    · rfl

private theorem gathers_gather (x : Name) : Gathers (gather x) where
  outside := by
    rintro ⟨d, flags⟩ i hi
    obtain ⟨hopen, hmarker⟩ := Bool.or_eq_false_iff.mp hi
    cases i with
    | op o =>
      rw [gather, if_neg (by simp), step_of_notMarker (by rintro _ ⟨⟩; simpa using hi) (by simp)]
    | push data => rw [gather, if_neg (by simp), step_of_notMarker (by simp) (by simp)]
    | _ => cases hopen
  turned := fun _ => rfl
  emptyArm := by
    rintro ⟨⟨now, _ | ⟨⟨entry, _ | arm⟩, ls⟩⟩, flags⟩
    · rfl
    · simp only [gather, step, Option.getD, Bool.and_comm]
      rfl
    · rfl
  empty := by
    rintro ⟨⟨now, levels⟩, flags⟩
    simp only [gather, step, Option.getD, Bool.and_self]
    rfl

/-- Straight instructions are quiet. -/
theorem quiet_of_straight {i : Instr} (h : Straight i) (x : Name) : Quiet x i where
  marker := h.not_marker
  assign := by
    rintro rfl
    exact h
  var := by
    rintro rfl
    exact h

/-- For each read of a name, whether the name is known to be written. -/
def known (x : Name) (steps : List Step) : List Bool := reads x {} (Step.instrs steps)

/-- The optimizer keeps what is known at reads. -/
theorem known_run (x : Name) (opt : Optimizer) (steps : List Step) :
    known x (opt.run steps) = known x steps := by
  have hrun := opt.foldl_run (gathers_gather x) steps ({}, [])
  rw [foldl_gather, foldl_gather, List.nil_append, List.nil_append] at hrun
  exact (Prod.ext_iff.mp hrun).2

/-- Each read is listed once. -/
theorem length_known (x : Name) (steps : List Step) :
    (known x steps).length = (Step.instrs steps).count (.var x) := length_reads _ _

/-- Whether what is known at reads is known at others, counted from the last one. -/
def Trails (a b : List Bool) : Prop :=
  ∀ j : Nat, a.reverse[j]? = some true → b.reverse[j]? = some true

/-- Trails of trails. -/
theorem Trails.trans {a b c : List Bool} (h : Trails a b) (h' : Trails b c) : Trails a c :=
  fun j hj => h' j (h j hj)

private theorem trails_append {a b : List Bool} (front : List Bool)
    (h : List.Forall₂ (fun a b : Bool => a = true → b = true) a b) : Trails a (front ++ b) := by
  intro j hj
  obtain ⟨hlt, htrue⟩ := List.getElem?_eq_some_iff.mp hj
  have hreverse := List.forall₂_reverse_iff.mpr h
  have hlt' : j < b.reverse.length := hreverse.length_eq ▸ hlt
  rw [List.reverse_append, List.getElem?_append_left hlt', List.getElem?_eq_getElem hlt']
  exact congrArg some (hreverse.get hlt hlt' htrue)

end Definite

namespace Session

open Definite

variable {inner : InnerResult} {o : Options} {opt : Option Peephole.Optimizer}
variable {s s' last : Session} {ctx : Context} {k : Nat} {r : Replacement} {x : Name}

/-- A context knows what its session does. -/
theorem known_of_sees (h : Sees o opt s ctx) (x : Name) : known x ctx.steps = known x s.steps := by
  obtain ⟨s₁, hctx⟩ := h
  have hinstrs := instrs_of_run_currentContext hctx
  obtain ⟨-, hsteps, -⟩ := of_run_currentContext hctx
  rw [known, ← hsteps, hinstrs]
  cases opt with
  | none => rfl
  | some opt => exact known_run x opt s.steps

/-- What may be put in place of instructions, as far as reads of a name are concerned. -/
structure Exchanged (x : Name) (old new : List Instr) : Prop where
  opcodes : ∀ i ∈ old, ∀ o, i ≠ .op o
  reads : old = [.var x] ∨ .var x ∉ old
  quiet : new = old ∨ ∀ i ∈ new, Quiet x i

private theorem Replaces.exchanged {slots : List Name} {st : Step}
    (h : Replaces ctx slots k st.instr r) (hst : ctx.steps[k]? = some st)
    (hreplaceable : Replaceable st.instr) (x : Name) :
    Exchanged x (Step.instrs ((ctx.steps.drop k).take r.2)) (Step.instrs r.1) := by
  cases h with
  | @code new hnew hexpands =>
    have hone : Step.instrs ((ctx.steps.drop k).take 1) = [st.instr] := by
      rw [Step.take_one_drop hst]
      rfl
    rw [hone]
    refine ⟨List.forall_mem_singleton.mpr hreplaceable.2, ?_, ?_⟩
    · by_cases hvar : st.instr = .var x
      · exact .inl (by rw [hvar])
      · exact .inr (by simpa using Ne.symm hvar)
    · rcases hexpands.cases_eq with hsame | ⟨-, ⟨ops, hscript⟩ | hcode⟩
      · exact .inl hsame
      · refine .inr ?_
        rw [hscript, List.forall_mem_singleton]
        exact ⟨by simp, by simp, by simp⟩
      · exact .inr fun i hi => quiet_of_straight (hcode i hi) x
  | @elides n _ _ _ hreads =>
    have hassume : ∀ i ∈ Step.instrs ((ctx.steps.drop k).take n), ∃ name, i = .assume name := by
      intro i hi
      obtain ⟨st, hst, rfl⟩ := List.mem_map.mp hi
      exact hreads st hst
    refine ⟨fun i hi o ho => ?_, .inr fun hvar => ?_, .inr (List.forall_mem_nil _)⟩
    · obtain ⟨name, rfl⟩ := hassume i hi
      cases ho
    · obtain ⟨name, hname⟩ := hassume _ hvar
      cases hname

private theorem Edits.exists_exchanged (h : Edits inner o opt s ctx k r s') (hinner : Inward inner)
    (hs : s.Expanded) (x : Name) : ∃ front old new back, .var x ∉ front ∧ Exchanged x old new ∧
      front.length = k ∧ Step.instrs ctx.steps = front ++ (old ++ back) ∧
      Step.instrs s'.steps = front ++ (new ++ back) := by
  obtain ⟨⟨st, hst, hreplaces, hreplaceable⟩, hsteps, -⟩ := h.spec hinner hs
  obtain ⟨-, -, -, -, -, -, -, hfront⟩ := h.exists_visit hinner
  obtain ⟨hk, -⟩ := List.getElem?_eq_some_iff.mp hst
  refine ⟨Step.instrs (ctx.steps.take k), _, _, Step.instrs (ctx.steps.drop (k + r.2)), ?_,
    hreplaces.exchanged hst hreplaceable x, ?_, instrs_split ctx.steps k r.2, ?_⟩
  · intro hmem
    obtain ⟨st, hst, hvar⟩ := List.mem_map.mp hmem
    exact (hfront st hst x).2 hvar
  · rw [Step.instrs, List.length_map, List.length_take_of_le hk.le]
  · rw [hsteps, Step.instrs_append, Step.instrs_append, List.append_assoc]

/-- Along a pass, reads go from the left and no more is known at those that stay. -/
theorem Edits.trails (h : Edits inner o opt s ctx k r s') (hinner : Inward inner) (hs : s.Expanded)
    (x : Name) : Trails (known x s'.steps) (known x s.steps) := by
  obtain ⟨front, old, new, back, hfront, hexchanged, -, hctx, hsteps⟩ :=
    h.exists_exchanged hinner hs x
  rw [← known_of_sees h.sees, known, known, hctx, hsteps]
  rcases hexchanged.quiet with rfl | hquiet
  · exact fun _ hj => hj
  · obtain ⟨hnone, hrun⟩ := reads_of_quiet (({} : Definite).run x front) hquiet
    simp only [reads_append]
    rw [reads_eq_nil _ hfront, hnone, hrun, List.nil_append, List.nil_append, List.nil_append]
    refine trails_append _ (Below.reads (below_run _ x fun i hi o ho => ?_) x back)
    exact absurd ho (hexchanged.opcodes i hi o)

/-- A pass after which fewer reads are left replaces the first one. -/
theorem Edits.read_of_count (h : Edits inner o opt s ctx k r s') (hinner : Inward inner)
    (hs : s.Expanded) {c : Nat} (hlow : (Step.instrs s'.steps).count (.var x) ≤ c)
    (hhigh : c < (Step.instrs s.steps).count (.var x)) :
    (Step.instrs ctx.steps)[k]? = some (.var x) ∧
      ((Step.instrs ctx.steps).drop (k + 1)).count (.var x) = c := by
  obtain ⟨front, old, new, back, hfront, hexchanged, rfl, hctx, hsteps⟩ :=
    h.exists_exchanged hinner hs x
  rw [← length_known, ← known_of_sees h.sees, length_known, hctx] at hhigh
  rw [hsteps] at hlow
  simp only [List.count_append, List.count_eq_zero.mpr hfront, Nat.zero_add] at hlow hhigh
  rcases hexchanged.reads with rfl | hnone
  · rw [List.count_singleton_self] at hhigh
    rw [hctx, List.getElem?_append_right (Nat.le_refl _), Nat.sub_self]
    refine ⟨rfl, ?_⟩
    rw [List.drop_append, List.drop_of_length_le (Nat.le_succ _), Nat.add_sub_cancel_left]
    change back.count (.var x) = c
    omega
  · rw [List.count_eq_zero.mpr hnone] at hhigh
    omega

/-- Where a pass leaves at most so many reads of which there were more, it replaces one. -/
theorem exists_edits_of_count {c : Nat} (hreaches : Reaches inner o opt s last)
    (hlow : (Step.instrs last.steps).count (.var x) ≤ c)
    (hhigh : c < (Step.instrs s.steps).count (.var x)) :
    ∃ s₁ ctx k r s₂, Reaches inner o opt s s₁ ∧ Edits inner o opt s₁ ctx k r s₂ ∧
      (Step.instrs s₂.steps).count (.var x) ≤ c ∧ c < (Step.instrs s₁.steps).count (.var x) := by
  induction hreaches with
  | refl => omega
  | @tail s₁ s₂ hreaches hpass ih =>
    by_cases hmid : (Step.instrs s₁.steps).count (.var x) ≤ c
    · exact ih hmid
    · obtain ⟨ctx, k, r, hedits⟩ := hpass
      exact ⟨s₁, ctx, k, r, s₂, hreaches, hedits, hlow, Nat.not_le.mp hmid⟩

/-- Over the last session a pass finds no read. -/
theorem count_eq_zero_of_run_pass (hinner : Inward inner)
    (h : (pass inner o opt).run s = .ok false s') (x : Name) :
    (Step.instrs s.steps).count (.var x) = 0 := by
  obtain ⟨ctx, s₁, hctx, hfirst⟩ := of_run_pass_false h
  obtain ⟨-, hreads⟩ := unread_of_run_firstReplacement hinner hfirst
  rw [← length_known, ← known_of_sees ⟨s₁, hctx⟩, length_known, List.count_eq_zero]
  intro hmem
  obtain ⟨st, hst, hvar⟩ := List.mem_map.mp hmem
  exact (hreads st hst x).2 hvar

end Session

end NamedStack
