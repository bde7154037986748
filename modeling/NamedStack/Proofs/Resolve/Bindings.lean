import NamedStack.Proofs.Resolve.Assigning
import NamedStack.Proofs.Resolve.Following
import NamedStack.Proofs.Resolve.NoReference

/-!
# What resolving leaves in the table

Resolving a program binds the names that it assigns, in the innermost scope and only if they stand
for nothing, and records how often variables are assigned. Assigned are the names that are written
in the program, in the functions it calls and in the contents of parameters that are read. Nothing
else changes in the table, whether resolving succeeds or fails. The scopes of calls and of inner
scripts are closed again on the table as it was when they were opened.
-/

namespace NamedStack

namespace Expand

/-- Closing the scope of a call gives back the table in front of it. -/
theorem leave_bind (t : Table) (params : List Name) (args : List (List Instr)) :
    (bind t params args).leave = .ok t := by
  have houter : (bind t params args).outer = (t.enter .function).outer :=
    Table.bind_induction (P := fun u => u.outer = _) rfl fun _ hu _ _ _ => hu
  rw [Table.leave, houter]
  rfl

end Expand

namespace Session

/-! ### Computations that keep the table -/

/-- The session that a computation ends with, also where it fails. -/
def last {α : Type} : EStateM.Result Failure Session α → Session
  | .ok _ s => s
  | .error _ s => s

/-- Whether the table of a session extends another one by names with a property, and its program
assigns no other names. -/
structure Confined (t : Table) (A : Name → Prop) (s : Session) : Prop where
  table : t.Extends A s.table
  steps : t.Confines A (Step.instrs s.steps)

/-- Whether a computation keeps a session confined, also where it fails, and has only results with a
property. -/
def Keeping (t : Table) (A : Name → Prop) {α : Type} (x : SessionM α) (Q : α → Prop) : Prop :=
  ∀ s, s.Confined t A → Leads x s (fun a s' => s'.Confined t A ∧ Q a) fun _ s' => s'.Confined t A

variable {t : Table} {A : Name → Prop} {α β : Type} {x : SessionM α} {Q : α → Prop} {s s' : Session}

private theorem Keeping.bind {f : α → SessionM β} {R : β → Prop} (h : Keeping t A x Q)
    (hf : ∀ a, Q a → Keeping t A (f a) R) : Keeping t A (x >>= f) R :=
  fun s hs => (h s hs).bind fun a s' ha => hf a ha.2 s' ha.1

private theorem Keeping.get_bind {f : Session → SessionM β} {R : β → Prop}
    (hf : ∀ s, s.Confined t A → Keeping t A (f s) R) : Keeping t A (get >>= f) R :=
  fun s hs => Leads.get_bind (hf s hs s hs)

/-- The session that is left is confined, whether the computation succeeds or fails. -/
theorem Keeping.confined_last (h : Keeping t A x Q) (hs : s.Confined t A) :
    (last (x.run s)).Confined t A := by
  obtain ⟨hok, herror⟩ := leads_iff.mp (h s hs)
  cases hx : x.run s with
  | ok a s' => exact (hok a s' hx).1
  | error f s' => exact herror f s' hx

private theorem Confined.of_keeps (hs : s.Confined t A) (h : s.Keeps s') : s'.Confined t A :=
  ⟨h.table ▸ hs.table, h.steps ▸ hs.steps⟩

/-! ### One reference -/

private theorem keeping_currentContext (o : Options) :
    Keeping t A (currentContext o) fun ctx => t.Confines A (Step.instrs ctx.steps) := by
  intro s hs
  have hbind := hs.table.bindAssigned fun name hname => hs.steps _ hname name (.assign name)
  refine .orRefuse_bind (fun ctx hctx => ?_) fun _ _ => ⟨hbind, hs.steps⟩
  have hsteps : t.Confines A (Step.instrs ctx.steps) := by
    obtain ⟨branches, -, rfl⟩ := Context.of_cases hctx
    exact Context.instrs_refined s.steps ▸ hs.steps
  exact ⟨⟨hbind.recordAssigned _, hsteps⟩, hsteps⟩

/-- Whether a replacement assigns only names with a property. -/
def Replacement.Confined (t : Table) (A : Name → Prop) (r : Replacement) : Prop :=
  t.Confines A (Step.instrs r.1)

/-- Whether inner scripts are replaced by inner scripts, and the session around them is kept also
where they fail. -/
def InnerKeeping (inner : InnerResult) : Prop :=
  ∀ (t : Table) (A : Name → Prop) (ops : List Instr),
    Keeping t A (inner ops) fun r => ∀ new, r = some new → new.Confined t A

private theorem innerKeeping_throw (f : Failure) : InnerKeeping fun _ => throw f :=
  fun _ _ _ _ hs => hs

private theorem innerKeeping_innerWith (run : SessionM Unit) : InnerKeeping (innerWith run) := by
  intro t A ops s hs
  unfold Leads
  rw [run_innerWith]
  cases run.run (s.child ops) with
  | error => exact ⟨hs.table, hs.steps⟩
  | ok =>
    refine ⟨⟨hs.table, hs.steps⟩, fun new hnew => ?_⟩
    split at hnew
    · cases hnew
    · cases hnew
      exact .inner _

variable {inner : InnerResult} {ctx : Context} {i : Nat} {instr : Instr}

private theorem Visited.confined {r : Option Replacement} (h : Visited inner ctx i s instr r s')
    (hinner : InnerKeeping inner) (hs : s.Confined t A) (hinstr : t.Confines A [instr]) :
    s'.Confined t A ∧ ∀ new, r = some new → new.Confined t A := by
  cases h with
  | code hkeeps _ _ hcode =>
    refine ⟨hs.of_keeps hkeeps, ?_⟩
    rintro _ ⟨⟩
    exact .straight hcode.straight
  | @content name sname ops hlookup =>
    refine ⟨hs, ?_⟩
    rintro _ ⟨⟩ i hi x hx
    rw [Step.instrs_ofList] at hi
    have hcontent : t.lookup? name = some ⟨sname, .argument, .content ops⟩ :=
      (hs.table.lookup?_iff (by simp)).mp hlookup
    exact hinstr _ List.mem_cons_self x (.content rfl hcontent hi hx)
  | call hcall =>
    refine ⟨hs, ?_⟩
    rintro _ ⟨⟩
    have hconfines := Expand.confines_call (hs.table.confines_iff.mpr hinstr) hcall
    rw [Replacement.Confined, Step.instrs_ofList]
    exact hs.table.confines_iff.mp hconfines
  | inner hrun => exact (leads_iff.mp (hinner t A _ s hs)).1 r s' hrun
  | kept | plain => exact ⟨hs, fun new hnew => by cases hnew⟩

private theorem Refused.confined {f : Failure} (h : Refused inner i s instr f s')
    (hinner : InnerKeeping inner) (hs : s.Confined t A) : s'.Confined t A := by
  cases h with
  | regular _ hkeeps => exact hs.of_keeps hkeeps
  | call => exact hs
  | inner hrun => exact (leads_iff.mp (hinner t A _ s hs)).2 f s' hrun

/-! ### A program -/

private theorem keeping_splice (i : Nat) {new : List Step} (n : Nat)
    (hnew : t.Confines A (Step.instrs new)) : Keeping t A (splice i n new) fun _ => True := by
  refine fun s hs => ⟨⟨hs.table, fun instr hinstr => ?_⟩, trivial⟩
  obtain ⟨st, hst, rfl⟩ := List.mem_map.mp hinstr
  rcases List.mem_append.mp hst with hst | hst
  · rcases List.mem_append.mp hst with hst | hst
    · exact hs.steps _ (List.mem_map_of_mem (List.mem_of_mem_take hst))
    · exact hnew _ (List.mem_map_of_mem hst)
  · exact hs.steps _ (List.mem_map_of_mem (List.mem_of_mem_drop hst))

private theorem Confined.optimized (hs : s.Confined t A) (opt : Option Peephole.Optimizer) :
    (s.optimized opt).Confined t A := by
  refine ⟨hs.table, fun instr hinstr x hx => ?_⟩
  cases opt with
  | none => exact hs.steps instr hinstr x hx
  | some opt =>
    have hopen : instr.isOpen = true := by
      cases hx with
      | _ => rfl
    have hmem : instr ∈ Peephole.openings (Step.instrs (opt.run s.steps)) :=
      List.mem_filter.mpr ⟨hinstr, hopen⟩
    rw [(opt.run_reduces s.steps).openings_eq] at hmem
    exact hs.steps instr (List.mem_filter.mp hmem).1 x hx

private theorem keeping_pass (hinner : InnerKeeping inner) (o : Options)
    (opt : Option Peephole.Optimizer) : Keeping t A (pass inner o opt) fun _ => True := by
  intro s hs
  unfold Leads
  rw [run_pass]
  refine (keeping_currentContext o).bind (fun ctx hctx => ?_) _ (hs.optimized opt)
  have hfirst : Keeping t A (firstReplacement inner ctx 0 ctx.steps)
      fun r => ∀ j new, r = some (j, new) → new.Confined t A := by
    refine fun s hs => leads_firstReplacement (fun k st s hst hs => ?_) hs
    have hinstr : t.Confines A [st.instr] := List.forall_mem_singleton.mpr
      (hctx _ (List.mem_map_of_mem (List.mem_of_getElem? hst)))
    exact (leads_visit inner ctx (0 + k) st s).imp (fun r s' _ h => h.confined hinner hs hinstr)
      fun f s' _ h => h.confined hinner hs
  refine hfirst.bind fun r hr => ?_
  cases r with
  | none => exact fun s hs => ⟨hs, trivial⟩
  | some r => exact (keeping_splice r.1 r.2.2 (hr r.1 r.2 rfl)).bind fun _ _ s hs => ⟨hs, trivial⟩

private theorem keeping_expandCalls (o : Options) (e : Nat) :
    Keeping t A (expandCalls o e) fun _ => True := by
  have hthrow := innerKeeping_throw (.fault .endless)
  have hwith (deeper : Nat → List Step → SessionM Nat)
      (hdeeper : ∀ i steps, t.Confines A (Step.instrs steps) →
        Keeping t A (deeper i steps) fun _ => True)
      (i : Nat) (steps : List Step) (hsteps : t.Confines A (Step.instrs steps)) :
      Keeping t A (expandWith deeper o i steps) fun _ => True := by
    induction steps generalizing i with
    | nil => exact fun s hs => ⟨hs, trivial⟩
    | cons st rest ih =>
      obtain ⟨hst, hrest⟩ := List.forall_mem_cons.mp hsteps
      rw [expandWith]
      split
      · next name args hi =>
        have hcall : t.Confines A [.call name args] := List.forall_mem_singleton.mpr (hi ▸ hst)
        have hexpand : Keeping t A (expandCall i name args) (Replacement.Confined t A) :=
          fun s hs => (leads_expandCall _ ⟨[], [], [], [], [], []⟩).imp
            (fun r s' _ h => (h.confined hthrow hs hcall).imp id fun h => h r rfl)
            fun f s' _ h => h.confined hthrow hs
        refine (keeping_currentContext o).bind fun _ _ => hexpand.bind fun r hr => ?_
        refine (keeping_splice i r.2 hr).bind fun _ _ => ?_
        exact (hdeeper i r.1 hr).bind fun j _ => ih j hrest
      · exact ih (i + 1) hrest
  have hdeep (n i : Nat) (steps : List Step) (hsteps : t.Confines A (Step.instrs steps)) :
      Keeping t A (expandDeep o n i steps) fun _ => True := by
    induction n generalizing i steps with
    | zero => exact hwith (fun _ _ => throw _) (fun _ _ _ _ hs => hs) i steps hsteps
    | succ n ih => exact hwith _ ih i steps hsteps
  exact Keeping.get_bind fun s hs => (hdeep _ _ _ hs.steps).bind fun _ _ s hs => ⟨hs, trivial⟩

private theorem keeping_route (o : Options) : Keeping t A (route o) fun _ => True := by
  refine (keeping_currentContext o).bind fun ctx _ => Keeping.get_bind fun s _ => ?_
  refine fun s hs => .orRefuse_bind (fun r _ => Leads.get_bind ?_) fun _ _ => hs
  split
  · exact hs
  · next slots setup hsetup =>
    refine ⟨⟨hs.table, ?_⟩, trivial⟩
    have hcode : t.Confines A (Step.instrs setup) :=
      .straight (AltSlots.setup_code hsetup).1.straight
    rw [Step.instrs_append, instrs_markDuplicates]
    exact hcode.append hs.steps

/-- Resolving a program keeps a session confined, whatever the bounds. -/
theorem keeping_resolveDeep (o : Options) (opt : Option Peephole.Optimizer) (e n : Nat) :
    Keeping t A (resolveDeep o opt e n) fun _ => True := by
  have hwith (inner : InnerResult) (hinner : InnerKeeping inner) :
      Keeping t A (resolveWith inner o opt e) fun _ => True := by
    refine (keeping_expandCalls o e).bind fun _ _ => (keeping_route o).bind fun _ _ => ?_
    refine Keeping.get_bind fun s _ s hs => ?_
    refine (leads_resolve (F := Confined t A) (fun s hs => (keeping_pass hinner o opt s hs).imp
      (fun b s' _ h => ?_) fun _ _ _ h => h) (fun _ hs => hs) e _ hs).imp
        (fun _ _ _ h => ⟨h, trivial⟩) fun _ _ _ h => h
    cases b <;> exact h.1
  cases n with
  | zero => exact hwith _ (innerKeeping_throw _)
  | succ n => exact hwith _ (innerKeeping_innerWith _)

/-- Closing the scope of an inner script gives back the table in front of it, also where resolving
the script fails. -/
theorem leave_child (o : Options) (opt : Option Peephole.Optimizer) (e n : Nat) (s : Session)
    (ops : List Instr) :
    (last ((resolveDeep o opt e n).run (s.child ops))).table.leave = .ok s.table := by
  have hchild : (s.child ops).Confined (s.child ops).table fun _ => True :=
    ⟨.refl _ _, fun _ _ _ _ => trivial⟩
  have hlast := (keeping_resolveDeep o opt e n).confined_last hchild
  have houter : (last ((resolveDeep o opt e n).run (s.child ops))).table.outer = s.table.scopes :=
    hlast.table.outer.eq_of_hidden
  rw [Table.leave, houter]
  rfl

end Session

/-- Resolving a program, whether it succeeds or fails and whatever the bounds, leaves a table with
the same scopes and bindings, in which variables may have other values and the innermost scope new
variables for names that stood for nothing. The new ones are assigned by the program, by the
functions that it calls or in the contents of parameters that they read; without parameters, by the
program and the functions alone. However deep an inner script is nested, what it does to its table,
until it is resolved or fails, is undone by closing its scope; and so are the arguments that a call
binds. -/
theorem resolve_extends_table (t : Table) (o : Options) (opt : Option Peephole.Optimizer)
    (ops : List Instr) (e : Nat) :
    (resolveWithin e t o opt ops).session.table.scopes.map Scope.kind = t.scopes.map Scope.kind ∧
    t.Extends (fun x => ∃ i ∈ ops, t.Assigns true i x) (resolveWithin e t o opt ops).session.table ∧
    (t.ParameterFree → t.Extends (fun x => ∃ i ∈ ops, t.Assigns false i x)
      (resolveWithin e t o opt ops).session.table) ∧
    (∀ (n : Nat) (s : Session) (inner : List Instr),
      (Session.last ((Session.resolveDeep o opt e n).run (s.child inner))).table.leave =
        .ok s.table) ∧
    ∀ u params args, (Expand.bind u params args).leave = .ok u := by
  have hstart : Session.Confined t (fun x => ∃ i ∈ ops, t.Assigns true i x)
      { steps := Step.ofList ops, table := t } := by
    refine ⟨.refl _ t, fun i hi x hx => ⟨i, ?_, hx⟩⟩
    exact Step.instrs_ofList ops ▸ hi
  have hlast :=
    (Session.keeping_resolveDeep o opt e (Measure.scriptDepth t ops + e)).confined_last hstart
  have hsession : (resolveWithin e t o opt ops).session = Session.last
      ((Session.resolveDeep o opt e (Measure.scriptDepth t ops + e)).run
        { steps := Step.ofList ops, table := t }) := by
    rw [resolveWithin, EStateM.run]
    split <;> next h => rw [h]; rfl
  rw [hsession]
  refine ⟨hlast.table.map_kind, hlast.table, fun ht => hlast.table.mono fun x hx => ?_,
    Session.leave_child o opt e, Expand.leave_bind⟩
  obtain ⟨i, hi, hx⟩ := hx
  exact ⟨i, hi, hx.of_parameterFree ht⟩

/-- A program that calls a function which assigns a name. -/
private def assigningCall : Program where
  functions := [{ name := [102], params := [], body := [.op .one, .assign [121]] }]
  ops := [.call [102] []]

/-- A call that assigns a name. -/
theorem resolve_extends_table_assigning_call :
    (Table.ofProgram assigningCall).ParameterFree ∧
      (Table.ofProgram assigningCall).lookup? [121] = none ∧
      ((resolve (Table.ofProgram assigningCall) {} none
        assigningCall.ops).session.table.current.find? [121]).map Symbol.kind = some .variable ∧
      ∃ i ∈ assigningCall.ops, (Table.ofProgram assigningCall).Assigns false i [121] := by
  have hfree := Table.parameterFree_ofProgram assigningCall
  have hnew : ((resolve (Table.ofProgram assigningCall) {} none
      assigningCall.ops).session.table.current.find? [121]).map Symbol.kind = some .variable := by
    decide +kernel
  have hold : (Table.ofProgram assigningCall).current.find? [121] = none := by decide +kernel
  obtain ⟨-, -, hextends, -⟩ :=
    resolve_extends_table (Table.ofProgram assigningCall) {} none assigningCall.ops 0
  refine ⟨hfree, by decide +kernel, hnew, ?_⟩
  rcases (hextends hfree).current [121] with (hsame | ⟨_, _, _, hvariable, -⟩) | ⟨-, hassigns, -⟩
  · rw [resolve, hsame, hold] at hnew
    cases hnew
  · cases hold.symm.trans hvariable
  · exact hassigns

/-- A table with a parameter whose content assigns a name. -/
private def assigningContent : Table :=
  (Table.ofProgram {}).declare ⟨[120], .argument, .content [.push [2], .assign [121]]⟩

/-- A name can be bound that neither the program nor a function assigns: the content of a parameter
that the program reads assigns it. -/
theorem resolve_binds_name_of_content :
    assigningContent.lookup? [121] = none ∧
      (∀ e, (resolveWithin (2 + e) assigningContent {} none [.var [120]]).failure = none ∧
        ((resolveWithin (2 + e) assigningContent {} none
          [.var [120]]).session.table.current.find? [121]).map Symbol.kind = some .variable) ∧
      ¬ ∃ i ∈ [Instr.var [120]], assigningContent.Assigns false i [121] := by
  have htwo : (resolveWithin 2 assigningContent {} none [.var [120]]).failure = none ∧
      ((resolveWithin 2 assigningContent {} none
        [.var [120]]).session.table.current.find? [121]).map Symbol.kind = some .variable := by
    decide +kernel
  refine ⟨by decide +kernel, fun e => ?_, ?_⟩
  · rw [resolveWithin_eq_of_le (Nat.le_add_right 2 e) (by rw [htwo.1]; exact nofun)]
    exact htwo
  · rintro ⟨i, hi, h⟩
    cases List.mem_singleton.mp hi
    cases h with
    | content hcontents => cases hcontents

end NamedStack
