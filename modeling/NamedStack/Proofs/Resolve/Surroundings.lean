import NamedStack.Proofs.Resolve.Alike
import NamedStack.Proofs.Resolve.Termination

/-!
# What is around an inner script

No operation on a session tells alike tables apart. So what becomes of an inner script depends on
neither the stack items, variables and parameters around it nor how deep it may be nested there. If
several names that it reads are missing, the options say which of them is reported, and nothing else
depends on that choice.
-/

namespace NamedStack

/-! ### Names that are reported -/

/-- Whether failures are the same but for which undeclared name they report. -/
def Failure.SameButReported (f g : Failure) : Prop :=
  f = g ∨ ∃ x i y j, f = .of (.undeclared x i) ∧ g = .of (.undeclared y j)

/-- The choice of the name to report makes no other difference to the context of a program. -/
theorem Context.of_reported (t : Table) (o : Options) (r : Nat) (steps : List Step) :
    Context.of t { o with reported := r } steps = Context.of t o steps ∨
      ∃ x i y j, Context.of t o steps = .error (.undeclared x i) ∧
        Context.of t { o with reported := r } steps = .error (.undeclared y j) := by
  cases hbranches : Branch.ofInstrs (Step.instrs steps) with
  | error c =>
    left
    rw [Context.of, Context.of, hbranches]
    rfl
  | ok branches =>
    rw [Context.of, Context.of, hbranches]
    dsimp only [bind, Except.bind]
    cases hold : undeclared? t (occurrences steps (assumed? t)) o.reported with
    | none =>
      rw [undeclared?_eq_none_iff.mpr (undeclared?_eq_none_iff.mp hold)]
      exact .inl rfl
    | some p =>
      cases hnew : undeclared? t (occurrences steps (assumed? t)) r with
      | none =>
        cases hold.symm.trans (undeclared?_eq_none_iff.mpr (undeclared?_eq_none_iff.mp hnew))
      | some q => exact .inr ⟨p.2, p.1, q.2, q.1, rfl, rfl⟩

namespace Session

/-! ### One reference -/

/-- Sessions with the same program and slots and with alike tables. -/
structure Alike (s u : Session) : Prop where
  steps : s.steps = u.steps
  slots : s.slots = u.slots
  table : s.table.Alike u.table

variable {α : Type} {F : Failure → Failure → Prop} (hF : ∀ f, F f f) (ctx : Context) (i : Nat)
  (name : Name)

include hF

private theorem follows_machineAt : Follows Alike F (machineAt ctx i) (machineAt ctx i) := by
  unfold machineAt
  split
  · exact .pure _
  · exact .throw (hF _)

private theorem follows_fromSlot (m : Machine) (last : Bool) :
    Follows Alike F (fromSlot m name last) (fromSlot m name last) := by
  refine Follows.get_bind fun s u h => ?_
  rw [h.slots]
  refine (Follows.orRefuse hF _ h).bind fun r => ?_
  split
  · exact Follows.bind (.modify fun s u h => ⟨h.steps, rfl, h.table⟩) fun _ => .pure _
  · exact .pure _

omit hF in
private theorem adjacentReads_congr {t t' : Table} (h : t.Alike t') (slots : AltSlots)
    (above : Option Int) (steps : List Step) :
    adjacentReads t slots above steps = adjacentReads t' slots above steps := by
  induction steps generalizing above with
  | nil => rfl
  | cons st rest ih => simp only [adjacentReads, h.place?_eq, ih]

private theorem follows_readAssumption (shared : Bool) :
    Follows Alike F (readAssumption ctx i name shared) (readAssumption ctx i name shared) := by
  refine (follows_machineAt hF ctx i).bind fun m => (follows_fromSlot hF name m _).bind fun r => ?_
  split
  · exact .pure _
  · refine Follows.get_bind fun s u h => ?_
    have helidable : elidable ctx s.table s.slots m i = elidable ctx u.table u.slots m i := by
      rw [elidable, elidable, adjacentReads_congr h.table, h.slots]
    have hplace : placeOf? s.table m name = placeOf? u.table m name := by
      rw [placeOf?, placeOf?, h.table.place?_eq]
    rw [helidable, hplace]
    split
    · split
      · exact Follows.orRefuse hF _ h
      · exact Follows.throw (hF _) h
    · exact Follows.pure _ h

private theorem follows_readVariable :
    Follows Alike F (readVariable ctx i name) (readVariable ctx i name) := by
  refine (follows_machineAt hF ctx i).bind fun m => (follows_fromSlot hF name m _).bind fun r => ?_
  split
  · exact .pure _
  · split
    · exact .orRefuse hF _
    · exact .throw (hF _)

private theorem follows_writeName :
    Follows Alike F (writeName ctx i name) (writeName ctx i name) := by
  refine (follows_machineAt hF ctx i).bind fun m => Follows.get_bind fun s u h => ?_
  rw [h.slots]
  refine (Follows.orRefuse hF _ h).bind fun r => ?_
  split
  · exact .pure _
  · split
    · exact .pure _
    · exact .pure _

private theorem follows_readName : Follows Alike F (readName ctx i name) (readName ctx i name) := by
  refine Follows.get_bind fun s u h => ?_
  rw [h.table.lookup?_eq]
  split
  · exact Follows.throw (hF _) h
  · split
    · exact follows_readAssumption hF ctx i name false h
    · exact follows_readVariable hF ctx i name h
    · exact Follows.pure _ h
    · exact Follows.throw (hF _) h
    · exact Follows.throw (hF _) h

private theorem follows_expandCall (args : List (List Instr)) :
    Follows Alike F (expandCall i name args) (expandCall i name args) := by
  refine Follows.get_bind fun s u h => ?_
  rw [Expand.call_congr h.table]
  split
  · exact Follows.pure _ h
  · exact Follows.throw (hF _) h

/-- Nothing tells alike sessions apart, if the context of a program does not. -/
theorem resembling_alike {o : Options} {r : Nat}
    (hcontext : ∀ t steps, Follows Alike F (orRefuse (Context.of t o steps))
      (orRefuse (Context.of t { o with reported := r } steps))) :
    Resembling Alike F o { o with reported := r } := by
  have hcurrent : Follows Alike F (currentContext o) (currentContext { o with reported := r }) := by
    refine Follows.bind (.modify fun s u h => ?_) fun _ => Follows.get_bind fun s u h => ?_
    · exact ⟨h.steps, h.slots, h.steps ▸ h.table.bindAssigned _⟩
    rw [Context.of_congr h.table, h.steps]
    refine (hcontext _ _ h).bind fun ctx => ?_
    refine Follows.bind (.modify fun s u h => ?_) fun _ => .pure ctx
    exact ⟨rfl, h.slots, h.table.recordAssigned _⟩
  refine
    { steps := fun _ _ h => h.steps
      context := hcurrent
      route := ?_
      readAssumption := follows_readAssumption hF
      readName := follows_readName hF
      writeName := follows_writeName hF
      expandCall := follows_expandCall hF
      change := fun _ _ h f g k => ⟨congrArg f h.steps, h.slots, h.table⟩
      child := fun _ _ h ops => ⟨rfl, rfl, Table.alike_inner h.table.function?_eq⟩
      leave := fun _ _ _ _ h _ => ⟨h.steps, h.slots, h.table⟩ }
  refine hcurrent.bind fun ctx => Follows.get_bind fun s u h => ?_
  have hrouting : ctx.routing s.table o = ctx.routing u.table { o with reported := r } :=
    ctx.routing_congr h.table o
  rw [hrouting]
  refine (Follows.orRefuse hF _ h).bind fun r => Follows.get_bind fun s u h => ?_
  rw [h.steps]
  dsimp only
  split
  · exact Follows.throw (hF _) h
  · exact .inr (.ok ⟨by simp only [h.steps], rfl, h.table⟩)

omit hF

/-- Alike sessions fail in the same way. -/
theorem resembling_alike_eq (o : Options) : Resembling Alike Eq o o :=
  resembling_alike (fun _ => rfl) (o := o) (r := o.reported)
    fun t steps => .orRefuse (fun _ => rfl) (Context.of t o steps)

/-- If another name is to be reported, they fail in the same way but for that name. -/
theorem resembling_alike_reported (o : Options) (r : Nat) :
    Resembling Alike Failure.SameButReported o { o with reported := r } := by
  refine resembling_alike (fun _ => .inl rfl) fun t steps => ?_
  rcases Context.of_reported t o r steps with h | ⟨x, i, y, j, hold, hnew⟩
  · rw [h]
    exact .orRefuse (fun _ => .inl rfl) _
  · rw [hold, hnew]
    exact .throw (.inr ⟨x, i, y, j, rfl, rfl⟩)

/-! ### Inner scripts -/

/-- What a computation comes to, the session apart. -/
def outcome : EStateM.Result Failure Session α → Except Failure α
  | .ok a _ => .ok a
  | .error f _ => .error f

/-- The same result, or related failures. -/
inductive SameOutcome (F : Failure → Failure → Prop) : Except Failure α → Except Failure α → Prop
  | ok (a : α) : SameOutcome F (.ok a) (.ok a)
  | error {f g : Failure} (h : F f g) : SameOutcome F (.error f) (.error g)

/-- With the same failures there is no difference. -/
theorem SameOutcome.eq {a b : Except Failure α} (h : SameOutcome Eq a b) : a = b := by
  cases h with
  | ok => rfl
  | error h => rw [h]

open NamedStack.Measure (scriptDepth)

variable {s u : Session} {o : Options} {opt : Option Peephole.Optimizer} {ops : List Instr}

private theorem sameOutcome_innerWith {R : Session → Session → Prop} {o' : Options}
    (hR : Resembling R F o o') (hchild : R (s.child ops) (u.child ops)) {e e' n m : Nat}
    (he : e ≤ e') (hn : n ≤ m)
    (hend : outcome ((innerWith (resolveDeep o opt e n) ops).run s) ≠ .error (.fault .endless)) :
    SameOutcome F (outcome ((innerWith (resolveDeep o opt e n) ops).run s))
      (outcome ((innerWith (resolveDeep o' opt e' m) ops).run u)) := by
  rcases hR.innerWith_cases (hR.resolveDeep he hn) hchild with ⟨s', hs⟩ | ⟨c, c', -, h⟩
  · rw [hs] at hend
    exact absurd rfl hend
  · rcases h with ⟨r, hs, hu⟩ | ⟨f, g, hfailures, hs, hu⟩
    · rw [hs, hu]
      exact .ok r
    · rw [hs, hu]
      exact .error hfailures

/-- An inner script that is resolved as deep as it can be nested is resolved to its end, whatever is
around it. -/
theorem outcome_innerWith_ne (o : Options) (opt : Option Peephole.Optimizer) (e : Nat) {n : Nat}
    (hn : scriptDepth s.table ops ≤ n) :
    outcome ((innerWith (resolveDeep o opt e n) ops).run s) ≠ .error (.fault .endless) := by
  have hsettles : SettlesInner (Expand.depth s.table) (n + 1) (innerWith (resolveDeep o opt e n)) :=
    settlesInner_innerWith fun hu hdepth hs => hdepth ▸ ends_resolveDeep hu hs
  have hends :=
    hsettles ops s (by rw [Measure.nesting, Nat.add_comm]; exact Nat.succ_le_succ hn) rfl
  unfold Ends Leads at hends
  intro h
  cases hrun : (innerWith (resolveDeep o opt e n) ops).run s with
  | ok =>
    rw [hrun] at h
    cases h
  | error f =>
    rw [hrun] at h hends
    cases h
    exact hends rfl

/-- What becomes of an inner script depends, of all that is around it, only on the functions: with
the same functions in two sessions that may differ in everything else, it gives way to the same
script or to nothing, or fails in the same way. If several names that it reads are missing and the
options choose another one to report, that name is the only difference. The inner script is resolved
to its end in both, and bounds beyond those that it needs make no difference. -/
theorem innerWith_depends_on_functions (o : Options) (opt : Option Peephole.Optimizer)
    {e e' n m : Nat} (r : Nat) (h : ∀ name, s.table.function? name = u.table.function? name)
    (hn : scriptDepth s.table ops ≤ n) (hm : scriptDepth u.table ops ≤ m) :
    outcome ((innerWith (resolveDeep o opt e n) ops).run s) =
        outcome ((innerWith (resolveDeep o opt e' m) ops).run u) ∧
      SameOutcome Failure.SameButReported
        (outcome ((innerWith (resolveDeep o opt e n) ops).run s))
        (outcome ((innerWith (resolveDeep { o with reported := r } opt e' m) ops).run u)) ∧
      outcome ((innerWith (resolveDeep o opt e n) ops).run s) ≠ .error (.fault .endless) := by
  have hs := outcome_innerWith_ne (s := s) o opt e hn
  have hchild : (s.child ops).Alike (u.child ops) := ⟨rfl, rfl, Table.alike_inner h⟩
  have he := Nat.le_max_left e e'
  have hdepth := Nat.le_max_left n m
  -- the second one comes to what the greater of both bounds come to
  have hlarger (o : Options) : outcome ((innerWith (resolveDeep o opt e' m) ops).run u) =
      outcome ((innerWith (resolveDeep o opt (max e e') (max n m)) ops).run u) :=
    (sameOutcome_innerWith (resembling_eq o) rfl (Nat.le_max_right e e') (Nat.le_max_right n m)
      (outcome_innerWith_ne o opt e' hm)).eq
  rw [hlarger o, hlarger { o with reported := r }]
  exact ⟨(sameOutcome_innerWith (resembling_alike_eq o) hchild he hdepth hs).eq,
    sameOutcome_innerWith (resembling_alike_reported o r) hchild he hdepth hs, hs⟩

/-- A function that is hidden by a variable around the inner script of one session, and a name that
is a stack item around that of the other and a variable inside of both. Another inner script reads
two names that it does not have, and either may be reported. -/
theorem innerWith_depends_on_functions_shadowed :
    let f : Symbol := ⟨[102], .function, .definition [[120]] [.var [120], .op (.unary .add1)]⟩
    let s : Session :=
      { steps := []
        table := { current :=
          { kind := .general, symbols := [⟨[97], .stackItem, .place 0 0⟩, f]
            stack := some [[97]] } } }
    let u : Session :=
      { steps := []
        table :=
          { current := { kind := .conditional, symbols := [⟨[102], .variable, .assigned 1⟩] }
            outer := [{ kind := .general, symbols := [f] }] } }
    let ops : List Instr := [.push [5], .assign [97], .call [102] [[.var [97]]]]
    let new : List Instr := [.push [5], .op (.unary .add1)]
    (∀ name, s.table.function? name = u.table.function? name) ∧
      scriptDepth s.table ops ≤ 0 ∧ scriptDepth u.table ops ≤ 1 ∧
      outcome ((innerWith (resolveDeep {} none 2 1) ops).run u) =
        .ok (some ([Step.of (.inner new)], 1)) ∧
      outcome ((innerWith (resolveDeep {} none 0 0) [.assume [97], .assume [98]]).run s) =
        .error (.of (.undeclared [97] 0)) ∧
      outcome ((innerWith (resolveDeep { reported := 1 } none 0 0)
        [.assume [97], .assume [98]]).run u) = .error (.of (.undeclared [98] 1)) := by
  intro f s u ops new
  have hfunctions (name : Name) : s.table.function? name = u.table.function? name := by
    by_cases hf : [102] = name
    · subst hf
      rfl
    · by_cases ha : [97] = name
      · subst ha
        rfl
      · simp [Table.function?, Table.lookupIn, Table.scopes, Scope.find?, s, u, f, hf, ha]
  have hs : scriptDepth s.table ops ≤ 0 := by decide
  have hu : scriptDepth u.table ops ≤ 1 := by decide
  refine ⟨hfunctions, hs, hu, ?_, by cbv, by cbv⟩
  rw [← (innerWith_depends_on_functions {} none (e := 0) 0 hfunctions hs hu).1]
  cbv

end Session

end NamedStack
