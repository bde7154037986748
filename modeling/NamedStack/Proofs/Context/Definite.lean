import NamedStack.Proofs.Context.Nesting
import NamedStack.Proofs.Context.Paths

/-!
# Names that are written on every path

Whether a name is written on every path to a position can be followed from the left: a write says
that it is, both arms of a conditional start with what is known in front of it, and what is known
behind a conditional is what is known at the end of both arms. Taking away writes makes less known.
-/

namespace NamedStack

open Engine

/-- Whether a name is written on every path, and whether it was where the arms of each open
conditional start and where its first arm ends, the innermost first. -/
structure Definite where
  now : Bool := false
  levels : List (Level Bool) := []
  deriving DecidableEq, Repr

namespace Definite

/-- Go past an instruction. -/
def step (x : Name) (d : Definite) : Instr → Definite
  | .op .opIf | .op .opNotIf => { d with levels := { entry := d.now } :: d.levels }
  | .op .opElse =>
    match d.levels with
    | { entry, arm := none } :: ls => { now := entry, levels := { entry, arm := some d.now } :: ls }
    | _ => d
  | .op .opEndIf =>
    match d.levels with
    | l :: ls => { now := d.now && l.arm.getD l.entry, levels := ls }
    | [] => d
  | .assign name => if name = x then { d with now := true } else d
  | _ => d

/-- Go past instructions. -/
def run (x : Name) (d : Definite) (ops : List Instr) : Definite := ops.foldl (step x) d

/-- For each read of the name, whether it is written on every path to it. -/
def reads (x : Name) : Definite → List Instr → List Bool
  | _, [] => []
  | d, i :: rest =>
    if i = .var x then d.now :: reads x (d.step x i) rest else reads x (d.step x i) rest

variable {x : Name} {d d' : Definite} {i : Instr}

/-- Only markers and writes change what is known. -/
theorem step_of_notMarker (hmarker : ∀ o, i = .op o → o.isMarker = false)
    (hassign : i ≠ .assign x) : d.step x i = d := by
  cases i with
  | op o =>
    cases o with
    | opIf | opNotIf | opElse | opEndIf => cases hmarker _ rfl
    | _ => rfl
  | assign name =>
    rw [step, if_neg]
    rintro rfl
    exact hassign rfl
  | _ => rfl

private theorem run_append (d : Definite) (a b : List Instr) :
    d.run x (a ++ b) = (d.run x a).run x b := List.foldl_append

/-- The reads of two programs, one after the other. -/
theorem reads_append (d : Definite) (a b : List Instr) :
    reads x d (a ++ b) = reads x d a ++ reads x (d.run x a) b := by
  induction a generalizing d with
  | nil => rfl
  | cons i a ih =>
    rw [List.cons_append, reads, reads, ih]
    split <;> rfl

/-- Each read is listed once. -/
theorem length_reads (d : Definite) (ops : List Instr) :
    (reads x d ops).length = ops.count (.var x) := by
  induction ops generalizing d with
  | nil => rfl
  | cons i rest ih =>
    rw [reads]
    split
    · next hi => rw [hi, List.length_cons, ih, List.count_cons_self]
    · next hi => rw [ih, List.count_cons_of_ne hi]

/-- Whether an instruction is no marker, and neither writes nor reads a name. -/
structure Quiet (x : Name) (i : Instr) : Prop where
  marker : ∀ o, i = .op o → o.isMarker = false
  assign : i ≠ .assign x
  var : i ≠ .var x

variable {ops : List Instr} {k : Nat} {ls : List (Level Bool)} {now : Bool} {out : List Arm}

/-- Quiet instructions have no reads and change nothing. -/
theorem reads_of_quiet (d : Definite) (h : ∀ i ∈ ops, Quiet x i) :
    reads x d ops = [] ∧ d.run x ops = d := by
  induction ops with
  | nil => exact ⟨rfl, rfl⟩
  | cons i rest ih =>
    obtain ⟨hi, hrest⟩ := List.forall_mem_cons.mp h
    have hstep := step_of_notMarker (d := d) hi.marker hi.assign
    obtain ⟨hreads, hrun⟩ := ih hrest
    constructor
    · rw [reads, if_neg hi.var, hstep, hreads]
    · rw [run, List.foldl_cons, hstep]
      exact hrun

/-- Without reads none is listed. -/
theorem reads_eq_nil (d : Definite) (h : .var x ∉ ops) : reads x d ops = [] := by
  rw [← List.length_eq_zero_iff, length_reads]
  exact List.count_eq_zero.mpr h

private theorem eq_take_append (hi : ops[k]? = some i) :
    ops = ops.take k ++ i :: ops.drop (k + 1) := by
  obtain ⟨hk, hget⟩ := List.getElem?_eq_some_iff.mp hi
  rw [← hget, ← List.drop_eq_getElem_cons hk, List.take_append_drop]

/-- What is known at a read is found by how many of them follow. -/
theorem reverse_reads (d : Definite) (hk : ops[k]? = some (.var x)) :
    (reads x d ops).reverse[(ops.drop (k + 1)).count (.var x)]? =
      some (d.run x (ops.take k)).now := by
  have hsplit := eq_take_append hk
  generalize ops.take k = front, ops.drop (k + 1) = back at hsplit
  subst hsplit
  have hlen : (reads x (d.run x front) back).reverse.length = back.count (.var x) := by
    rw [List.length_reverse, length_reads]
  have hreads : reads x d (front ++ .var x :: back) =
      reads x d front ++ (d.run x front).now :: reads x (d.run x front) back := by
    rw [reads_append, reads, if_pos rfl]
    rfl
  rw [hreads, List.reverse_append, List.reverse_cons, List.append_assoc,
    List.getElem?_append_right hlen.le, hlen, Nat.sub_self]
  rfl

/-! ### Less is known -/

/-- Whether what is known at a level is known at another one. -/
structure LevelBelow (l l' : Level Bool) : Prop where
  entry : l.entry = true → l'.entry = true
  arm : Option.Rel (fun a b : Bool => a = true → b = true) l.arm l'.arm

/-- Whether all that is known is known elsewhere too. -/
structure Below (d d' : Definite) : Prop where
  now : d.now = true → d'.now = true
  levels : List.Forall₂ LevelBelow d.levels d'.levels

private theorem LevelBelow.refl (l : Level Bool) : LevelBelow l l := by
  refine ⟨id, ?_⟩
  cases l.arm with
  | none => exact .none
  | some b => exact .some id

private theorem Below.refl (d : Definite) : Below d d :=
  ⟨id, List.forall₂_same.mpr fun l _ => .refl l⟩

private theorem LevelBelow.ends {l l' : Level Bool} (h : LevelBelow l l') :
    l.arm.getD l.entry = true → l'.arm.getD l'.entry = true := by
  obtain ⟨entry, arm⟩ := l
  obtain ⟨entry', arm'⟩ := l'
  obtain ⟨hentry, harm⟩ := h
  cases harm with
  | none => exact hentry
  | some harm => exact harm

private theorem Below.step (h : Below d d') (x : Name) (i : Instr) :
    Below (d.step x i) (d'.step x i) := by
  obtain ⟨now, levels⟩ := d
  obtain ⟨now', levels'⟩ := d'
  obtain ⟨hnow, hlevels⟩ := h
  dsimp only at hnow hlevels
  cases i with
  | op o =>
    cases o with
    | opIf | opNotIf => exact ⟨hnow, .cons ⟨hnow, .none⟩ hlevels⟩
    | opElse =>
      cases hlevels with
      | nil => exact ⟨hnow, .nil⟩
      | @cons l l' ls ls' hl hls =>
        obtain ⟨entry, arm⟩ := l
        obtain ⟨entry', arm'⟩ := l'
        obtain ⟨hentry, harm⟩ := hl
        dsimp only at hentry harm
        cases harm with
        | none => exact ⟨hentry, .cons ⟨hentry, .some hnow⟩ hls⟩
        | some harm => exact ⟨hnow, .cons ⟨hentry, .some harm⟩ hls⟩
    | opEndIf =>
      cases hlevels with
      | nil => exact ⟨hnow, .nil⟩
      | cons hl hls =>
        refine ⟨fun hboth => ?_, hls⟩
        simp only [Definite.step, Bool.and_eq_true] at hboth ⊢
        exact ⟨hnow hboth.1, hl.ends hboth.2⟩
    | _ => exact ⟨hnow, hlevels⟩
  | assign name =>
    by_cases hname : name = x
    · simp only [Definite.step, if_pos hname]
      exact ⟨id, hlevels⟩
    · simp only [Definite.step, if_neg hname]
      exact ⟨hnow, hlevels⟩
  | _ => exact ⟨hnow, hlevels⟩

/-- Instructions that are no markers make no less known. -/
theorem below_run (d : Definite) (x : Name) (h : ∀ i ∈ ops, ∀ o, i = .op o → o.isMarker = false) :
    Below d (d.run x ops) := by
  suffices hfrom : ∀ d', Below d d' → Below d (d'.run x ops) from hfrom d (.refl d)
  induction ops with
  | nil => exact fun _ hd => hd
  | cons i rest ih =>
    obtain ⟨hi, hrest⟩ := List.forall_mem_cons.mp h
    intro d' hd
    refine ih hrest _ ?_
    by_cases hassign : i = .assign x
    · rw [hassign, Definite.step, if_pos rfl]
      exact ⟨fun _ => rfl, hd.levels⟩
    · rwa [step_of_notMarker hi hassign]

/-- Where more is known, it is known at every read. -/
theorem Below.reads (h : Below d d') (x : Name) (ops : List Instr) :
    List.Forall₂ (fun a b : Bool => a = true → b = true) (reads x d ops) (reads x d' ops) := by
  induction ops generalizing d d' with
  | nil => exact .nil
  | cons i rest ih =>
    have hrest := ih (h.step x i)
    rw [Definite.reads, Definite.reads]
    split
    · exact .cons h.now hrest
    · exact hrest

/-! ### Arms -/

/-- Whether what is known where a conditional starts is known in its arms and at their ends. -/
inductive Rises : Bool → List (Level Bool) → Prop
  | outside {now : Bool} : Rises now []
  | inside {now : Bool} {l : Level Bool} {ls : List (Level Bool)}
      (hnow : l.entry = true → now = true) (hends : l.entry = true → l.arm.getD l.entry = true)
      (h : Rises l.entry ls) : Rises now (l :: ls)

private theorem Rises.mono {now' : Bool} (h : Rises now ls) (hnow : now = true → now' = true) :
    Rises now' ls := by
  cases h with
  | outside => exact .outside
  | inside hentry hends h => exact .inside (fun he => hnow (hentry he)) hends h

private theorem Rises.step (h : Rises d.now d.levels) (x : Name) (i : Instr) :
    Rises (d.step x i).now (d.step x i).levels := by
  obtain ⟨now, levels⟩ := d
  cases i with
  | op o =>
    cases o with
    | opIf | opNotIf => exact .inside id id h
    | opElse =>
      cases h with
      | outside => exact .outside
      | @inside _ l ls hnow hends h =>
        obtain ⟨entry, arm⟩ := l
        cases arm with
        | none => exact .inside id hnow h
        | some arm => exact .inside hnow hends h
    | opEndIf =>
      cases h with
      | outside => exact .outside
      | inside hnow hends h =>
        exact h.mono fun he => Bool.and_eq_true_iff.mpr ⟨hnow he, hends he⟩
    | _ => exact h
  | assign name =>
    rw [Definite.step]
    split
    · exact h.mono fun _ => rfl
    · exact h
  | _ => exact h

/-- What rises still does behind a program. -/
theorem Rises.run (h : Rises d.now d.levels) (x : Name) (ops : List Instr) :
    Rises (d.run x ops).now (d.run x ops).levels := by
  induction ops generalizing d with
  | nil => exact h
  | cons i rest ih => exact ih (h.step x i)

/-! ### Paths -/

/-- The arms that are open. -/
def arms (d : Definite) : List Arm :=
  d.levels.map fun l => if l.arm.isSome then .second else .first

/-- What is followed has a level for each arm that is open. -/
theorem arms_step (h : Nesting.step d.arms i = some out) : (d.step x i).arms = out := by
  obtain ⟨now, levels⟩ := d
  cases i with
  | op o =>
    cases o with
    | opElse =>
      obtain _ | ⟨⟨entry, _ | arm⟩, ls⟩ := levels
      · cases h
      · cases h
        rfl
      · cases h
    | opEndIf =>
      cases levels with
      | nil => cases h
      | cons l ls =>
        cases h
        rfl
    | _ =>
      cases h
      rfl
  | assign name =>
    cases h
    rw [step]
    split <;> rfl
  | _ =>
    cases h
    rfl

/-- Going past one more instruction. -/
theorem run_take_succ (d : Definite) (hi : ops[k]? = some i) :
    d.run x (ops.take (k + 1)) = (d.run x (ops.take k)).step x i := by
  rw [List.take_add_one, hi, run_append]
  rfl

private theorem arms_run (h : Nesting.run d.arms ops = some out) : (d.run x ops).arms = out := by
  induction ops generalizing d with
  | nil => exact Option.some.inj h
  | cons i rest ih =>
    obtain ⟨mid, hmid, hrest⟩ := Option.bind_eq_some_iff.mp h
    exact ih (arms_step (x := x) hmid ▸ hrest)

/-- In balanced code every marker has the arm that it ends. -/
theorem exists_arms (x : Name) (hbalanced : Nesting.run [] ops = some []) (hi : ops[k]? = some i) :
    ∃ out, Nesting.step (({} : Definite).run x (ops.take k)).arms i = some out := by
  rw [eq_take_append hi, Nesting.run_append] at hbalanced
  obtain ⟨front, hfront, hrest⟩ := Option.bind_eq_some_iff.mp hbalanced
  obtain ⟨out, hout, -⟩ := Option.bind_eq_some_iff.mp hrest
  have harms : (({} : Definite).run x (ops.take k)).arms = front := arms_run hfront
  exact ⟨out, harms ▸ hout⟩

/-- Whether what is known of the levels of open conditionals holds on a path: what was known where
an arm starts if the path came there, and what was known at the end of an arm that it took. -/
inductive Covers (done : Prop) : List (Level Bool) → List Cond → Prop
  | outside : Covers done [] []
  | inside {l : Level Bool} {ls : List (Level Bool)} {c : Cond} {cs : List Cond}
      (h : Covers done ls cs) (hinert : c = .inert → runs cs = false)
      (hentry : c ≠ .inert → l.entry = true → done)
      (hskipped : c = .skipped → l.arm.getD l.entry = true → done) : Covers done (l :: ls) (c :: cs)

/-- Whether what is known holds on a path: where it runs code, the name is written if it is written
on every path. -/
structure Holds (done : Prop) (d : Definite) (conds : List Cond) : Prop where
  now : runs conds = true → d.now = true → done
  levels : Covers done d.levels conds

variable {done done' : Prop} {conds : List Cond}

private theorem Covers.mono (h : Covers done ls conds) (hdone : done → done') :
    Covers done' ls conds := by
  induction h with
  | outside => exact .outside
  | inside _ hinert hentry hskipped ih =>
    exact .inside ih hinert (fun hc he => hdone (hentry hc he)) fun hc he => hdone (hskipped hc he)

private theorem Holds.mono (h : Holds done d conds) (hdone : done → done') : Holds done' d conds :=
  ⟨fun hr hn => hdone (h.now hr hn), h.levels.mono hdone⟩

private theorem Holds.opens (h : Holds done d conds) (b : Bool) :
    Holds done { d with levels := { entry := d.now } :: d.levels }
      ((if runs conds then .ofBool b else .inert) :: conds) := by
  cases hr : runs conds with
  | true =>
    have hnow := h.now hr
    refine ⟨fun _ => hnow, .inside h.levels ?_ (fun _ => hnow) fun _ => hnow⟩
    cases b with
    | true => exact nofun
    | false => exact nofun
  | false =>
    exact ⟨nofun, .inside h.levels (fun _ => hr) (fun hc => absurd rfl hc) nofun⟩

private theorem Holds.splits {entry : Bool} {c : Cond} {cs : List Cond}
    (h : Holds done { now, levels := { entry } :: ls } (c :: cs)) :
    Holds done { now := entry, levels := { entry, arm := some now } :: ls } (c.toggle :: cs) := by
  obtain ⟨hnow, hlevels⟩ := h
  obtain _ | ⟨hls, hinert, hentry, hskipped⟩ := hlevels
  cases c with
  | taken => exact ⟨nofun, .inside hls nofun (fun _ => hentry nofun) fun _ => hnow rfl⟩
  | skipped => exact ⟨fun _ => hentry nofun, .inside hls nofun (fun _ => hentry nofun) nofun⟩
  | inert => exact ⟨nofun, .inside hls hinert (fun hc => absurd rfl hc) nofun⟩

private theorem Holds.closes {l : Level Bool} {c : Cond} {cs : List Cond}
    (h : Holds done { now, levels := l :: ls } (c :: cs)) :
    Holds done { now := now && l.arm.getD l.entry, levels := ls } cs := by
  obtain ⟨hnow, hlevels⟩ := h
  obtain _ | ⟨hls, hinert, -, hskipped⟩ := hlevels
  refine ⟨fun hr hboth => ?_, hls⟩
  simp only [Bool.and_eq_true] at hboth
  cases c with
  | taken => exact hnow rfl hboth.1
  | skipped => exact hskipped rfl hboth.2
  | inert =>
    rw [hinert rfl] at hr
    cases hr

/-- What is known goes on to hold on every path, if conditionals are balanced. -/
theorem Holds.step (h : Holds done d conds) (harms : Nesting.step d.arms i = some out)
    (hdone : done → done') (hwrite : i = .assign x → runs conds = true → done') (first : Nat → Bool)
    (j : Nat) : Holds done' (d.step x i) (Path.turn first conds j i) := by
  have h := h.mono hdone
  obtain ⟨now, levels⟩ := d
  cases i with
  | op o =>
    cases o with
    | opIf | opNotIf => exact h.opens (first j)
    | opElse =>
      obtain _ | ⟨⟨entry, _ | arm⟩, ls⟩ := levels
      · cases harms
      · cases conds with
        | nil => cases h.levels
        | cons c cs => exact h.splits
      · cases harms
    | opEndIf =>
      cases levels with
      | nil => cases harms
      | cons l ls =>
        cases conds with
        | nil => cases h.levels
        | cons c cs => exact h.closes
    | _ => exact h
  | assign name =>
    rw [Definite.step]
    split
    · next hname => exact ⟨fun hr _ => hwrite (hname ▸ rfl) hr, h.levels⟩
    · exact h
  | _ => exact h

end Definite

namespace Context

variable {ctx : Context} {x : Name}

/-- Whether a path has written a name in front of a position. -/
def WrittenBefore (ctx : Context) (first : Nat → Bool) (x : Name) (i : Nat) : Prop :=
  ∃ a < i, (Step.instrs ctx.steps)[a]? = some (.assign x) ∧ (ctx.pathTo first a).Arrives

/-- What is followed from the left holds on every path. -/
theorem holds_pathTo (hbr : Branch.ofInstrs (Step.instrs ctx.steps) = .ok ctx.branches)
    (first : Nat → Bool) (x : Name) {i : Nat} (hi : i ≤ ctx.steps.length) :
    (({} : Definite).run x ((Step.instrs ctx.steps).take i)).Holds
      (ctx.WrittenBefore first x i) (ctx.pathTo first i).conds := by
  have hbalanced := (Nesting.balanced_iff _).mp ⟨_, hbr⟩
  induction i with
  | zero => exact ⟨nofun, .outside⟩
  | succ i ih =>
    have hholds := ih (Nat.le_of_succ_le hi)
    have hst : ctx.steps[i]? = some ctx.steps[i] := List.getElem?_eq_getElem hi
    have hinstr : (Step.instrs ctx.steps)[i]? = some ctx.steps[i].instr := by
      rw [Step.instrs, List.getElem?_map, hst]
      rfl
    obtain ⟨out, hout⟩ := Definite.exists_arms x hbalanced hinstr
    rw [Definite.run_take_succ _ hinstr, pathTo_succ first hst]
    refine hholds.step hout ?_ ?_ first i
    · rintro ⟨a, ha, hwrite⟩
      exact ⟨a, Nat.lt_succ_of_lt ha, hwrite⟩
    · exact fun hwrite hr => ⟨i, Nat.lt_succ_self i, hwrite ▸ hinstr, hr⟩

/-- A name that is known to be written in front of a step is written on every path to it. -/
theorem writtenBefore_of_now (hbr : Branch.ofInstrs (Step.instrs ctx.steps) = .ok ctx.branches)
    {i : Nat} (hi : i ≤ ctx.steps.length)
    (h : (({} : Definite).run x ((Step.instrs ctx.steps).take i)).now = true) (first : Nat → Bool)
    (harrives : (ctx.pathTo first i).Arrives) : ctx.WrittenBefore first x i :=
  (holds_pathTo hbr first x hi).now harrives h

end Context

end NamedStack
