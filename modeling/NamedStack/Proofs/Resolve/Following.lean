import NamedStack.Proofs.Resolve.Session

/-!
# Computations that follow others

A computation on sessions follows another one if from related sessions it comes to the same result,
to related sessions and to related failures, unless a bound stops it first. If no single reference
tells related sessions apart, then neither does a whole program; and with larger bounds a program
comes to the same result, unless the smaller ones were reached.
-/

namespace NamedStack.Session

section

variable (R : Session → Session → Prop) (F : Failure → Failure → Prop) {α : Type}

/-- The same result with related sessions, or related failures with related sessions. -/
inductive SameResult :
    EStateM.Result Failure Session α → EStateM.Result Failure Session α → Prop
  | ok {a : α} {s u : Session} (h : R s u) : SameResult (.ok a s) (.ok a u)
  | error {f g : Failure} {s u : Session} (hf : F f g) (h : R s u) :
      SameResult (.error f s) (.error g u)

/-- Whether a computation from a session comes to the same as another one from another session,
unless a bound stops it. -/
def FollowsAt (x : SessionM α) (s : Session) (y : SessionM α) (u : Session) : Prop :=
  (∃ s', x.run s = .error (.fault .endless) s') ∨ SameResult R F (x.run s) (y.run u)

/-- Whether a computation does so from all sessions that are related. -/
def Follows (x y : SessionM α) : Prop := ∀ ⦃s u⦄, R s u → FollowsAt R F x s y u

end

variable {R : Session → Session → Prop} {F : Failure → Failure → Prop} {α β : Type}
  {s u : Session}

/-- What follows a computation that follows another one. -/
theorem FollowsAt.bind {x y : SessionM α} {f g : α → SessionM β} (h : FollowsAt R F x s y u)
    (hf : ∀ a, Follows R F (f a) (g a)) : FollowsAt R F (x >>= f) s (y >>= g) u := by
  unfold FollowsAt at h ⊢
  rw [EStateM.run_bind, EStateM.run_bind]
  rcases h with ⟨s', hx⟩ | h
  · rw [hx]
    exact .inl ⟨s', rfl⟩
  · generalize x.run s = a at h ⊢
    generalize y.run u = b at h ⊢
    cases h with
    | ok hrelated => exact hf _ hrelated
    | error hfailures hrelated => exact .inr (.error hfailures hrelated)

namespace Follows

/-- What follows a computation that follows another one, from all sessions. -/
theorem bind {x y : SessionM α} {f g : α → SessionM β} (h : Follows R F x y)
    (hf : ∀ a, Follows R F (f a) (g a)) : Follows R F (x >>= f) (y >>= g) :=
  fun _ _ hrelated => (h hrelated).bind hf

/-- Computations that look at their session. -/
theorem get_bind {f g : Session → SessionM β}
    (h : ∀ ⦃s u⦄, R s u → FollowsAt R F (f s) s (g u) u) :
    Follows R F (get >>= f) (get >>= g) :=
  fun _ _ hrelated => h hrelated

/-- Computations that have a result at once. -/
theorem pure (a : α) : Follows R F (pure a : SessionM α) (pure a) :=
  fun _ _ hrelated => .inr (.ok hrelated)

/-- What is stopped by a bound follows everything. -/
theorem endless (y : SessionM α) : Follows R F (throw (.fault .endless)) y :=
  fun s _ _ => .inl ⟨s, rfl⟩

/-- Computations that fail at once. -/
theorem throw {f g : Failure} (h : F f g) : Follows R F (throw f : SessionM α) (throw g) :=
  fun _ _ hrelated => .inr (.error h hrelated)

/-- Computations that may have a cause instead of a result. -/
theorem orRefuse (hF : ∀ f, F f f) (x : Except Cause α) :
    Follows R F (orRefuse x) (orRefuse x) := by
  cases x with
  | ok a => exact pure a
  | error c => exact throw (hF _)

/-- Computations that change their session. -/
theorem modify {f g : Session → Session} (h : ∀ ⦃s u⦄, R s u → R (f s) (g u)) :
    Follows R F (modify f : SessionM Unit) (modify g) :=
  fun _ _ hrelated => .inr (.ok (h hrelated))

end Follows

/-! ### Sessions in which a program is resolved -/

/-- Whether related sessions have the same program, and nothing that is done at a single place of it
tells them apart, given the options for each of them. -/
structure Resembling (R : Session → Session → Prop) (F : Failure → Failure → Prop)
    (o o' : Options) : Prop where
  steps : ∀ ⦃s u⦄, R s u → s.steps = u.steps
  context : Follows R F (currentContext o) (currentContext o')
  route : Follows R F (route o) (route o')
  readAssumption : ∀ ctx i name shared,
    Follows R F (readAssumption ctx i name shared) (readAssumption ctx i name shared)
  readName : ∀ ctx i name, Follows R F (readName ctx i name) (readName ctx i name)
  writeName : ∀ ctx i name, Follows R F (writeName ctx i name) (writeName ctx i name)
  expandCall : ∀ i name args, Follows R F (expandCall i name args) (expandCall i name args)
  change : ∀ ⦃s u⦄, R s u → ∀ (f : List Step → List Step) (g : Nat → Nat) (h : Tally → Tally),
    R { s with steps := f s.steps, replacements := g s.replacements, tally := h s.tally }
      { u with steps := f u.steps, replacements := g u.replacements, tally := h u.tally }
  child : ∀ ⦃s u⦄, R s u → ∀ ops, R (s.child ops) (u.child ops)
  leave : ∀ ⦃s u c c'⦄, R s u → R c c' →
    R { s with tally := c.tally } { u with tally := c'.tally }

namespace Resembling

variable {o o' : Options} (hR : Resembling R F o o') {opt : Option Peephole.Optimizer}
  {inner inner' : InnerResult} (hinner : ∀ ops, Follows R F (inner ops) (inner' ops))

include hR

private theorem splice (i n : Nat) (new : List Step) :
    Follows R F (splice i n new) (splice i n new) :=
  .modify fun _ _ h => hR.change h (fun steps => steps.take i ++ new ++ steps.drop (i + n))
    (· + 1) fun tally => { tally with replaced := tally.replaced + 1 }

include hinner in
private theorem visit (ctx : Context) (i : Nat) (st : Step) :
    Follows R F (visit inner ctx i st) (Session.visit inner' ctx i st) := by
  unfold Session.visit
  split
  · exact .pure _
  · exact .pure _
  · exact (hR.readAssumption ctx i _ _).bind fun r => .pure _
  · exact (hR.readName ctx i _).bind fun r => .pure _
  · exact hR.writeName ctx i _
  · exact (hR.expandCall i _ _).bind fun r => .pure _
  · exact hinner _

include hinner in
private theorem firstReplacement (ctx : Context) (i : Nat) (steps : List Step) :
    Follows R F (firstReplacement inner ctx i steps)
      (Session.firstReplacement inner' ctx i steps) := by
  induction steps generalizing i with
  | nil => exact .pure none
  | cons st rest ih =>
    refine (hR.visit hinner ctx i st).bind fun r => ?_
    cases r with
    | none => exact ih (i + 1)
    | some r => exact .pure _

include hinner in
private theorem search : Follows R F (search inner o) (Session.search inner' o') := by
  refine hR.context.bind fun ctx => (hR.firstReplacement hinner ctx 0 ctx.steps).bind fun r => ?_
  cases r with
  | none => exact .pure _
  | some r => exact (hR.splice r.1 r.2.2 r.2.1).bind fun _ => .pure _

include hinner in
/-- A pass does not tell related sessions apart. -/
theorem pass : Follows R F (pass inner o opt) (Session.pass inner' o' opt) := by
  intro s u hrelated
  unfold FollowsAt
  rw [run_pass, run_pass]
  refine hR.search hinner ?_
  cases opt with
  | none => exact hR.change hrelated id id fun tally => { tally with passes := tally.passes + 1 }
  | some opt =>
    exact hR.change hrelated opt.run id fun tally => { tally with passes := tally.passes + 1 }

variable {m n e e' : Nat}

variable {pass pass' : SessionM Bool} {run run' : SessionM Unit}

/-- Neither do passes with as many references, and more of them come to the same. -/
theorem settle {next next' : SessionM Unit} (hnext : Follows R F next next')
    (hpass : Follows R F pass pass') (h : n ≤ m) :
    Follows R F (settle next pass n) (Session.settle next' pass' m) := by
  induction n generalizing m with
  | zero => exact .endless _
  | succ n ih =>
    obtain ⟨m, rfl⟩ : ∃ k, m = k + 1 := ⟨m - 1, by omega⟩
    refine Follows.get_bind fun s u hrelated => ?_
    rw [references, hR.steps hrelated, ← references]
    refine (hpass hrelated).bind fun replaced => ?_
    cases replaced with
    | false => exact .pure ()
    | true =>
      refine Follows.get_bind fun s u hrelated => ?_
      rw [references, hR.steps hrelated, ← references]
      split
      · exact hnext hrelated
      · exact ih (Nat.le_of_succ_le_succ h) hrelated

/-- Neither do all passes, and larger bounds come to the same. -/
theorem resolve (hpass : Follows R F pass pass') (he : e ≤ e') (h : n ≤ m) :
    Follows R F (resolve pass e n) (Session.resolve pass' e' m) := by
  induction n generalizing m with
  | zero => exact .endless _
  | succ n ih =>
    obtain ⟨m, rfl⟩ : ∃ k, m = k + 1 := ⟨m - 1, by omega⟩
    refine Follows.get_bind fun s u hrelated => ?_
    rw [hR.steps hrelated]
    exact hR.settle (ih (Nat.le_of_succ_le_succ h)) hpass (by omega) hrelated

private theorem expandWith {deeper deeper' : Nat → List Step → SessionM Nat}
    (hdeeper : ∀ i steps, Follows R F (deeper i steps) (deeper' i steps)) (i : Nat)
    (steps : List Step) :
    Follows R F (expandWith deeper o i steps) (Session.expandWith deeper' o' i steps) := by
  induction steps generalizing i with
  | nil => exact .pure i
  | cons st rest ih =>
    rw [Session.expandWith, Session.expandWith]
    split
    · refine hR.context.bind fun _ => (hR.expandCall i _ _).bind fun r => ?_
      exact (hR.splice i r.2 r.1).bind fun _ => (hdeeper i r.1).bind ih
    · exact ih (i + 1)

private theorem expandDeep (h : n ≤ m) (i : Nat) (steps : List Step) :
    Follows R F (expandDeep o n i steps) (Session.expandDeep o' m i steps) := by
  induction n generalizing m i steps with
  | zero =>
    cases m with
    | zero => exact hR.expandWith (fun _ _ => .endless _) i steps
    | succ m => exact hR.expandWith (fun _ _ => .endless _) i steps
  | succ n ih =>
    obtain ⟨m, rfl⟩ : ∃ k, m = k + 1 := ⟨m - 1, by omega⟩
    exact hR.expandWith (fun i steps => ih (Nat.le_of_succ_le_succ h) i steps) i steps

/-- Expanding all calls does not tell related sessions apart, and a larger bound comes to the
same. -/
theorem expandCalls (he : e ≤ e') : Follows R F (expandCalls o e) (Session.expandCalls o' e') := by
  refine Follows.get_bind fun s u hrelated => ?_
  rw [hR.steps hrelated]
  exact (hR.expandDeep (by omega) _ _ hrelated).bind fun _ => .pure ()

include hinner in
/-- Resolving a program does not tell related sessions apart, given how inner scripts are resolved,
and larger bounds come to the same. -/
theorem resolveWith (he : e ≤ e') :
    Follows R F (resolveWith inner o opt e) (Session.resolveWith inner' o' opt e') := by
  refine (hR.expandCalls he).bind fun _ => hR.route.bind fun _ => ?_
  refine Follows.get_bind fun s u hrelated => ?_
  rw [references, hR.steps hrelated, ← references]
  exact hR.resolve (hR.pass hinner) he (by omega) hrelated

/-- What an inner script comes to, in sessions that need not be related themselves. -/
theorem innerWith_cases (hrun : Follows R F run run') {ops : List Instr}
    (hchild : R (s.child ops) (u.child ops)) :
    (∃ s', (innerWith run ops).run s = .error (.fault .endless) s') ∨
      ∃ c c', R c c' ∧ ((∃ r, (innerWith run ops).run s = .ok r { s with tally := c.tally } ∧
          (innerWith run' ops).run u = .ok r { u with tally := c'.tally }) ∨
        ∃ f g, F f g ∧ (innerWith run ops).run s = .error f { s with tally := c.tally } ∧
          (innerWith run' ops).run u = .error g { u with tally := c'.tally }) := by
  rw [run_innerWith, run_innerWith]
  rcases hrun hchild with ⟨s', hs'⟩ | hsame
  · rw [hs']
    exact .inl ⟨_, rfl⟩
  · right
    generalize run.run (s.child ops) = x at hsame ⊢
    generalize run'.run (u.child ops) = y at hsame ⊢
    cases hsame with
    | @ok _ c c' hrelated =>
      simp only [hR.steps hrelated]
      exact ⟨c, c', hrelated, .inl ⟨_, rfl, rfl⟩⟩
    | @error f g c c' hfailures hrelated =>
      exact ⟨c, c', hrelated, .inr ⟨f, g, hfailures, rfl, rfl⟩⟩

/-- An inner script does not tell related sessions apart if a program does not. -/
theorem innerWith (hrun : Follows R F run run') (ops : List Instr) :
    Follows R F (innerWith run ops) (Session.innerWith run' ops) := by
  intro s u hrelated
  unfold FollowsAt
  rcases hR.innerWith_cases hrun (hR.child hrelated ops) with hend | ⟨c, c', hc, h⟩
  · exact .inl hend
  · rcases h with ⟨r, hs, hu⟩ | ⟨f, g, hfailures, hs, hu⟩
    · rw [hs, hu]
      exact .inr (.ok (hR.leave hrelated hc))
    · rw [hs, hu]
      exact .inr (.error hfailures (hR.leave hrelated hc))

/-- Resolving a program does not tell related sessions apart, and larger bounds come to the same. -/
theorem resolveDeep (he : e ≤ e') (h : n ≤ m) :
    Follows R F (resolveDeep o opt e n) (Session.resolveDeep o' opt e' m) := by
  induction n generalizing m with
  | zero =>
    rw [Session.resolveDeep]
    cases m with
    | zero =>
      rw [Session.resolveDeep]
      exact hR.resolveWith (fun _ => .endless _) he
    | succ m =>
      rw [Session.resolveDeep]
      exact hR.resolveWith (fun _ => .endless _) he
  | succ n ih =>
    obtain ⟨m, rfl⟩ : ∃ k, m = k + 1 := ⟨m - 1, by omega⟩
    rw [Session.resolveDeep, Session.resolveDeep]
    exact hR.resolveWith (hR.innerWith (ih (Nat.le_of_succ_le_succ h))) he

end Resembling

/-! ### Larger bounds -/

/-- A computation follows itself. -/
theorem Follows.self (x : SessionM α) : Follows Eq Eq x x := by
  rintro s _ rfl
  right
  cases x.run s with
  | ok => exact .ok rfl
  | error => exact .error rfl rfl

/-- A session resembles itself. -/
theorem resembling_eq (o : Options) : Resembling Eq Eq o o := by
  refine ⟨?_, .self _, .self _, fun _ _ _ _ => .self _, fun _ _ _ => .self _, fun _ _ _ => .self _,
    fun _ _ _ => .self _, ?_, ?_, ?_⟩
  · rintro s _ rfl
    rfl
  · rintro s _ rfl f g h
    rfl
  · rintro s _ rfl ops
    rfl
  · rintro s _ c _ rfl rfl
    rfl

/-- A computation that follows another one from the same session comes to the same result, unless a
bound stops it. -/
theorem Follows.run_eq {x y : SessionM α} (h : Follows Eq Eq x y)
    (hend : ∀ s', x.run s ≠ .error (.fault .endless) s') : x.run s = y.run s := by
  rcases h (rfl : s = s) with ⟨s', hs'⟩ | hsame
  · exact absurd hs' (hend s')
  · generalize x.run s = a at hsame
    generalize y.run s = b at hsame
    cases hsame with
    | ok h => rw [h]
    | error hf h => rw [hf, h]

end NamedStack.Session

namespace NamedStack

/-- What comes of a program with some bounds, if they were not reached, comes of it with larger ones
as well. -/
theorem resolveWithin_eq_of_le {t : Table} {o : Options} {opt : Option Peephole.Optimizer}
    {ops : List Instr} {e e' : Nat} (he : e ≤ e')
    (h : (resolveWithin e t o opt ops).failure ≠ some (.fault .endless)) :
    resolveWithin e' t o opt ops = resolveWithin e t o opt ops := by
  have hdepth : Measure.scriptDepth t ops + e ≤ Measure.scriptDepth t ops + e' := by omega
  have hfollows : Session.Follows Eq Eq (Session.resolveDeep o opt e _)
      (Session.resolveDeep o opt e' _) := (Session.resembling_eq o).resolveDeep he hdepth
  have hrun := hfollows.run_eq (s := { steps := Step.ofList ops, table := t }) fun s' hs' => h (by
    unfold EStateM.run at hs'
    rw [resolveWithin, hs'])
  unfold EStateM.run at hrun
  rw [resolveWithin, resolveWithin, hrun]

end NamedStack
