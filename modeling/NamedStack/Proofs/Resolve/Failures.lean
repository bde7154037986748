import NamedStack.Proofs.Context.Contents
import NamedStack.Proofs.Resolve.Session

/-!
# Why resolving fails

A failure is regular if it is neither that of a computation without an end nor that of a reference
that is left in a program. Finding a context and finding what has to be routed fail for regular
reasons only, whatever the session is.
-/

namespace NamedStack

/-! ### Regular failures -/

/-- Whether a failure is neither that of a computation without an end nor that of a reference that
is left. -/
def Failure.Regular : Failure → Prop
  | .problem p => p.kind ≠ .unresolved
  | .fault f => f ≠ .endless

/-- A note keeps a failure regular. -/
theorem Failure.Regular.note {f : Failure} (h : f.Regular) (n : Note) : (f.note n).Regular := by
  cases f with
  | problem p => exact h
  | fault f => exact h

/-- Whether a computation has a result with a property or fails regularly. -/
def Gives {α : Type} (x : Except Failure α) (P : α → Prop) : Prop :=
  match x with
  | .ok a => P a
  | .error f => f.Regular

namespace Gives

variable {α β : Type} {x : Except Failure α} {P Q : α → Prop}

/-- A computation that uses the result of another. -/
theorem bind {R : β → Prop} {f : α → Except Failure β} (h : Gives x P)
    (hf : ∀ a, P a → Gives (f a) R) : Gives (x >>= f) R := by
  cases x with
  | ok a => exact hf a h
  | error e => exact h

/-- A weaker property. -/
theorem mono (h : Gives x P) (hPQ : ∀ a, P a → Q a) : Gives x Q := by
  cases x with
  | ok a => exact hPQ a h
  | error e => exact h

end Gives

/-! ### Causes -/

/-- Whether what has a cause instead of a result has one that is no reference. -/
def Explained {α : Type} (x : Except Cause α) : Prop :=
  ∀ c, x = .error c → c.kind ≠ .unresolved

private theorem Explained.ok {α : Type} (a : α) : Explained (.ok a) := nofun

private theorem Explained.error {α : Type} {c : Cause} (h : c.kind ≠ .unresolved) :
    Explained (.error c : Except Cause α) := by
  rintro _ ⟨⟩
  exact h

private theorem Explained.bind {α β : Type} {x : Except Cause α} {f : α → Except Cause β}
    (hx : Explained x) (hf : ∀ a, Explained (f a)) : Explained (x >>= f) := by
  cases x with
  | ok a => exact hf a
  | error c => exact .error (hx c rfl)

private theorem Explained.foldlM {α β : Type} {f : β → α → Except Cause β}
    (hf : ∀ b a, Explained (f b a)) (xs : List α) (b : β) : Explained (xs.foldlM f b) := by
  induction xs generalizing b with
  | nil => exact .ok _
  | cons a xs ih =>
    rw [List.foldlM_cons]
    exact (hf b a).bind ih

private theorem Branch.explained_ofInstrs (instrs : List Instr) : Explained (ofInstrs instrs) := by
  have hstep (s : Scan) (i : Nat) (instr : Instr) : Explained (s.step i instr) := by
    unfold Scan.step
    split
    · exact .ok _
    · exact .ok _
    · split
      · exact .ok _
      · exact .error nofun
    · split
      · exact .ok _
      · exact .error nofun
    · exact .ok _
  have hrun (s : Scan) (i : Nat) (instrs : List Instr) : Explained (s.run i instrs) := by
    induction instrs generalizing s i with
    | nil => exact .ok _
    | cons instr rest ih => exact (hstep s i instr).bind fun s' => ih s' (i + 1)
  refine (hrun {} 0 instrs).bind fun s => ?_
  split
  · exact .ok _
  · exact .error nofun

namespace Context

private theorem explained_of (t : Table) (o : Options) (steps : List Step) :
    Explained (Context.of t o steps) := by
  refine (Branch.explained_ofInstrs _).bind fun branches => ?_
  dsimp only
  split
  · exact .error nofun
  · split
    · next hbad =>
      split at hbad
      · cases hbad
      · exact .error (by rw [kind_of_badComparison? hbad]; exact nofun)
    · exact .ok _

private theorem explained_routing (ctx : Context) (t : Table) (o : Options) :
    Explained (ctx.routing t o) := by
  refine (Explained.foldlM (fun acc name => ?_) _ _).bind fun _ => .ok _
  split
  · exact .ok _
  · split
    · split <;> exact .ok _
    · exact .error nofun

end Context

namespace AltSlots

private theorem explained_above (slots : AltSlots) (height : Nat) (name : Name) :
    Explained (slots.above height name) := by
  unfold above
  split
  · exact .ok _
  · split
    · exact .error nofun
    · exact .ok _

/-- Reading a slot is refused for a regular cause. -/
theorem explained_get (slots : AltSlots) (height : Nat) (name : Name) (last : Bool) :
    Explained (slots.get height name last) := by
  refine (explained_above slots height name).bind fun r => ?_
  split
  · exact .ok _
  · split <;> exact .ok _

/-- Writing a slot is refused for a regular cause. -/
theorem explained_set (slots : AltSlots) (height : Nat) (name : Name) :
    Explained (slots.set height name) := by
  refine (explained_above slots height name).bind fun r => ?_
  split <;> exact .ok _

/-- Slots cannot be filled only where a depth cannot be pushed. -/
theorem setup_error {enabled : Bool} {steps : List Step} {r : Routing} {e : Fault × AltSlots}
    (h : setup enabled steps r = .error e) : e.1 = .outOfRange := by
  have hmove (depth : Int) (f : Fault) (h : moveIn depth = .error f) : f = .outOfRange := by
    unfold moveIn Instr.ofInt ScriptNum.encode at h
    split at h
    · cases h
    · split at h
      · cases h
        rfl
      · cases h
  have hitems (l : List (Name × Int)) (acc : AltSlots × List Step) (h : addItems l acc = .error e) :
      e.1 = .outOfRange := by
    induction l generalizing acc with
    | nil => cases h
    | cons p rest ih =>
      rw [addItems] at h
      split at h
      · next f hf =>
        cases h
        exact hmove _ f hf
      · exact ih _ h
  unfold setup at h
  cases hmoved : addItems (if enabled then byDepth r.assumptions else []) ([], []) with
  | error e' =>
    rw [hmoved] at h
    cases h
    exact hitems _ _ hmoved
  | ok moved =>
    rw [hmoved] at h
    cases h

end AltSlots

namespace Session

/-! ### Operations on a session -/

/-- Whether an operation leads from a session to a result and a session with a property, or to a
failure and a session with another one. -/
def Leads {α : Type} (x : SessionM α) (s : Session) (Q : α → Session → Prop)
    (E : Failure → Session → Prop) : Prop :=
  match x.run s with
  | .ok a s' => Q a s'
  | .error f s' => E f s'

/-- Whether an operation leads from a session to a result and a session with a property, or fails
regularly. -/
abbrev Ends {α : Type} (x : SessionM α) (s : Session) (Q : α → Session → Prop) : Prop :=
  Leads x s Q fun f _ => f.Regular

variable {α β : Type} {x : SessionM α} {s s' : Session} {Q R : α → Session → Prop}
  {E F : Failure → Session → Prop} {f : α → SessionM β} {S : β → Session → Prop}

/-- An operation leads to what is known of its runs. -/
theorem leads_iff : Leads x s Q E ↔
    (∀ a s', x.run s = .ok a s' → Q a s') ∧ ∀ f s', x.run s = .error f s' → E f s' := by
  unfold Leads
  cases x.run s with
  | ok a s' => simp
  | error f s' => simp

namespace Leads

/-- What follows an operation starts from what it leads to. -/
theorem bind (h : Leads x s Q E) (hf : ∀ a s', Q a s' → Leads (f a) s' S E) :
    Leads (x >>= f) s S E := by
  unfold Leads at h ⊢
  rw [EStateM.run_bind]
  cases hx : x.run s with
  | ok a s' =>
    rw [hx] at h
    exact hf a s' h
  | error e s' =>
    rw [hx] at h
    exact h

/-- An operation that looks at its session. -/
theorem get_bind {f : Session → SessionM β} (h : Leads (f s) s S E) : Leads (get >>= f) s S E := h

/-- What is known of a run besides may be used as well. -/
theorem imp (h : Leads x s Q E) (hQ : ∀ a s', x.run s = .ok a s' → Q a s' → R a s')
    (hE : ∀ f s', x.run s = .error f s' → E f s' → F f s') : Leads x s R F :=
  leads_iff.mpr ⟨fun a s' hx => hQ a s' hx ((leads_iff.mp h).1 a s' hx),
    fun f s' hx => hE f s' hx ((leads_iff.mp h).2 f s' hx)⟩

/-- An operation that has a cause instead of a result fails with it. -/
theorem orRefuse {y : Except Cause α} (hok : ∀ a, y = .ok a → Q a s)
    (herror : ∀ c, y = .error c → E (.of c) s) : Leads (orRefuse y) s Q E := by
  cases y with
  | ok a => exact hok a rfl
  | error c => exact herror c rfl

/-- What follows a result that may have a cause instead. -/
theorem orRefuse_bind {y : Except Cause α} (hok : ∀ a, y = .ok a → Leads (f a) s S E)
    (herror : ∀ c, y = .error c → E (.of c) s) : Leads (Session.orRefuse y >>= f) s S E := by
  cases y with
  | ok a => exact hok a rfl
  | error c => exact herror c rfl

end Leads

/-- What is known of a result besides may be used as well. -/
theorem Ends.imp (h : Ends x s Q) (hR : ∀ a s', x.run s = .ok a s' → Q a s' → R a s') :
    Ends x s R :=
  Leads.imp h hR fun _ _ _ hf => hf

/-- Finding a context fails regularly, if it does. -/
theorem ends_currentContext (o : Options) (s : Session) :
    Ends (currentContext o) s fun _ _ => True :=
  Leads.orRefuse_bind (fun _ _ => trivial) (Context.explained_of _ _ _)

/-- Filling slots fails regularly, if it does. -/
theorem ends_route (o : Options) (s : Session) : Ends (route o) s fun _ _ => True := by
  refine (ends_currentContext o s).bind fun ctx s₁ _ => Leads.get_bind ?_
  refine .orRefuse_bind (fun r _ => Leads.get_bind ?_) (ctx.explained_routing _ _)
  split
  · next f _ hsetup =>
    rw [show f = .outOfRange from AltSlots.setup_error hsetup]
    exact nofun
  · trivial

end Session

end NamedStack
