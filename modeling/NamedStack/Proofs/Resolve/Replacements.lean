import NamedStack.Proofs.Peephole.Acceptance
import NamedStack.Proofs.Resolve.Accepted

/-!
# What passes replace

A pass puts code in place of open instructions that stand next to each other, and otherwise leaves
what the optimizer made of the program. Two runs of passes, one with an optimizer and one without,
lead to programs that are related if they replace the same open instructions by the same code: then
the rules have been applied to programs that are filled alike in the end.
-/

namespace NamedStack.Session

open Peephole (Chains Lifted Optimizer Patch openings)

variable {s s' : Session} {o : Options} {opt : Optimizer} {inner : InnerResult}

/-! ### One pass -/

/-- Whether so many instructions of a context from a position on are open. -/
private def OpenAt (ctx : Context) (i n : Nat) : Prop :=
  0 < n ∧ n ≤ (ctx.steps.drop i).length ∧ ∀ st ∈ (ctx.steps.drop i).take n, st.instr.isOpen = true

variable {ctx : Context} {i : Nat} {st : Step}

private theorem openAt_one (hst : ctx.steps[i]? = some st) (hopen : st.instr.isOpen = true) :
    OpenAt ctx i 1 := by
  obtain ⟨hlt, -⟩ := List.getElem?_eq_some_iff.mp hst
  refine ⟨Nat.one_pos, ?_, ?_⟩
  · rw [List.length_drop]
    omega
  · rw [Step.take_one_drop hst]
    simpa using hopen

private theorem Replaces.openAt {slots : List Name} {r : Replacement}
    (h : Replaces ctx slots i st.instr r) (hst : ctx.steps[i]? = some st)
    (hopen : st.instr.isOpen = true) : OpenAt ctx i r.2 := by
  cases h with
  | code => exact openAt_one hst hopen
  | elides _ hpos hn hreads =>
    refine ⟨hpos, hn, fun st' hst' => ?_⟩
    obtain ⟨name, hname⟩ := hreads st' hst'
    rw [hname]
    rfl

private theorem openAt_of_run_firstReplacement (hinner : Inward inner) {r : Replacement}
    (h : (firstReplacement inner ctx 0 ctx.steps).run s = .ok (some (i, r)) s') :
    s'.steps = s.steps ∧ OpenAt ctx i r.2 := by
  obtain ⟨k, st, s₁, hk, hst, hkeeps, hvisited⟩ :=
    exists_visited_of_run_firstReplacement hinner h
  rw [Nat.zero_add] at hk
  subst hk
  refine ⟨(hkeeps.trans (hvisited.keeps hinner)).steps, ?_⟩
  generalize hi : st.instr = instr at hvisited
  cases hvisited with
  | code _ haccess hreplaces =>
    obtain ⟨name, rfl | rfl | rfl⟩ := haccess <;>
      exact (hi ▸ hreplaces).openAt hst (by rw [hi]; rfl)
  | content | call => exact openAt_one hst (by rw [hi]; rfl)
  | inner hrun =>
    obtain ⟨ops', rfl⟩ := (hinner _ _ _ _ hrun).2 _ rfl
    exact openAt_one hst (by rw [hi]; rfl)

/-- The patch that a pass applies to the optimized program, if it finds something to replace. -/
def patch? (inner : InnerResult) (o : Options) (opt : Optimizer) (s : Session) : Option Patch :=
  let find : SessionM (Context × Option (Nat × Replacement)) := do
    let ctx ← currentContext o
    return (ctx, ← firstReplacement inner ctx 0 ctx.steps)
  match find.run (s.optimized (some opt)) with
  | .ok (ctx, some (i, new, n)) _ =>
    some { place := (openings (Step.instrs (ctx.steps.take i))).length
           count := n
           code := Step.instrs new }
  | _ => none

private theorem of_run_pass_some (hinner : Inward inner) {b : Bool}
    (h : (pass inner o (some opt)).run s = .ok b s') :
    if b then ∃ p, s.patch? inner o opt = some p ∧ 0 < p.count ∧
        p.Applies (Step.instrs (opt.run s.steps)) (Step.instrs s'.steps)
      else Step.instrs s'.steps = Step.instrs (opt.run s.steps) := by
  obtain ⟨ctx, s₁, r, s₂, hctx, hfirst, hcases⟩ := of_run_pass h
  have hinstrs : Step.instrs s₁.steps = Step.instrs (opt.run s.steps) :=
    instrs_of_run_currentContext hctx
  obtain ⟨-, hsteps, -, -⟩ := of_run_currentContext hctx
  rcases hcases with ⟨rfl, rfl, rfl⟩ | ⟨i, new, n, rfl, rfl, hsplice⟩
  · rw [(visited_of_run_firstReplacement hinner hfirst).1.steps]
    exact hinstrs
  · obtain ⟨hkeeps, hpos, hn, hmid⟩ := openAt_of_run_firstReplacement hinner hfirst
    refine ⟨⟨(openings (Step.instrs (ctx.steps.take i))).length, n, Step.instrs new⟩, ?_, hpos, ?_⟩
    · rw [patch?, run_bind_ok hctx, run_bind_ok hfirst]
      rfl
    · cases hsplice
      refine ⟨Step.instrs (ctx.steps.take i), Step.instrs ((ctx.steps.drop i).take n),
        Step.instrs (ctx.steps.drop (i + n)), ?_, ?_, rfl, ?_, ?_⟩
      · rw [← hinstrs, hsteps, List.append_assoc]
        exact instrs_split ctx.steps i n
      · dsimp only
        rw [hkeeps, hsteps]
        simp only [Step.instrs, List.map_append]
      · intro instr hinstr
        obtain ⟨st, hst, rfl⟩ := List.mem_map.mp hinstr
        exact hmid st hst
      · rw [Step.instrs, List.length_map, List.length_take_of_le hn]

/-! ### Passes side by side -/

/-- Passes from a session to another one, the patches that they apply, and that the rules of some
names are idle in all of them. -/
inductive Passes (inner : InnerResult) (o : Options) (opt : Optimizer) (names : List String) :
    Session → List Patch → Session → Prop
  | last {s s' : Session} (hidle : opt.Idle names s.steps)
      (hpass : (pass inner o (some opt)).run s = .ok false s') : Passes inner o opt names s [] s'
  | next {s s₁ s' : Session} {p : Patch} {ps : List Patch} (hidle : opt.Idle names s.steps)
      (hpass : (pass inner o (some opt)).run s = .ok true s₁) (hp : s.patch? inner o opt = some p)
      (hrest : Passes inner o opt names s₁ ps s') : Passes inner o opt names s (p :: ps) s'

namespace Passes

variable {names : List String} {ps : List Patch} {t t' : Session} {o' : Options} {off : Optimizer}
  {inner' : InnerResult}

/-- Passes lead to where resolving ends. -/
theorem eq_of_run_resolve (h : Passes inner o opt names s ps t) {n : Nat}
    (hrun : (resolve (pass inner o (some opt)) e n).run s = .ok () s') : s' = t := by
  refine of_run_resolve (I := fun s => ∃ ps, Passes inner o opt names s ps t) (F := fun s => s = t)
    (fun s s' b hs hpass => ?_) ⟨ps, h⟩ hrun
  obtain ⟨ps, hs⟩ := hs
  cases hs with
  | last _ hlast =>
    rw [hlast] at hpass
    cases hpass
    rfl
  | next _ hnext _ hrest =>
    rw [hnext] at hpass
    cases hpass
    exact ⟨_, hrest⟩

/-- Passes that apply the same patches keep a relation that the optimizer keeps. -/
theorem lifted {R : List Instr → List Instr → Prop} (hR : Chains R)
    (hidle : ∀ steps, opt.Idle names steps →
      Lifted R (Step.instrs steps) (Step.instrs (opt.run steps)))
    (hinner : Inward inner) (hinner' : Inward inner') (hoff : off.enabled = false)
    (hs : Passes inner o opt names s ps s') (ht : Passes inner' o' off names t ps t')
    (h : Lifted R (Step.instrs t.steps) (Step.instrs s.steps)) :
    Lifted R (Step.instrs t'.steps) (Step.instrs s'.steps) := by
  have hchains := Lifted.chains hR
  have hrun (steps : List Step) : off.run steps = steps := if_neg (by simp [hoff])
  induction hs generalizing t with
  | last hsteps hpass =>
    cases ht with
    | last _ hpass' =>
      have hend := of_run_pass_some hinner hpass
      have hend' := of_run_pass_some hinner' hpass'
      rw [hrun] at hend'
      rw [show Step.instrs t'.steps = _ from hend', show Step.instrs _ = _ from hend]
      exact hchains.trans h (hidle _ hsteps)
  | next hsteps hpass hp _ ih =>
    cases ht with
    | next _ hpass' hp' hrest' =>
      obtain ⟨p, hp₁, hpos, happlies⟩ := of_run_pass_some hinner hpass
      obtain ⟨p', hp₁', -, happlies'⟩ := of_run_pass_some hinner' hpass'
      rw [hp] at hp₁
      rw [hp'] at hp₁'
      cases hp₁
      cases hp₁'
      rw [hrun] at happlies'
      exact ih hrest' ((hchains.trans h (hidle _ hsteps)).patch hpos happlies' happlies)

end Passes

/-- The patches that at most so many passes apply and the session behind them, if they come to their
end and the rules of some names are idle in all of them. -/
def trace (inner : InnerResult) (o : Options) (opt : Optimizer) (names : List String) :
    Nat → Session → Option (List Patch × Session)
  | 0, _ => none
  | n + 1, s =>
    if opt.Idle names s.steps then
      match (pass inner o (some opt)).run s, s.patch? inner o opt with
      | .ok false s', _ => some ([], s')
      | .ok true s₁, some p => (trace inner o opt names n s₁).map fun r => (p :: r.1, r.2)
      | _, _ => none
    else none

/-- Passes that are traced. -/
theorem passes_of_trace {names : List String} {n : Nat} {ps : List Patch}
    (h : trace inner o opt names n s = some (ps, s')) : Passes inner o opt names s ps s' := by
  induction n generalizing s ps with
  | zero => cases h
  | succ n ih =>
    rw [trace] at h
    split at h
    · next hidle =>
      split at h
      · next hpass =>
        cases h
        exact .last hidle hpass
      · next hpass hp =>
        obtain ⟨⟨ps', t⟩, htrace, heq⟩ := Option.map_eq_some_iff.mp h
        cases heq
        exact .next hidle hpass hp (ih htrace)
      · cases h
    · cases h

end NamedStack.Session
