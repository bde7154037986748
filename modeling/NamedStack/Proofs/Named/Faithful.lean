import NamedStack.Proofs.Context.Arms
import NamedStack.Proofs.Named.Locate
import NamedStack.Proofs.Scope

/-!
# Heights of a program that is being resolved

Where steps say of their effects what their opcodes' table says, the machine and the heights of a
program are those of its instructions. While a structured program is resolved, the height in front
of a position is the number of expressions and hidden items there.
-/

namespace NamedStack.Named

/-! ### Steps whose effect is as their opcode's table says -/

/-- Whether what a step says of its effect is what is known of its instruction. The positions that
`PICK` and `ROLL` read may be known. -/
structure Faithful (s : Step) : Prop where
  steady : Steady s.instr
  delta : s.delta = s.instr.delta
  args : s.instr ≠ .op .pick → s.instr ≠ .op .roll → s.args = (Step.of s.instr).args

variable {i : Instr} {steps : List Step} {o : Opcode}

/-- A steady instruction alone is faithful. -/
theorem faithful_of (h : Steady i) : Faithful (.of i) := ⟨h, rfl, fun _ _ => rfl⟩

variable {s : Step} {c : Nat} {n : Int} {K : Name → Prop}

/-- Refining keeps steps faithful. -/
theorem faithful_refine (h : Faithful s) (steps : List Step) (i : Nat) :
    Faithful (Context.refine steps i s) := by
  have hsteady := h.steady
  rcases Context.refine_cases steps i s with heq | ⟨hi, args, heq⟩ | ⟨hi, -⟩ | ⟨hi, -⟩
  · rw [heq]
    exact h
  · rw [heq]
    refine ⟨h.steady, h.delta, ?_⟩
    intro hpick hroll
    exact (hi.elim hpick hroll).elim
  · rw [hi] at hsteady
    exact hsteady.elim
  · rcases hi with hi | hi <;> rw [hi] at hsteady <;> exact hsteady.elim

private theorem step_eq_of_faithful (h : Faithful s) (m : Machine) :
    m.step s = m.step (.of s.instr) := by
  obtain ⟨instr, delta, args, ms, sh⟩ := s
  obtain ⟨hsteady, hdelta, hargs⟩ := h
  dsimp only at hdelta hargs
  subst hdelta
  cases instr with
  | op o =>
    by_cases ho : o = .pick ∨ o = .roll
    · rcases ho with rfl | rfl <;> rfl
    · rw [not_or] at ho
      obtain rfl := hargs (by simpa using ho.1) (by simpa using ho.2)
      cases o <;> rfl
  | _ => rfl

/-- On faithful steps the machine only needs their instructions. -/
theorem run_eq_of_faithful (h : ∀ s ∈ steps, Faithful s) (m : Machine) :
    m.run steps = m.run (Step.ofList (Step.instrs steps)) := by
  induction steps generalizing m with
  | nil => rfl
  | cons s rest ih =>
    have hcons (steps : List Step) (s : Step) :
        m.run (s :: steps) = (m.step s).bind fun m => m.run steps := rfl
    rw [hcons, step_eq_of_faithful (h s List.mem_cons_self)]
    change _ = m.run (.of s.instr :: Step.ofList (Step.instrs rest))
    rw [hcons]
    congr 1
    funext m'
    exact ih (fun s hs => h s (List.mem_cons_of_mem _ hs)) m'

/-- The heights of faithful steps only need their instructions. -/
theorem heights_eq_of_faithful (h : ∀ s ∈ steps, Faithful s) (hs : Heights) :
    hs.run steps = hs.run (Step.ofList (Step.instrs steps)) := by
  induction steps generalizing hs with
  | nil => rfl
  | cons s rest ih =>
    have hstep : hs.step s = hs.step (.of s.instr) := by
      simp only [Heights.step, Step.of, (h s List.mem_cons_self).delta]
    rw [Heights.run_cons, hstep]
    change _ = hs.run (.of s.instr :: Step.ofList (Step.instrs rest))
    rw [Heights.run_cons]
    congr 1
    funext hs'
    exact ih (fun s hs => h s (List.mem_cons_of_mem _ hs)) hs'

/-- Markers among faithful steps add nothing. -/
theorem endsFree_of_faithful (h : ∀ s ∈ steps, Faithful s) : EndsFree steps := by
  intro s hs hi
  rw [(h s hs).delta]
  rcases hi with hi | hi <;> rw [hi] <;> rfl

/-! ### Heights -/

/-- Whether heights are those of a stack of expressions above so many other items. -/
structure Above (count : Nat) (shape : Shape) (h : Heights) : Prop where
  now : h.now = shape.height + count
  levels : h.levels = shape.arms.map fun a =>
    { entry := a.entry + count, arm := a.arm.map fun n => (n + count : Int) }

variable {stack : List Name} {shape shape' : Shape} {hidden hidden' : Hidden}
  {ops done code seg new rest th : List Instr} {count : Nat} {h : Heights}

/-- How many names an instruction writes. -/
def written : Instr → Nat
  | .assign _ => 1
  | _ => 0

private theorem Above.plain (ha : Above count shape h) (hi : ∀ o, i = .op o → o.isMarker = false)
    (hn : (shape'.height + c : Int) = shape.height + count + i.delta)
    (harms : shape'.arms = shape.arms) (hc : shape.arms = [] ∨ c = count) :
    ∃ h', h.step (.of i) = some h' ∧ Above c shape' h' := by
  refine ⟨{ h with now := h.now + i.delta }, ?_, ?_, ?_⟩
  · cases i with
    | op o => cases o <;> first | rfl | cases hi _ rfl
    | _ => rfl
  · change h.now + i.delta = _
    rw [ha.now, hn]
  · change h.levels = _
    rw [ha.levels, harms]
    rcases hc with hc | rfl
    · simp [hc]
    · rfl

private theorem delta_ge {literal : Option Int} {r : Nat} (h : reach literal o = some r) :
    0 ≤ (r : Int) + o.info.delta := by
  rcases reach_cases h with ⟨ho, n, -, -, rfl⟩ | h
  · rcases ho with rfl | rfl <;> simp only [Opcode.info] <;> omega
  · have hall := Opcode.forall_of_all
      (P := fun o => (reach none o).all (fun r => 0 ≤ (r : Int) + o.info.delta) = true)
      (by decide +kernel) o
    simpa [h] using hall

private theorem Above.step (ha : Above count shape h)
    (hshape : Shape.step stack shape i = some shape') :
    ∃ h', h.step (.of i) = some h' ∧ Above (count + written i) shape' h' := by
  cases Shape.moves_of_step hshape with
  | plain hmark hreach hle =>
    have := delta_ge hreach
    refine ha.plain (fun o ho => ?_) ?_ rfl (.inr rfl)
    · cases ho
      exact hmark
    · simp only [Instr.delta, written]
      omega
  | opens ho hle =>
    have hnow : h.now + -1 = (shape.height - 1 : Nat) + (count : Int) := by
      rw [ha.now]
      omega
    rcases ho with rfl | rfl <;>
      exact ⟨_, rfl, hnow, by simp [Step.of, Instr.delta, Opcode.info, hnow, ha.levels, written]⟩
  | splits harms =>
    have hlevels := ha.levels
    rw [harms, List.map_cons] at hlevels
    refine ⟨_, by simp only [Heights.step, Step.of, hlevels]; rfl, rfl, ?_⟩
    simp [ha.now, written]
  | @closes a arms harms hend =>
    have hlevels := ha.levels
    rw [harms, List.map_cons] at hlevels
    refine ⟨_, by simp only [Heights.step, Step.of, hlevels]; rfl, ?_, rfl⟩
    have hnow := ha.now
    cases hf : a.arm with
    | none => simpa [hf, written] using hnow
    | some n =>
      simp only [hf, Option.getD_some] at hend
      simp [written, hend]
  | push data =>
    refine ha.plain (i := .push data) (by simp) ?_ rfl (.inr rfl)
    simp only [Instr.delta, written]
    omega
  | @read _ name hi _ =>
    rcases hi with rfl | rfl
    · refine ha.plain (i := .assume name) (by simp) ?_ rfl (.inr rfl)
      simp only [Instr.delta, written]
      omega
    · refine ha.plain (i := .var name) (by simp) ?_ rfl (.inr rfl)
      simp only [Instr.delta, written]
      omega
  | @write name hopen hheight =>
    refine ha.plain (i := .assign name) (by simp) ?_ hopen.symm (.inl hopen)
    simp only [Instr.delta, written]
    omega

/-- The heights of a structured program can be followed. -/
theorem Above.run (ha : Above count shape h) (hshape : Shape.run stack shape rest = some shape') :
    ∃ h' count', h.run (Step.ofList rest) = some h' ∧ Above count' shape' h' := by
  induction rest generalizing shape count h with
  | nil =>
    cases hshape
    exact ⟨h, count, rfl, ha⟩
  | cons i rest ih =>
    obtain ⟨mid, hmid, hrest⟩ := Option.bind_eq_some_iff.mp hshape
    obtain ⟨h₁, hstep, ha₁⟩ := ha.step hmid
    obtain ⟨h', count', hrun, ha'⟩ := ih ha₁ hrest
    refine ⟨h', count', ?_, ha'⟩
    change h.run (.of i :: Step.ofList rest) = _
    rw [Heights.run_cons, hstep]
    exact hrun

private theorem delta_number (n : Int) : (Instr.number n).delta = 1 := by
  unfold Instr.number
  cases SmallInt.ofInt? n <;> rfl

private theorem number_not_marker (h : Instr.number n = .op o) : o.isMarker = false := by
  unfold Instr.number at h
  split at h <;> cases h
  rfl

private theorem heights_run_pair (h : Heights) (i j : Instr) :
    h.run (Step.ofList [i, j]) = (h.step (.of i)).bind fun h => h.step (.of j) := by
  change (h.step (.of i)).bind (fun h => (h.step (.of j)).bind some) = _
  congr 1
  funext h'
  cases h'.step (.of j) <;> rfl

private theorem heights_run_single (h : Heights) (i : Instr) :
    h.run (Step.ofList [i]) = h.step (.of i) := by
  change (h.step (.of i)).bind some = _
  cases h.step (.of i) <;> rfl

private theorem Above.number (ha : Above count shape h) (ho : o.isMarker = false)
    (hn : (shape'.height + c : Int) = shape.height + count + 1 + o.info.delta)
    (harms : shape'.arms = shape.arms) (hc : shape.arms = [] ∨ c = count) :
    ∃ h', h.run (Step.ofList [.number n, .op o]) = some h' ∧ Above c shape' h' := by
  obtain ⟨h₁, hstep₁, ha₁⟩ : ∃ h₁, h.step (.of (.number n)) = some h₁ ∧
      Above count { shape with height := shape.height + 1 } h₁ :=
    ha.plain (fun o => number_not_marker) (by rw [delta_number]; dsimp only; omega) rfl (.inr rfl)
  obtain ⟨h', hstep, ha'⟩ := ha₁.plain (i := .op o) (fun o' ho' => by cases ho'; exact ho)
    (by simp only [Instr.delta]; omega) harms hc
  refine ⟨h', ?_, ha'⟩
  rw [heights_run_pair, hstep₁]
  exact hstep

private theorem Segment.above (hseg : Segment shape hidden rest seg new hidden')
    (hshape : Shape.run stack shape seg = some shape') (hth : Thins K new th)
    (ha : Above hidden.length shape h) :
    ∃ h', h.run (Step.ofList th) = some h' ∧ Above hidden'.length shape' h' := by
  cases hseg with
  | op o =>
    rw [Shape.run_singleton] at hshape
    obtain rfl := hth.eq_of_noWrites (by simp)
    rw [heights_run_single]
    exact ha.step hshape
  | push data =>
    rw [Shape.run_singleton] at hshape
    obtain rfl := hth.eq_of_noWrites (by simp)
    rw [heights_run_single]
    exact ha.step hshape
  | write name =>
    rw [Hidden.length_write]
    cases hth with
    | keep _ hth =>
      cases hth
      rw [heights_run_single]
      exact ha.step (Shape.run_singleton .. ▸ hshape)
    | drop _ hth =>
      cases hth
      obtain ⟨hopen, hheight, rfl⟩ := Shape.run_write hshape
      refine ⟨h, rfl, ?_, by rw [ha.levels, hopen]; rfl⟩
      rw [ha.now, hheight]
      push_cast
      omega
  | copy hi hk =>
    obtain rfl := Shape.run_read hi hshape
    obtain rfl := hth.eq_of_noWrites (by simp [(number_ne_assign _ _).symm])
    exact ha.number rfl (by simp only [Opcode.info]; omega) rfl (.inr rfl)
  | @move i name k hi hk hopen hdead =>
    obtain rfl := Shape.run_read hi hshape
    obtain rfl := hth.eq_of_noWrites (by simp [(number_ne_assign _ _).symm])
    have hlt := (List.getElem?_eq_some_iff.mp hk).1
    refine ha.number rfl ?_ rfl (.inl hopen)
    simp only [Opcode.info, List.length_eraseIdx_of_lt hlt]
    omega
  | @elide _ names _ hreads htop hopen hheight hdead =>
    cases hth
    obtain ⟨harms, hheight', -, -⟩ := Shape.run_reads hreads hshape
    refine ⟨h, rfl, ?_, by rw [ha.levels, harms, hopen]; rfl⟩
    rw [ha.now, hheight', htop]
    simp only [List.length_append, List.length_map, List.length_reverse]
    omega

/-- The heights of code that is resolved from the left are those of the expressions and the hidden
items. -/
theorem Resolves.above (hres : Resolves stack ops done code hidden shape rest)
    (hth : Thins K code th) :
    ∃ h, Heights.run { now := stack.length } (Step.ofList th) = some h ∧
      Above hidden.length shape h := by
  induction hres generalizing th with
  | start =>
    cases hth
    exact ⟨_, rfl, by simp, rfl⟩
  | @step done code seg new rest hidden hidden' shape shape' _ hseg hshape ih =>
    obtain ⟨th₁, th₂, rfl, hth₁, hth₂⟩ := hth.of_append
    obtain ⟨h₁, hrun₁, ha₁⟩ := ih hth₁
    obtain ⟨h₂, hrun₂, ha₂⟩ := hseg.above hshape hth₂ ha₁
    refine ⟨h₂, ?_, ha₂⟩
    rw [Step.ofList, List.map_append, Heights.run_append]
    exact Option.bind_eq_some_iff.mpr ⟨h₁, hrun₁, hrun₂⟩

end NamedStack.Named
