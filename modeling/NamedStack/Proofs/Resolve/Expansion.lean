import NamedStack.Proofs.Context.Arms

/-!
# Code in place of references

While a program is resolved, each of its instructions is either still there or has straight code in
its place, which has no markers. So the conditionals of the program are those that it had, and the
heights along them are those of a program in which each instruction adds what its code adds.
-/

namespace NamedStack

/-! ### One instruction -/

/-- Whether an instruction is an opcode that is no marker and has a steady effect, or data. -/
def Straight : Instr → Prop
  | .op o => o.isMarker = false ∧ Steady (.op o)
  | .push _ => True
  | _ => False

/-- What may stand in place of an instruction, given the names that have slots. Inside of a
conditional the code of a read adds one item. -/
inductive Expands (slots : List Name) (nested : Prop) : Instr → List Instr → Prop
  | same (i : Instr) : Expands slots nested i [i]
  | inner (ops ops' : List Instr) : Expands slots nested (.inner ops) [.inner ops']
  | read {i : Instr} {name : Name} {code : List Instr} (hi : i = .assume name ∨ i = .var name)
      (hcode : ∀ j ∈ code, Straight j) (hdelta : nested → (code.map Instr.delta).sum = 1) :
      Expands slots nested i code
  | dropped (name : Name) : Expands slots nested (.assign name) []
  | stored {name : Name} {code : List Instr} (hname : name ∈ slots)
      (hcode : ∀ j ∈ code, Straight j) : Expands slots nested (.assign name) code

/-- Whether an instruction may be replaced. -/
def Replaceable (i : Instr) : Prop := ¬ Straight i ∧ ∀ o, i ≠ .op o

/-- The number of open conditionals behind an instruction. -/
def depthAfter (d : Nat) : Instr → Nat
  | .op .opIf | .op .opNotIf => d + 1
  | .op .opEndIf => d - 1
  | _ => d

private theorem depthAfter_of_not_marker {i : Instr} (h : ∀ o, i = .op o → o.isMarker = false)
    (d : Nat) : depthAfter d i = d := by
  unfold depthAfter
  split
  · cases h _ rfl
  · cases h _ rfl
  · cases h _ rfl
  · rfl

/-- Straight instructions are no markers. -/
theorem Straight.not_marker {i : Instr} (h : Straight i) : ∀ o, i = .op o → o.isMarker = false := by
  rintro o rfl
  exact h.1

private theorem Straight.steady {i : Instr} (h : Straight i) : Steady i := by
  cases i with
  | op o => exact h.2
  | push data => trivial
  | _ => cases h

/-- Straight instructions are no calls. -/
theorem Straight.isCall_eq_false {i : Instr} (h : Straight i) : i.isCall = false := by
  cases i with
  | call => cases h
  | _ => rfl

/-- Whether the effect of an instruction is settled before it is resolved: it does not depend on
literals, the instruction writes no slot, and a read stands inside of a conditional. -/
structure Settled (slots : List Name) (nested : Prop) (i : Instr) : Prop where
  steady : Steady i
  unrouted : ∀ name, i = .assign name → name ∉ slots
  nested : ∀ name, i = .assume name ∨ i = .var name → nested

namespace Expands

variable {slots : List Name} {nested : Prop} {i j : Instr} {code new : List Instr}

/-- More names may have slots. -/
theorem mono (h : Expands slots nested i code) {slots' : List Name} (hsub : slots ⊆ slots') :
    Expands slots' nested i code := by
  cases h with
  | same => exact .same i
  | inner ops ops' => exact .inner ops ops'
  | read hi hcode hdelta => exact .read hi hcode hdelta
  | dropped name => exact .dropped name
  | stored hname hcode => exact .stored (hsub hname) hcode

/-- What is replaced by one instruction, and that by code, is replaced by the code. -/
theorem trans (h : Expands slots nested i [j]) (hj : Replaceable j)
    (hnew : Expands slots nested j new) : Expands slots nested i new := by
  cases h with
  | same => exact hnew
  | inner ops ops' =>
    cases hnew with
    | same => exact .inner ops ops'
    | inner _ ops'' => exact .inner ops ops''
    | read hi => rcases hi with hi | hi <;> cases hi
  | read _ hcode => exact absurd (hcode j List.mem_cons_self) hj.1
  | stored _ hcode => exact absurd (hcode j List.mem_cons_self) hj.1

/-- An instruction is still there, or is no marker and has one other or straight code in its place.
-/
theorem cases_eq (h : Expands slots nested i code) : code = [i] ∨
    (∀ o, i ≠ .op o) ∧ ((∃ ops, code = [.inner ops]) ∨ ∀ j ∈ code, Straight j) := by
  cases h with
  | same => exact .inl rfl
  | inner ops ops' => exact .inr ⟨nofun, .inl ⟨ops', rfl⟩⟩
  | read hi hcode =>
    refine .inr ⟨?_, .inr hcode⟩
    rcases hi with rfl | rfl <;> exact nofun
  | dropped => exact .inr ⟨nofun, .inr nofun⟩
  | stored _ hcode => exact .inr ⟨nofun, .inr hcode⟩

/-- The code of an instruction with a settled effect adds what the instruction adds. -/
theorem sum_delta (h : Expands slots nested i code) (hi : Settled slots nested i) :
    (code.map Instr.delta).sum = i.delta := by
  cases h with
  | same => simp
  | inner => rfl
  | read hread _ hdelta =>
    rw [hdelta (hi.nested _ hread)]
    rcases hread with rfl | rfl <;> rfl
  | dropped => rfl
  | stored hname => exact absurd hname (hi.unrouted _ rfl)

/-- Steady instructions have steady code. -/
theorem steady (h : Expands slots nested i code) (hi : Steady i) : ∀ j ∈ code, Steady j := by
  intro j hj
  rcases h.cases_eq with rfl | ⟨-, ⟨ops, rfl⟩ | hcode⟩
  · obtain rfl := List.mem_singleton.mp hj
    exact hi
  · obtain rfl := List.mem_singleton.mp hj
    trivial
  · exact (hcode j hj).steady

end Expands

/-! ### A program -/

/-- Whether each instruction of a program is replaced by code, where so many conditionals are open
in front of it. -/
inductive Expansion (slots : List Name) : Nat → List Instr → List Instr → Prop
  | nil (d : Nat) : Expansion slots d [] []
  | cons {d : Nat} {i : Instr} {ops code rest : List Instr} (hhead : Expands slots (0 < d) i code)
      (htail : Expansion slots (depthAfter d i) ops rest) :
      Expansion slots d (i :: ops) (code ++ rest)

namespace Expansion

variable {slots : List Name} {d : Nat} {i : Instr} {ops ops' front back new final : List Instr}

/-- Each instruction in place of itself. -/
theorem refl (slots : List Name) (d : Nat) (ops : List Instr) : Expansion slots d ops ops := by
  induction ops generalizing d with
  | nil => exact .nil d
  | cons i ops ih => exact .cons (.same i) (ih _)

/-- Straight instructions open no conditionals. -/
theorem foldl_depthAfter_of_straight (h : ∀ j ∈ ops, Straight j) (d : Nat) :
    ops.foldl depthAfter d = d := by
  induction ops with
  | nil => rfl
  | cons j ops ih =>
    rw [List.foldl_cons, depthAfter_of_not_marker (h j List.mem_cons_self).not_marker]
    exact ih fun k hk => h k (List.mem_cons_of_mem _ hk)

private theorem foldl_depthAfter {nested : Prop} (h : Expands slots nested i new) (d : Nat) :
    new.foldl depthAfter d = depthAfter d i := by
  rcases h.cases_eq with rfl | ⟨hi, ⟨ops, rfl⟩ | hcode⟩
  · rfl
  · rw [depthAfter_of_not_marker fun o ho => absurd ho (hi o)]
    rfl
  · rw [depthAfter_of_not_marker fun o ho => absurd ho (hi o)]
    exact foldl_depthAfter_of_straight hcode d

private theorem locate {nested : Prop} {j : Instr} {code rest : List Instr}
    (h : front ++ i :: back = code ++ rest) (hcode : Expands slots nested j code)
    (hi : Replaceable i) :
    (front = [] ∧ code = [i] ∧ rest = back) ∨
      ∃ front', front = code ++ front' ∧ rest = front' ++ i :: back := by
  rcases List.append_eq_append_iff.mp h with ⟨mid, hmid, hback⟩ | ⟨front', hfront, hrest⟩
  · cases mid with
    | nil =>
      rw [List.append_nil] at hmid
      exact .inr ⟨[], by rw [hmid, List.append_nil], hback.symm⟩
    | cons k mid =>
      obtain ⟨rfl, rfl⟩ := List.cons.inj hback
      have hmem : i ∈ code := by simp [hmid]
      have hone (x : Instr) (hx : code = [x]) : front = [] ∧ code = [i] ∧ mid ++ rest = rest := by
        rw [hmid] at hx ⊢
        cases front with
        | nil =>
          obtain ⟨-, rfl⟩ := List.cons.inj hx
          exact ⟨rfl, rfl, rfl⟩
        | cons y front => simp at hx
      rcases hcode.cases_eq with hsame | ⟨-, ⟨ops, hinner⟩ | hstraight⟩
      · obtain ⟨hfront, hone, hrest⟩ := hone j hsame
        exact .inl ⟨hfront, hone, hrest.symm⟩
      · obtain ⟨hfront, hone, hrest⟩ := hone _ hinner
        exact .inl ⟨hfront, hone, hrest.symm⟩
      · exact absurd (hstraight i hmem) hi.1
  · exact .inr ⟨front', hfront, hrest⟩

/-- An instruction of the program as it stands is replaced. -/
theorem replace (h : Expansion slots d ops (front ++ i :: back)) (hi : Replaceable i)
    (hnew : Expands slots (0 < front.foldl depthAfter d) i new) :
    Expansion slots d ops (front ++ (new ++ back)) := by
  generalize hfinal : front ++ i :: back = final at h
  induction h generalizing front with
  | nil d => simp at hfinal
  | @cons d j ops code rest hhead htail ih =>
    rcases locate hfinal hhead hi with ⟨rfl, rfl, rfl⟩ | ⟨front', rfl, hrest⟩
    · rw [List.nil_append]
      exact .cons (hhead.trans hi hnew) htail
    · rw [List.foldl_append, foldl_depthAfter hhead] at hnew
      rw [List.append_assoc]
      exact .cons hhead (ih hnew hrest.symm)

/-- Reads of the program as it stands are left out where no conditional is open. -/
theorem elide {reads : List Instr} (h : Expansion slots d ops (front ++ (reads ++ back)))
    (hreads : ∀ i ∈ reads, ∃ name, i = .assume name) (hfront : front.foldl depthAfter d = 0) :
    Expansion slots d ops (front ++ back) := by
  induction reads with
  | nil => exact h
  | cons i reads ih =>
    obtain ⟨name, rfl⟩ := hreads i List.mem_cons_self
    have hdrop : Expands slots (0 < front.foldl depthAfter d) (.assume name) [] :=
      .read (.inl rfl) nofun fun hlt => by omega
    exact ih (h.replace ⟨id, nofun⟩ hdrop) fun j hj => hreads j (List.mem_cons_of_mem _ hj)

/-- What stands for a program in two parts stands for one part after the other. -/
theorem split (h : Expansion slots d (ops ++ ops') final) :
    ∃ front back, final = front ++ back ∧ Expansion slots d ops front ∧
      Expansion slots (ops.foldl depthAfter d) ops' back := by
  induction ops generalizing d final with
  | nil => exact ⟨[], final, rfl, .nil d, h⟩
  | cons i ops ih =>
    cases h with
    | @cons _ _ _ code rest hhead htail =>
      obtain ⟨front, back, rfl, hfront, hback⟩ := ih htail
      exact ⟨code ++ front, back, (List.append_assoc ..).symm, .cons hhead hfront, hback⟩

/-- Straight code stays as it is. -/
theorem eq_of_straight (h : Expansion slots d ops final) (hops : ∀ i ∈ ops, Straight i) :
    final = ops := by
  induction h with
  | nil => rfl
  | @cons d i ops code rest hhead htail ih =>
    have hi := hops i List.mem_cons_self
    have hcode : code = [i] := by
      cases hhead with
      | same => rfl
      | inner => cases hi
      | read hread => rcases hread with rfl | rfl <;> cases hi
      | dropped => cases hi
      | stored => cases hi
    rw [hcode, ih fun j hj => hops j (List.mem_cons_of_mem _ hj)]
    rfl

/-- No calls come into a program without calls. -/
theorem isCall_eq_false (h : Expansion slots d ops final) (hops : ∀ i ∈ ops, i.isCall = false) :
    ∀ i ∈ final, i.isCall = false := by
  induction h with
  | nil => exact nofun
  | @cons d i ops code rest hhead htail ih =>
    intro j hj
    rcases List.mem_append.mp hj with hj | hj
    · rcases hhead.cases_eq with rfl | ⟨-, ⟨ops', rfl⟩ | hcode⟩
      · obtain rfl := List.mem_singleton.mp hj
        exact hops j List.mem_cons_self
      · obtain rfl := List.mem_singleton.mp hj
        rfl
      · exact (hcode j hj).isCall_eq_false
    · exact ih (fun j hj => hops j (List.mem_cons_of_mem _ hj)) j hj

end Expansion

/-! ### Heights -/

/-- The open conditionals are counted along a program. -/
theorem Heights.length_levels {h h' : Heights} {steps : List Step} (hrun : h.run steps = some h') :
    h'.levels.length = (Step.instrs steps).foldl depthAfter h.levels.length := by
  induction steps generalizing h with
  | nil =>
    cases hrun
    rfl
  | cons s steps ih =>
    rw [Heights.run_cons] at hrun
    obtain ⟨h₁, hstep, hrest⟩ := Option.bind_eq_some_iff.mp hrun
    rw [ih hrest, Step.instrs, Step.instrs, List.map_cons, List.foldl_cons]
    apply congrArg (List.foldl depthAfter · _)
    cases moves_of_step hstep with
    | plain hinstr => exact (depthAfter_of_not_marker hinstr _).symm
    | opens hinstr => rcases hinstr with hinstr | hinstr <;> rw [hinstr] <;> rfl
    | splits hinstr hlevels =>
      rw [hinstr, hlevels]
      rfl
    | closes hinstr hlevels =>
      rw [hinstr, hlevels]
      rfl

/-- A reference lies in no arm exactly if no conditional is open in front of it. -/
theorem Context.nestLevel_eq_zero_iff_depth {ctx : Context}
    (hbr : Branch.ofInstrs (Step.instrs ctx.steps) = .ok ctx.branches) (hzero : EndsFree ctx.steps)
    {i : Nat} {st : Step} (hst : ctx.steps[i]? = some st) (hop : ∀ o, st.instr ≠ .op o) :
    ctx.nestLevel i = 0 ↔ (Step.instrs (ctx.steps.take i)).foldl depthAfter 0 = 0 := by
  obtain ⟨hi, -⟩ := List.getElem?_eq_some_iff.mp hst
  obtain ⟨h, hrun⟩ := exists_heights hbr hzero 0 hi.le
  rw [nestLevel_eq_zero_iff hbr hzero hst (hop _) (hop _) hrun, ← List.length_eq_zero_iff,
    Heights.length_levels hrun]
  rfl

/-- Whether steps are weighed by code: each step is still there, or adds what straight code in its
place adds. -/
inductive Weighs : List Step → List Step → Prop
  | nil : Weighs [] []
  | keep {w b : Step} {ws bs : List Step} (hinstr : b.instr = w.instr) (hdelta : b.delta = w.delta)
      (hrest : Weighs ws bs) : Weighs (w :: ws) (b :: bs)
  | plain {w : Step} {code ws bs : List Step} (hw : ∀ o, w.instr = .op o → o.isMarker = false)
      (hcode : ∀ b ∈ code, ∀ o, b.instr = .op o → o.isMarker = false)
      (hdelta : w.delta = (code.map (·.delta)).sum) (hrest : Weighs ws bs) :
      Weighs (w :: ws) (code ++ bs)

/-- The number of markers in front of a position. -/
def markersBefore (steps : List Step) (i : Nat) : Nat :=
  (Step.instrs (steps.take i)).countP fun i => i.opcode?.any Opcode.isMarker

namespace Weighs

variable {ws bs : List Step}

private theorem step_plain {s : Step} (hs : ∀ o, s.instr = .op o → o.isMarker = false)
    (h : Heights) : h.step s = some { h with now := h.now + s.delta } := by
  unfold Heights.step
  split
  · next hi => cases hs _ hi
  · next hi => cases hs _ hi
  · next hi => cases hs _ hi
  · next hi => cases hs _ hi
  · rfl

private theorem run_plain {code : List Step}
    (hcode : ∀ b ∈ code, ∀ o, b.instr = .op o → o.isMarker = false) (h : Heights) :
    h.run code = some { h with now := h.now + (code.map (·.delta)).sum } := by
  induction code generalizing h with
  | nil => simp [Heights.run]
  | cons b code ih =>
    rw [Heights.run_cons, step_plain (hcode b List.mem_cons_self), Option.bind_some,
      ih fun b hb => hcode b (List.mem_cons_of_mem _ hb), List.map_cons, List.sum_cons,
      Int.add_assoc]

private theorem run (hw : Weighs ws bs) (h : Heights) : h.run ws = h.run bs := by
  induction hw generalizing h with
  | nil => rfl
  | @keep w b ws bs hinstr hdelta _ ih =>
    have hstep : h.step w = h.step b := by
      unfold Heights.step
      rw [hinstr, hdelta]
    rw [Heights.run_cons, Heights.run_cons, hstep]
    exact congrArg _ (funext ih)
  | plain hw hcode hdelta _ ih =>
    rw [Heights.run_cons, Heights.run_append, step_plain hw, run_plain hcode, hdelta]
    exact ih _

private theorem not_any_isMarker {i : Instr} (hi : ∀ o, i = .op o → o.isMarker = false) :
    ¬ i.opcode?.any Opcode.isMarker = true := by
  cases i with
  | op o => simp [Instr.opcode?, hi o rfl]
  | _ => simp [Instr.opcode?]

private theorem countP (hw : Weighs ws bs) :
    (Step.instrs bs).countP (fun i => i.opcode?.any Opcode.isMarker) =
      (Step.instrs ws).countP fun i => i.opcode?.any Opcode.isMarker := by
  unfold Step.instrs
  induction hw with
  | nil => rfl
  | keep hinstr _ _ ih =>
    rw [List.map_cons, List.map_cons, List.countP_cons, List.countP_cons, ih, hinstr]
  | @plain w code ws bs hw hcode _ _ ih =>
    have hnone : (code.map (·.instr)).countP (fun i => i.opcode?.any Opcode.isMarker) = 0 := by
      apply List.countP_eq_zero.mpr
      intro i hi
      obtain ⟨b, hb, rfl⟩ := List.mem_map.mp hi
      exact not_any_isMarker (hcode b hb)
    rw [List.map_append, List.countP_append, hnone, ih, Nat.zero_add, List.map_cons,
      List.countP_cons, if_neg (not_any_isMarker hw)]
    rfl

/-- A marker is still there. -/
theorem exists_marker (hw : Weighs ws bs) {front back : List Step} {st : Step} {o : Opcode}
    (hws : ws = front ++ st :: back) (hst : st.instr = .op o) (ho : o.isMarker = true) :
    ∃ front' st' back', bs = front' ++ st' :: back' ∧ st'.instr = st.instr ∧
      Weighs front front' := by
  induction hw generalizing front with
  | nil => simp at hws
  | @keep w b ws bs hinstr hdelta hrest ih =>
    cases front with
    | nil =>
      obtain ⟨rfl, rfl⟩ := List.cons.inj hws
      exact ⟨[], b, bs, rfl, hinstr, .nil⟩
    | cons x front =>
      obtain ⟨rfl, hrest⟩ := List.cons.inj hws
      obtain ⟨front', st', back', rfl, hst', hfront⟩ := ih hrest
      exact ⟨b :: front', st', back', rfl, hst', .keep hinstr hdelta hfront⟩
  | @plain w code ws bs hw hcode hdelta hrest ih =>
    cases front with
    | nil =>
      obtain ⟨rfl, rfl⟩ := List.cons.inj hws
      cases (hw o hst).symm.trans ho
    | cons x front =>
      obtain ⟨rfl, hrest⟩ := List.cons.inj hws
      obtain ⟨front', st', back', rfl, hst', hfront⟩ := ih hrest
      exact ⟨code ++ front', st', back', (List.append_assoc ..).symm, hst',
        .plain hw hcode hdelta hfront⟩

private theorem endsFree (hw : Weighs ws bs) (hbs : EndsFree bs) : EndsFree ws := by
  induction hw with
  | nil => exact nofun
  | @keep w b ws bs hinstr hdelta _ ih =>
    intro s hs hmarker
    rcases List.mem_cons.mp hs with rfl | hs
    · rw [← hdelta]
      exact hbs b List.mem_cons_self (hinstr ▸ hmarker)
    · exact ih (fun b hb => hbs b (List.mem_cons_of_mem _ hb)) s hs hmarker
  | @plain w code ws bs hw _ _ _ ih =>
    intro s hs hmarker
    rcases List.mem_cons.mp hs with rfl | hs
    · rcases hmarker with hmarker | hmarker <;> cases hw _ hmarker
    · exact ih (fun b hb => hbs b (List.mem_append_right _ hb)) s hs hmarker

end Weighs

private theorem sum_delta_of_steady {code : List Step}
    (hcode : ∀ b ∈ code, b.Genuine ∧ Steady b.instr) :
    (code.map (·.delta)).sum = ((Step.instrs code).map Instr.delta).sum := by
  rw [Step.instrs, List.map_map]
  apply congrArg
  apply List.map_congr_left
  intro b hb
  exact (hcode b hb).1.delta (hcode b hb).2

/-- A program is weighed by what stands for it, and instructions with a settled effect keep their
weight. -/
theorem Expansion.exists_weights {slots : List Name} {d : Nat} {ops final : List Instr}
    (h : Expansion slots d ops final) {as bs : List Step} (has : Step.instrs as = ops)
    (hbs : Step.instrs bs = final) (hga : ∀ a ∈ as, a.Genuine) (hgb : ∀ b ∈ bs, b.Genuine) :
    ∃ ws, Step.instrs ws = ops ∧ Weighs ws bs ∧ ∀ k a w, as[k]? = some a → ws[k]? = some w →
      Settled slots (0 < (ops.take k).foldl depthAfter d) a.instr → w.delta = a.delta := by
  induction h generalizing as bs with
  | nil =>
    obtain rfl := List.map_eq_nil_iff.mp hbs
    exact ⟨[], rfl, .nil, nofun⟩
  | @cons d i ops code rest hhead htail ih =>
    obtain ⟨a, as, rfl, rfl, hops⟩ := List.map_eq_cons_iff.mp has
    obtain ⟨codeSteps, bs, rfl, rfl, hrest⟩ := List.map_eq_append_iff.mp hbs
    obtain ⟨ws, hws, hweighs, hsettled⟩ := ih hops hrest
      (fun a ha => hga a (List.mem_cons_of_mem _ ha)) fun b hb => hgb b (List.mem_append_right _ hb)
    -- the weight of the first step, if it is the sum of its code
    have hweight {w : Step} (hw : w.delta = (codeSteps.map (·.delta)).sum) : ∀ k a' w',
        (a :: as)[k]? = some a' → (w :: ws)[k]? = some w' →
          Settled slots (0 < ((a.instr :: ops).take k).foldl depthAfter d) a'.instr →
            w'.delta = a'.delta := by
      intro k a' w' ha' hw' hk
      cases k with
      | zero =>
        cases ha'
        cases hw'
        have hsteady := hhead.steady hk.steady
        rw [hw, sum_delta_of_steady fun b hb => ⟨hgb b (List.mem_append_left _ hb),
          hsteady _ (List.mem_map_of_mem hb)⟩, (hga a List.mem_cons_self).delta hk.steady]
        exact hhead.sum_delta hk
      | succ k => exact hsettled k a' w' ha' hw' hk
    rcases hhead.cases_eq with hsame | ⟨hi, hcode⟩
    · obtain ⟨b, rfl, hb⟩ := List.map_eq_singleton_iff.mp hsame
      refine ⟨b :: ws, ?_, .keep rfl rfl hweighs, hweight (by simp)⟩
      rw [Step.instrs, List.map_cons, hb]
      exact congrArg _ hws
    · refine ⟨{ a with delta := (codeSteps.map (·.delta)).sum } :: ws, ?_,
        .plain (fun o ho => absurd ho (hi o)) ?_ rfl hweighs, hweight rfl⟩
      · exact congrArg _ hws
      · intro b hb o ho
        have hmem : b.instr ∈ codeSteps.map (·.instr) := List.mem_map_of_mem hb
        rcases hcode with ⟨ops', hinner⟩ | hstraight
        · rw [hinner, List.mem_singleton] at hmem
          cases ho.symm.trans hmem
        · exact (hstraight _ hmem).not_marker o ho

/-! ### Conditionals -/

/-- A program that is weighed by what stands for it, with a step in front for the code that is put
there, has the same conditionals, whose arms add the same. -/
theorem Context.exists_same_arms {ctx ctx' : Context}
    (hbr : Branch.ofInstrs (Step.instrs ctx.steps) = .ok ctx.branches)
    (hbr' : Branch.ofInstrs (Step.instrs ctx'.steps) = .ok ctx'.branches)
    (hzero : EndsFree ctx'.steps) {s : Step} (hs : ∀ o, s.instr = .op o → o.isMarker = false)
    (hw : Weighs (s :: ctx.steps) ctx'.steps) {c : Conditional} (hc : c ∈ ctx.conditionals) :
    ∃ c' ∈ ctx'.conditionals,
      markersBefore ctx'.steps c'.endIf = markersBefore ctx.steps c.endIf ∧
      ctx'.armDelta c'.first = ctx.armDelta c.first ∧
      (c'.second.map ctx'.armDelta).getD 0 = (c.second.map ctx.armDelta).getD 0 := by
  have hfree : EndsFree ctx.steps := fun st hst =>
    hw.endsFree hzero st (List.mem_cons_of_mem _ hst)
  obtain ⟨st, h, l, ls, hst, hinstr, hrun, hl, hfirst, hsecond⟩ := exists_arms hbr hfree s.delta hc
  obtain ⟨hlt, rfl⟩ := List.getElem?_eq_some_iff.mp hst
  have hsplit : s :: ctx.steps = (s :: ctx.steps.take c.endIf) ++
      ctx.steps[c.endIf] :: ctx.steps.drop (c.endIf + 1) := by
    rw [List.cons_append, ← List.drop_eq_getElem_cons hlt, List.take_append_drop]
  obtain ⟨front, st', back, hsteps, hinstr', hfront⟩ := hw.exists_marker hsplit hinstr rfl
  have hmarker : ctx'.steps[front.length]? = some st' := by simp [hsteps]
  obtain ⟨c', hc', hend⟩ := exists_conditional hbr' hmarker (hinstr'.trans hinstr)
  have htake : ctx'.steps.take c'.endIf = front := by rw [hend, hsteps, List.take_left]
  obtain ⟨-, h', l', ls', -, -, hrun', hl', hfirst', hsecond'⟩ := exists_arms hbr' hzero 0 hc'
  -- the heights in front of the two ends are the same
  obtain rfl : h = h' := by
    rw [htake, ← hfront.run, Heights.run_cons, Weighs.step_plain hs, Option.bind_some] at hrun'
    simp only [Int.zero_add] at hrun'
    exact Option.some.inj (hrun.symm.trans hrun')
  obtain ⟨rfl, rfl⟩ := List.cons.inj (hl.symm.trans hl')
  refine ⟨c', hc', ?_, hfirst'.trans hfirst.symm, hsecond'.trans hsecond.symm⟩
  rw [markersBefore, markersBefore, htake, hfront.countP, Step.instrs, List.map_cons,
    List.countP_cons, if_neg (Weighs.not_any_isMarker hs)]
  rfl

end NamedStack
