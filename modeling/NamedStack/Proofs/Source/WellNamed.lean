import NamedStack.Proofs.Engine.Refinement
import NamedStack.Proofs.Source.Forms

/-!
# Names of programs that were read

Every name in a program that was read is a valid one: a reader takes a token for a name only if it
is, in whatever construct it stands.
-/

namespace NamedStack

open Engine (bind_eq_ok_iff)

/-! ### Programs that can be written -/

/-- Whether all names in an instruction are valid. -/
inductive Instr.WellNamed : Instr → Prop
  | op (o : Opcode) : WellNamed (.op o)
  | push (data : Bytes) : WellNamed (.push data)
  | assume {n : Name} (h : Name.isValid n = true) : WellNamed (.assume n)
  | assign {n : Name} (h : Name.isValid n = true) : WellNamed (.assign n)
  | var {n : Name} (h : Name.isValid n = true) : WellNamed (.var n)
  | call {n : Name} {args : List (List Instr)} (h : Name.isValid n = true)
      (hargs : ∀ ops ∈ args, ∀ i ∈ ops, WellNamed i) : WellNamed (.call n args)
  | inner {ops : List Instr} (h : ∀ i ∈ ops, WellNamed i) : WellNamed (.inner ops)

/-- Whether all names in a function definition are valid. -/
structure Function.WellNamed (f : Function) : Prop where
  names : ∀ n ∈ f.name :: f.params, Name.isValid n = true
  body : ∀ i ∈ f.body, i.WellNamed

/-- Whether all names in a program are valid. -/
structure Program.WellNamed (p : Program) : Prop where
  stack : ∀ n ∈ p.stack, Name.isValid n = true
  functions : ∀ f ∈ p.functions, f.WellNamed
  ops : ∀ i ∈ p.ops, i.WellNamed

namespace Source

namespace Reader

/-- Whether all names in an open construct are valid. -/
def openWellNamed : Open → Prop
  | .inner => True
  | .argument n args => Name.isValid n = true ∧ ∀ ops ∈ args, ∀ i ∈ ops, i.WellNamed
  | .body n params => ∀ m ∈ n :: params, Name.isValid m = true

/-- Whether all names in what waits for a brace are valid. -/
def waitingWellNamed : Waiting → Prop
  | .nothing => True
  | .call n args => Name.isValid n = true ∧ ∀ ops ∈ args, ∀ i ∈ ops, i.WellNamed
  | .function n params => ∀ m ∈ n :: params, Name.isValid m = true

/-- Whether all names that have been read are valid. -/
structure WellNamed (r : Reader) : Prop where
  stack : ∀ n ∈ r.stack, Name.isValid n = true
  functions : ∀ f ∈ r.functions, f.WellNamed
  opened : ∀ o ∈ r.opened, openWellNamed o.1 ∧ ∀ i ∈ o.2, i.WellNamed
  ops : ∀ i ∈ r.ops, i.WellNamed
  waiting : waitingWellNamed r.waiting

end Reader

/-- A token is read as an instruction only if its names are valid. -/
theorem wellNamed_of_atom {tok : Bytes} {i : Instr} (h : atom tok = .ok i) : i.WellNamed := by
  unfold atom at h
  split at h
  · next n hform =>
    split at h
    · cases h
    · next hn =>
      have hn : Name.isValid n = true := by simpa using hn
      split at h
      · cases h
        exact .assume hn
      · split at h
        · cases h
          exact .assign hn
        · split at h
          · cases h
            exact .var hn
          · cases h
  · cases h
  · split at h
    · split at h
      · cases h
        exact .push _
      · cases h
    · split at h
      · cases h
        exact .push _
      · split at h
        · next n hn =>
          unfold Instr.ofInt at h
          split at h
          · cases h
            exact .op _
          · unfold ScriptNum.encode at h
            split at h
            · cases h
            · cases h
              exact .push _
        · split at h
          · cases h
            exact .op _
          · cases h

namespace Reader

variable {r r' : Reader}

private theorem WellNamed.enter (h : r.WellNamed) {o : Open} (ho : openWellNamed o) :
    (r.enter o).WellNamed :=
  ⟨h.stack, h.functions, List.forall_mem_cons.mpr ⟨⟨ho, h.ops⟩, h.opened⟩, nofun, trivial⟩

private theorem WellNamed.leave (h : r.WellNamed) {o : Open} {before : List Instr}
    {opened : List (Open × List Instr)} (hopened : r.opened = (o, before) :: opened) :
    (r.leave o before opened).WellNamed := by
  have hall := h.opened
  rw [hopened] at hall
  obtain ⟨⟨ho, hbefore⟩, hrest⟩ := List.forall_mem_cons.mp hall
  have hcontent : ∀ i ∈ r.ops.reverse, i.WellNamed := fun i hi => h.ops i (List.mem_reverse.mp hi)
  cases o with
  | inner =>
    exact ⟨h.stack, h.functions, hrest, List.forall_mem_cons.mpr ⟨.inner hcontent, hbefore⟩,
      h.waiting⟩
  | argument n args =>
    refine ⟨h.stack, h.functions, hrest, hbefore, ho.1, fun ops hops => ?_⟩
    rcases List.mem_append.mp hops with hops | hops
    · exact ho.2 ops hops
    · rw [List.mem_singleton.mp hops]
      exact hcontent
  | body n params =>
    refine ⟨h.stack, fun f hf => ?_, hrest, hbefore, h.waiting⟩
    rcases List.mem_append.mp hf with hf | hf
    · exact h.functions f hf
    · rw [List.mem_singleton.mp hf]
      exact ⟨ho, hcontent⟩

private theorem WellNamed.declare (h : r.WellNamed) {f : Form} (hr : r.declare f = .ok r') :
    r'.WellNamed := by
  unfold Reader.declare at hr
  split at hr
  · cases hr
  · next hargs =>
    have hargs : ∀ n ∈ f.args, Name.isValid n = true := by simpa using hargs
    split at hr
    · cases hr
      refine ⟨fun n hn => ?_, h.functions, h.opened, h.ops, h.waiting⟩
      exact (List.mem_append.mp hn).elim (h.stack n) (hargs n)
    · split at hr
      · cases hr
      · next hf =>
        cases hr
        rw [hf] at hargs
        exact ⟨h.stack, h.functions, h.opened, h.ops, hargs⟩

private theorem WellNamed.call (h : r.WellNamed) {f : Form} (hr : r.call f = .ok r') :
    r'.WellNamed := by
  unfold Reader.call at hr
  split at hr
  · split at hr
    · next hn =>
      cases hr
      exact ⟨h.stack, h.functions, h.opened, h.ops, hn, nofun⟩
    · cases hr
  · cases hr

variable {tok : Bytes}

variable (h : r.WellNamed)

include h

private theorem WellNamed.single (hr : plain.single r tok = .ok r') : r'.WellNamed := by
  unfold plain.single at hr
  cases ha : atom tok with
  | error e =>
    rw [ha] at hr
    cases hr
  | ok i =>
    rw [ha] at hr
    cases hr
    exact ⟨h.stack, h.functions, h.opened,
      List.forall_mem_cons.mpr ⟨wellNamed_of_atom ha, h.ops⟩, h.waiting⟩

private theorem WellNamed.other (hr : plain.other r tok = .ok r') : r'.WellNamed := by
  unfold plain.other at hr
  split at hr
  · cases hr
  split at hr
  · cases hr
  split at hr
  · cases hr
    exact h.enter trivial
  split at hr
  · split at hr
    · exact h.call hr
    split at hr
    · split at hr
      · exact h.declare hr
      · cases hr
    · exact h.single hr
  · exact h.single hr

private theorem WellNamed.plain (hr : r.plain tok = .ok r') : r'.WellNamed := by
  unfold Reader.plain at hr
  split at hr
  · next hopened =>
    split at hr
    · cases hr
      exact h.leave hopened
    · exact h.other hr
  · exact h.other hr

private theorem WellNamed.settle (hr : r.settle = .ok r') : r'.WellNamed := by
  have hwaiting := h.waiting
  unfold Reader.settle at hr
  split at hr
  · cases hr
    exact h
  · next hw =>
    cases hr
    rw [hw] at hwaiting
    exact ⟨h.stack, h.functions, h.opened,
      List.forall_mem_cons.mpr ⟨.call hwaiting.1 hwaiting.2, h.ops⟩, trivial⟩
  · cases hr

/-- Reading a token adds valid names only. -/
theorem WellNamed.read (hr : r.read tok = .ok r') : r'.WellNamed := by
  have hwaiting := h.waiting
  unfold Reader.read at hr
  split at hr
  · split at hr
    · exact h.plain hr
    · next hw =>
      cases hr
      rw [hw] at hwaiting
      exact h.enter hwaiting
    · next hw =>
      cases hr
      rw [hw] at hwaiting
      exact h.enter hwaiting
  · obtain ⟨s, hs, hr⟩ := bind_eq_ok_iff.mp hr
    exact (h.settle hs).plain hr

/-- So does reading tokens one after another. -/
theorem WellNamed.foldlM {toks : List Bytes} (hr : toks.foldlM Reader.read r = .ok r') :
    r'.WellNamed := by
  induction toks generalizing r with
  | nil =>
    cases hr
    exact h
  | cons tok toks ih =>
    obtain ⟨s, hs, hr⟩ := bind_eq_ok_iff.mp hr
    exact ih (h.read hs) hr

end Reader

end Source

/-- Every name in a program that was read is valid. -/
theorem Program.wellNamed_of_parse {src : Bytes} {p : Program} (h : parse src = .ok p) :
    p.WellNamed := by
  unfold parse at h
  split at h
  · next toks htoks =>
    obtain ⟨r, hr, hfinish⟩ := bind_eq_ok_iff.mp h
    have hstart : ({} : Source.Reader).WellNamed := ⟨nofun, nofun, nofun, nofun, trivial⟩
    have hr := hstart.foldlM hr
    obtain ⟨s, hs, hfinish⟩ := bind_eq_ok_iff.mp hfinish
    have hs := hr.settle hs
    split at hfinish
    · cases hfinish
    · cases hfinish
      exact ⟨hs.stack, hs.functions, fun i hi => hs.ops i (List.mem_reverse.mp hi)⟩
  · cases h

end NamedStack
