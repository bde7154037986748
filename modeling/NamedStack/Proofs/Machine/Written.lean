import NamedStack.Proofs.Context.Definite
import NamedStack.Proofs.Engine.Refinement

/-!
# Names that the machine has written

The machine gives an item a name where it is written, and forgets the name behind a conditional
unless it is on the same item at the end of both arms. Only where the arms end at different heights
does it keep the first one, and it always keeps the alt stack of the last one. So a name that it
still has was written on every path, unless it was kept in this way from one arm alone.
-/

namespace NamedStack.Machine

open Engine (bind_eq_ok_iff)

variable {P : Item → Prop} {m m' : Machine} {s : Step}

/-! ### Items -/

/-- Whether a property holds for all items that an opcode puts in: items of which nothing is known
or only a number above `-2 ^ 31`, and copies of items with the property. -/
structure Closed (P : Item → Prop) : Prop where
  anonymous : P .anonymous
  number : ∀ n : Int, -2 ^ 31 < n → P (.number n)
  duplicate : ∀ i : Item, P i → P i.duplicate

/-- Whether a property holds for all items on both stacks. -/
structure Each (P : Item → Prop) (m : Machine) : Prop where
  main : ∀ i ∈ m.main, P i
  alt : ∀ i ∈ m.alt, P i

namespace Each

variable (h : m.Each P)

include h

/-- What is found on the stack has the property. -/
theorem peek (hP : Closed P) (n : Nat) : P (m.peek n) := by
  rw [Machine.peek]
  cases hn : m.main[n]? with
  | none => exact hP.anonymous
  | some i => exact h.main i (List.mem_of_getElem? hn)

private theorem push {items : List Item} (hitems : ∀ i ∈ items, P i) : (m.push items).Each P := by
  refine ⟨fun i hi => ?_, h.alt⟩
  rcases List.mem_append.mp hi with hi | hi
  · exact hitems i (List.mem_reverse.mp hi)
  · exact h.main i hi

/-- Dropping keeps the property. -/
theorem drop (n : Nat) : (m.drop n).Each P :=
  ⟨fun i hi => h.main i (List.mem_of_mem_drop hi), h.alt⟩

private theorem take (n : Nat) : (m.take n).2.Each P :=
  ⟨fun i hi => h.main i (List.mem_of_mem_eraseIdx hi), h.alt⟩

/-- Pushing an item with the property keeps it. -/
theorem pushOne {i : Item} (hi : P i) : (m.push [i]).Each P :=
  h.push (List.forall_mem_singleton.mpr hi)

private theorem pushCopies (hP : Closed P) (ns : List Nat) : (m.pushCopies ns).Each P := by
  refine h.push fun i hi => ?_
  obtain ⟨n, -, rfl⟩ := List.mem_map.mp hi
  exact hP.duplicate _ (h.peek hP n)

private theorem raise (hP : Closed P) (n : Nat) : (m.raise n).Each P :=
  (h.take n).pushOne (h.peek hP n)

private theorem raisePair (hP : Closed P) (n : Nat) : (m.raisePair n).Each P := by
  refine ((h.take n).take (n - 1)).push ?_
  simp only [List.forall_mem_cons]
  exact ⟨h.peek hP n, (h.take n).peek hP (n - 1), List.forall_mem_nil _⟩

private theorem generic (hP : Closed P) (s : Step) : (m.generic s).Each P := by
  refine (h.drop s.args.length).push fun i hi => ?_
  rw [List.eq_of_mem_replicate hi]
  exact hP.anonymous

/-- Opcodes that are no markers put in no other items, and leave the open conditionals. -/
theorem runOp (hP : Closed P) {o : Opcode} (ho : o.isMarker = false) (hrun : m.runOp s o = .ok m') :
    m'.Each P ∧ m'.frames = m.frames := by
  have hpop : m.pop.2.Each P := ⟨fun i hi => h.main i (List.mem_of_mem_tail hi), h.alt⟩
  by_cases hover : o = .over
  · subst hover
    cases hrun
    exact ⟨h.pushCopies hP _, rfl⟩
  cases o with
  | opIf | opNotIf | opElse | opEndIf => cases ho
  | small n =>
    cases hrun
    have hn := n.property.1
    exact ⟨h.pushOne (hP.number _ (by omega)), rfl⟩
  | depth =>
    cases hrun
    exact ⟨h.pushOne (hP.number _ (by omega)), rfl⟩
  | size =>
    cases hrun
    exact ⟨h.pushOne hP.anonymous, rfl⟩
  | dup | dup2 | dup3 | over2 =>
    cases hrun
    exact ⟨h.pushCopies hP _, rfl⟩
  | drop | drop2 =>
    cases hrun
    exact ⟨h.drop _, rfl⟩
  | nip =>
    cases hrun
    exact ⟨h.take 1, rfl⟩
  | rot | swap =>
    cases hrun
    exact ⟨h.raise hP _, rfl⟩
  | rot2 | swap2 =>
    cases hrun
    exact ⟨h.raisePair hP _, rfl⟩
  | tuck =>
    cases hrun
    refine ⟨⟨fun i hi => ?_, h.alt⟩, rfl⟩
    rcases List.mem_append.mp hi with hi | hi
    · exact h.main i (List.mem_of_mem_take hi)
    · rcases List.mem_cons.mp hi with rfl | hi
      · exact hP.duplicate _ (h.peek hP 0)
      · exact h.main i (List.mem_of_mem_drop hi)
  | toAltStack =>
    cases hrun
    exact ⟨⟨hpop.main, List.forall_mem_cons.mpr ⟨h.peek hP 0, h.alt⟩⟩, rfl⟩
  | fromAltStack =>
    simp only [Machine.runOp] at hrun
    split at hrun
    · cases hrun
      exact ⟨h.pushOne hP.anonymous, rfl⟩
    · next i rest halt =>
      cases hrun
      obtain ⟨hi, hrest⟩ := List.forall_mem_cons.mp (halt ▸ h.alt)
      have hrest : Each P { m with alt := rest } := ⟨h.main, hrest⟩
      exact ⟨hrest.pushOne hi, rfl⟩
  | ifDup =>
    rw [Machine.runOp] at hrun
    cases hrun
    have hdoubles (b : Bool) : Each P (if b then m.push [(m.peek 0).duplicate] else m) := by
      cases b with
      | true => exact h.pushOne (hP.duplicate _ (h.peek hP 0))
      | false => exact h
    exact ⟨hdoubles _, (apply_ite Machine.frames _ _ _).trans (ite_self _)⟩
  | pick =>
    simp only [Machine.runOp] at hrun
    split at hrun
    · cases hrun
      exact ⟨hpop.pushOne hP.anonymous, rfl⟩
    · split at hrun
      · cases hrun
      · cases hrun
        exact ⟨hpop.pushCopies hP _, rfl⟩
  | roll =>
    simp only [Machine.runOp] at hrun
    split at hrun
    · cases hrun
      exact ⟨hpop, rfl⟩
    · split at hrun
      · cases hrun
      · cases hrun
        exact ⟨hpop.raise hP _, rfl⟩
  | _ =>
    first
      | exact absurd rfl hover
      | cases hrun
        exact ⟨h.generic hP s, rfl⟩

end Each

variable {i : Item}

/-- What is on both of two stacks of one height at the same place is kept when they are joined. -/
theorem mem_merge {first second : List Item} (hlen : first.length = second.length)
    (hi : i ∈ merge first second) : i = .anonymous ∨ i ∈ first ∧ i ∈ second := by
  rw [merge, if_pos hlen] at hi
  induction first generalizing second with
  | nil => cases hi
  | cons a first ih =>
    cases second with
    | nil => cases hlen
    | cons b second =>
      rw [List.zipWith_cons_cons] at hi
      rcases List.mem_cons.mp hi with rfl | hi
      · split
        · next hab => exact .inr ⟨List.mem_cons_self, hab ▸ List.mem_cons_self⟩
        · exact .inl rfl
      · refine (ih (Nat.succ.inj hlen) hi).imp_right fun hmem => ?_
        exact ⟨List.mem_cons_of_mem _ hmem.1, List.mem_cons_of_mem _ hmem.2⟩

/-! ### Names -/

variable {x : Name} {d : Definite}

/-- Whether an item holds the value of a name and is no copy. -/
def bears (x : Name) (i : Item) : Bool := i.name = x && !i.copy

/-- Whether an item bears a name only if the name is known to be written. -/
def BearsIf (x : Name) (known : Bool) (i : Item) : Prop := bears x i = true → known = true

/-- Whether stacks of an open conditional have items with a name only if the name is known to be
written there. -/
structure FrameBacked (x : Name) (f : Frame) (l : Level Bool) : Prop where
  entry : ∀ i ∈ f.entry, BearsIf x l.entry i
  alt : ∀ i ∈ f.alt, BearsIf x l.entry i
  arm : Option.Rel (fun items known => ∀ i ∈ items, BearsIf x known i) f.arm l.arm

/-- Whether the machine has items with a name only if the name is known to be written. -/
structure Backed (x : Name) (m : Machine) (d : Definite) : Prop where
  each : m.Each (BearsIf x d.now)
  frames : List.Forall₂ (FrameBacked x) m.frames d.levels

/-- Whether an item with a name, if it is left when the innermost conditional ends, does not come
from one arm alone: it was there where the conditional starts, or it is neither on the alt stack nor
on the stack of a first arm that ends at another height than the second one. -/
def joins (m : Machine) (x : Name) : Bool :=
  m.frames.head?.all fun f =>
    (f.entry ++ f.alt).any (bears x) ||
      ((f.arm.getD f.entry).length = m.height || !(f.arm.getD m.main).any (bears x)) &&
        !m.alt.any (bears x)

private theorem closed_bearsIf (hx : x ≠ []) (known : Bool) : Closed (BearsIf x known) where
  anonymous h := absurd (of_decide_eq_true (Bool.and_eq_true_iff.mp h).1).symm hx
  number _ _ h := absurd (of_decide_eq_true (Bool.and_eq_true_iff.mp h).1).symm hx
  duplicate i _ h := by
    simp only [bears, Bool.and_eq_true, decide_eq_true_eq, Bool.not_eq_true'] at h
    obtain ⟨hname, hcopy⟩ := h
    rw [Item.duplicate] at hname hcopy
    split at hname
    · next hempty => exact absurd ((List.isEmpty_iff.mp hempty).symm.trans hname).symm hx
    · next hempty =>
      rw [if_neg hempty] at hcopy
      cases hcopy

private theorem bearsIf_of_ne (hname : i.name ≠ x) (known : Bool) : BearsIf x known i :=
  fun h => absurd (of_decide_eq_true (Bool.and_eq_true_iff.mp h).1) hname

private theorem bearsIf_of_copy (hcopy : i.copy = true) (known : Bool) : BearsIf x known i := by
  intro h
  rw [bears, hcopy, Bool.not_true, Bool.and_false] at h
  cases h

private theorem not_bears_of_any {items : List Item} (h : (!items.any (bears x)) = true)
    (hi : i ∈ items) (hbears : bears x i = true) : False := by
  rw [List.any_eq_true.mpr ⟨i, hi, hbears⟩] at h
  cases h

namespace Backed

private theorem start {names : List Name} (hx : x ∉ names) : (Machine.start names).Backed x {} := by
  refine ⟨⟨fun i hi => ?_, List.forall_mem_nil _⟩, .nil⟩
  obtain ⟨n, hn, rfl⟩ := List.mem_map.mp (List.mem_reverse.mp hi)
  refine bearsIf_of_ne ?_ _
  rintro rfl
  exact hx hn

private theorem opens (h : m.Backed x d) :
    Backed x { m.drop 1 with frames := { entry := (m.drop 1).main, alt := m.alt } :: m.frames }
      { d with levels := { entry := d.now } :: d.levels } := by
  have hdropped := h.each.drop 1
  exact ⟨⟨hdropped.main, hdropped.alt⟩, .cons ⟨hdropped.main, hdropped.alt, .none⟩ h.frames⟩

variable {f : Frame} {ls : List (Level Bool)} {now : Bool} {l : Level Bool}

variable {fs : List Frame}

private theorem splits (hm : m.frames = f :: fs) {entry : Bool}
    (h : m.Backed x { now, levels := { entry } :: ls }) :
    Backed x { m with main := f.entry, alt := f.alt, frames := { f with arm := some m.main } :: fs }
      { now := entry, levels := { entry, arm := some now } :: ls } := by
  have hframes := h.frames
  rw [hm] at hframes
  obtain ⟨hf, hfs⟩ := List.forall₂_cons.mp hframes
  exact ⟨⟨hf.entry, hf.alt⟩, .cons ⟨hf.entry, hf.alt, .some h.each.main⟩ hfs⟩

private theorem known_of_entry (hf : FrameBacked x f l) (hrises : Definite.Rises now (l :: ls))
    (h : (f.entry ++ f.alt).any (bears x) = true) : (now && l.arm.getD l.entry) = true := by
  obtain _ | ⟨hnow, hends, -⟩ := hrises
  obtain ⟨i, hi, hbears⟩ := List.any_eq_true.mp h
  have hentry : l.entry = true := by
    rcases List.mem_append.mp hi with hi | hi
    · exact hf.entry i hi hbears
    · exact hf.alt i hi hbears
  exact Bool.and_eq_true_iff.mpr ⟨hnow hentry, hends hentry⟩

private theorem known_of_merge (hx : x ≠ []) (hf : FrameBacked x f l)
    (hmain : ∀ i ∈ m.main, BearsIf x now i) (hheights : (f.arm.getD f.entry).length = m.height ∨
      (!(f.arm.getD m.main).any (bears x)) = true)
    (hi : i ∈ match f.arm with | some arm => merge arm m.main | none => merge m.main f.entry) :
    BearsIf x (now && l.arm.getD l.entry) i := by
  obtain ⟨entry, arm⟩ := l
  obtain ⟨fentry, falt, farm⟩ := f
  obtain ⟨hentry, -, harm⟩ := hf
  dsimp only at hi hentry harm hheights ⊢
  intro hbears
  have hboth {first second : List Item} {a b : Bool} (hi : i ∈ merge first second)
      (hlen : first.length = second.length ∨ (!first.any (bears x)) = true)
      (ha : ∀ i ∈ first, BearsIf x a i) (hb : ∀ i ∈ second, BearsIf x b i) :
      a = true ∧ b = true := by
    by_cases hsame : first.length = second.length
    · rcases mem_merge hsame hi with rfl | ⟨hfirst, hsecond⟩
      · exact absurd hbears (by simpa [bears, Item.anonymous] using hx.symm)
      · exact ⟨ha i hfirst hbears, hb i hsecond hbears⟩
    · rw [merge, if_neg hsame] at hi
      exact (not_bears_of_any (hlen.resolve_left hsame) hi hbears).elim
  rw [Bool.and_eq_true]
  cases harm with
  | none => exact hboth hi (hheights.imp_left Eq.symm) hmain hentry
  | some harm => exact (hboth hi hheights harm hmain).symm

private theorem closes (hx : x ≠ []) (hm : m.frames = f :: fs) (hjoins : m.joins x = true)
    (hrises : Definite.Rises now (l :: ls)) (h : m.Backed x { now, levels := l :: ls }) :
    Backed x { m with
      main := match f.arm with
        | some arm => merge arm m.main
        | none => merge m.main f.entry
      frames := fs } { now := now && l.arm.getD l.entry, levels := ls } := by
  have hframes := h.frames
  rw [hm] at hframes
  obtain ⟨hf, hfs⟩ := List.forall₂_cons.mp hframes
  rw [joins, hm] at hjoins
  rcases Bool.or_eq_true_iff.mp hjoins with hbefore | hjoined
  · have hknown := known_of_entry hf hrises hbefore
    exact ⟨⟨fun _ _ _ => hknown, fun _ _ _ => hknown⟩, hfs⟩
  · obtain ⟨hheights, halt⟩ := Bool.and_eq_true_iff.mp hjoined
    have hheights := (Bool.or_eq_true_iff.mp hheights).imp_left of_decide_eq_true
    exact ⟨⟨fun i hi => known_of_merge hx hf h.each.main hheights hi,
      fun i hi hbears => (not_bears_of_any halt hi hbears).elim⟩, hfs⟩

private theorem assign (h : m.Backed x d) (hx : x ≠ []) (name : Name) :
    (m.assign name).Backed x (d.step x (.assign name)) := by
  have hframes : (m.assign name).frames = m.frames := by
    rw [Machine.assign]
    split <;> rfl
  have halt : (m.assign name).alt = m.alt := by
    rw [Machine.assign]
    split <;> rfl
  rw [Definite.step]
  split
  · exact ⟨⟨fun _ _ _ => rfl, fun _ _ _ => rfl⟩, hframes ▸ h.frames⟩
  · next hname =>
    refine ⟨⟨?_, halt ▸ h.each.alt⟩, hframes ▸ h.frames⟩
    have hcleared : ∀ i ∈ m.main.map fun i =>
        if i.name = name then { i with name := [], copy := false } else i, BearsIf x d.now i := by
      intro _ hmem
      obtain ⟨i, hi, rfl⟩ := List.mem_map.mp hmem
      split
      · exact bearsIf_of_ne hx.symm _
      · exact h.each.main i hi
    have hnamed (i : Item) : BearsIf x d.now { i with name, copy := false } :=
      bearsIf_of_ne hname _
    rw [Machine.assign]
    split
    · exact List.forall_mem_singleton.mpr (hnamed {})
    · next hmain =>
      rw [hmain] at hcleared
      exact List.forall_mem_cons.mpr ⟨hnamed _, (List.forall_mem_cons.mp hcleared).2⟩

/-- A step leaves items with a name only if the name is known to be written, provided that at the
end of a conditional none is kept from one arm alone. -/
theorem step (h : m.Backed x d) (hx : x ≠ []) (hrises : Definite.Rises d.now d.levels)
    {out : List Arm} (harms : Nesting.step d.arms s.instr = some out)
    (hjoins : s.instr = .op .opEndIf → m.joins x = true) (hstep : m.step s = .ok m') :
    m'.Backed x (d.step x s.instr) := by
  have hclosed := closed_bearsIf hx d.now
  have hpushed {i : Item} (hi : BearsIf x d.now i) : (m.push [i]).Backed x d :=
    ⟨h.each.pushOne hi, h.frames⟩
  rw [Machine.step] at hstep
  cases hinstr : s.instr with
  | op o =>
    rw [hinstr] at hstep harms hjoins
    by_cases ho : o.isMarker = false
    · obtain ⟨heach, hframes⟩ := h.each.runOp hclosed ho hstep
      rw [Definite.step_of_notMarker (by rintro _ ⟨⟩; exact ho) (by simp)]
      exact ⟨heach, hframes ▸ h.frames⟩
    obtain ⟨now, levels⟩ := d
    cases o with
    | opIf | opNotIf =>
      cases hstep
      exact h.opens
    | opElse =>
      have hframes := h.frames
      simp only [Machine.runOp] at hstep
      obtain _ | ⟨⟨entry, _ | arm⟩, ls⟩ := levels
      · cases harms
      · split at hstep
        · next hm =>
          rw [hm] at hframes
          cases hframes
        · next f fs hm =>
          cases hstep
          exact splits hm h
      · cases harms
    | opEndIf =>
      have hframes := h.frames
      simp only [Machine.runOp] at hstep
      cases levels with
      | nil => cases harms
      | cons l ls =>
        split at hstep
        · next hm =>
          rw [hm] at hframes
          cases hframes
        · next f fs hm =>
          cases hstep
          exact closes hx hm (hjoins rfl) hrises h
    | _ => exact absurd rfl ho
  | push data =>
    rw [hinstr] at hstep
    cases hstep
    refine hpushed ?_
    split
    · exact bearsIf_of_ne hx.symm _
    · exact hclosed.anonymous
  | inner =>
    rw [hinstr] at hstep
    cases hstep
    exact hpushed hclosed.anonymous
  | assign name =>
    rw [hinstr] at hstep
    cases hstep
    exact h.assign hx name
  | assume | var =>
    rw [hinstr] at hstep
    cases hstep
    exact hpushed (bearsIf_of_copy rfl _)
  | call =>
    rw [hinstr] at hstep
    cases hstep
    exact h

end Backed

/-- Whether no conditional in front of a position leaves an item with a name from one arm alone. -/
def JoinsBefore (names : List Name) (steps : List Step) (x : Name) (k : Nat) : Prop :=
  ∀ j < k, ∀ st, steps[j]? = some st → st.instr = .op .opEndIf →
    ∀ m, (Machine.start names).run (steps.take j) = .ok m → m.joins x = true

/-- The test whether no conditional in front of a position leaves an item from one arm alone. -/
def joinsBefore? (names : List Name) (steps : List Step) (x : Name) (k : Nat) : Bool :=
  (List.range k).all fun j => steps[j]?.all fun st =>
    st.instr ≠ .op .opEndIf ||
      (((Machine.start names).run (steps.take j)).toOption.all fun m => m.joins x)

variable {k : Nat} {names : List Name} {steps : List Step}

/-- The check finds that no conditional leaves such an item. -/
theorem joinsBefore_of_joinsBefore? (h : joinsBefore? names steps x k = true) :
    JoinsBefore names steps x k := by
  intro j hj st hst hend m hm
  have hjoins := List.all_eq_true.mp h j (List.mem_range.mpr hj)
  rw [hst, Option.all_some, hend, hm] at hjoins
  simpa [Except.toOption] using hjoins

/-- Along balanced code the machine has a name only if it is known to be written. -/
theorem backed_run (hx : x ≠ []) (hnames : x ∉ names)
    (hbalanced : Nesting.run [] (Step.instrs steps) = some []) (hk : k ≤ steps.length)
    (hjoins : JoinsBefore names steps x k)
    (hrun : (Machine.start names).run (steps.take k) = .ok m) :
    m.Backed x (({} : Definite).run x ((Step.instrs steps).take k)) := by
  induction k generalizing m with
  | zero =>
    cases hrun
    exact .start hnames
  | succ k ih =>
    have hst : steps[k]? = some steps[k] := List.getElem?_eq_getElem hk
    have hinstr : (Step.instrs steps)[k]? = some steps[k].instr := by
      rw [Step.instrs, List.getElem?_map, hst]
      rfl
    rw [List.take_add_one, hst, Machine.run, List.foldlM_append] at hrun
    obtain ⟨before, hbefore, hlast⟩ := bind_eq_ok_iff.mp hrun
    obtain ⟨after, hstep, hafter⟩ := bind_eq_ok_iff.mp hlast
    cases hafter
    obtain ⟨out, hout⟩ := Definite.exists_arms x hbalanced hinstr
    rw [Definite.run_take_succ _ hinstr]
    have hbacked :=
      ih (Nat.le_of_succ_le hk) (fun j hj => hjoins j (Nat.lt_succ_of_lt hj)) hbefore
    exact hbacked.step hx (Definite.Rises.outside.run x _) hout
      (fun hend => hjoins k (Nat.lt_succ_self k) _ hst hend _ hbefore) hstep

/-- A name that the machine can locate is known to be written. -/
theorem Backed.now_of_locate? (h : m.Backed x d) {pos : Nat} (hpos : m.locate? x = some pos) :
    d.now = true := by
  obtain ⟨i, hi, -⟩ := Option.map_eq_some_iff.mp hpos
  obtain ⟨hlt, hbears, -⟩ := List.findIdx?_eq_some_iff_getElem.mp hi
  exact h.each.main _ (List.getElem_mem hlt) hbears

end NamedStack.Machine
