import NamedStack.Proofs.Resolve.Capture

/-!
# What comes up while a program is resolved

The content of a parameter is put in the place of a read, and the expansion of a call in the place
of the call; both may have references of their own. Putting them in place comes to an end unless a
parameter leads back to itself. If it does, then so many references come up altogether, and inner
scripts are nested no deeper than so in anything that comes up. Without parameters only calls come
up, and these are nested in arguments of calls.
-/

namespace NamedStack

namespace Table

variable {t u : Table}

/-! ### Contents and expansions -/

/-- The content of the parameter that a name stands for. -/
def content? (t : Table) (name : Name) : Option (List Instr) :=
  match t.lookup? name with
  | some { kind := .argument, value := .content ops, .. } => some ops
  | _ => none

/-- A name has a content if it stands for a parameter with it. -/
theorem content?_eq_some_iff {name : Name} {ops : List Instr} :
    t.content? name = some ops ↔
      ∃ sname, t.lookup? name = some ⟨sname, .argument, .content ops⟩ := by
  unfold content?
  split
  · next hlookup => simp [hlookup]
  · next hother =>
    constructor
    · intro h
      cases h
    · rintro ⟨sname, hlookup⟩
      exact absurd hlookup (hother sname ops)

/-- What is put in the place of an instruction as it stands in the table or in a function: the
content of a parameter, or the expansion of a call. -/
def unfold (t : Table) : Instr → List Instr
  | .var name => (t.content? name).getD []
  | .call name args => (Expand.call t name args).toOption.getD []
  | _ => []

/-- Whether putting contents and expansions in place, from an instruction on, comes to an end. -/
def Founded (t : Table) (i : Instr) : Prop := Acc (fun j i => j ∈ t.unfold i) i

/-- Whether it comes to an end in so many rounds. -/
def foundedIn (t : Table) : Nat → Instr → Bool
  | 0, _ => false
  | n + 1, i => (t.unfold i).all (t.foundedIn n)

private theorem foundedIn_mono {i : Instr} {n m : Nat} (hi : t.foundedIn n i = true) (h : n ≤ m) :
    t.foundedIn m i = true := by
  induction n generalizing i m with
  | zero => cases hi
  | succ n ih =>
    obtain ⟨m, rfl⟩ : ∃ k, m = k + 1 := ⟨m - 1, by omega⟩
    rw [foundedIn, List.all_eq_true] at hi ⊢
    exact fun j hj => ih (hi j hj) (by omega)

/-- What comes to an end does so in some number of rounds. -/
theorem founded_iff {i : Instr} : t.Founded i ↔ ∃ n, t.foundedIn n i = true := by
  constructor
  · intro h
    induction h with
    | intro i _ ih =>
      -- the most rounds that any of the instructions takes are enough for all of them
      have hall (l : List Instr) (hl : ∀ j ∈ l, ∃ n, t.foundedIn n j = true) :
          ∃ n, ∀ j ∈ l, t.foundedIn n j = true := by
        induction l with
        | nil => exact ⟨0, List.forall_mem_nil _⟩
        | cons j l ihl =>
          obtain ⟨⟨n, hn⟩, hl⟩ := List.forall_mem_cons.mp hl
          obtain ⟨m, hm⟩ := ihl hl
          exact ⟨max n m, List.forall_mem_cons.mpr ⟨foundedIn_mono hn (Nat.le_max_left n m),
            fun j hj => foundedIn_mono (hm j hj) (Nat.le_max_right n m)⟩⟩
      obtain ⟨n, hn⟩ := hall (t.unfold i) ih
      exact ⟨n + 1, List.all_eq_true.mpr hn⟩
  · rintro ⟨n, hn⟩
    induction n generalizing i with
    | zero => cases hn
    | succ n ih => exact .intro i fun j hj => ih (List.all_eq_true.mp hn j hj)

/-! ### Tables with other variables -/

/-- Whether names stand for the same in both tables if they do not stand for variables. -/
def Agrees (t u : Table) : Prop :=
  ∀ ⦃x sym⦄, sym.kind ≠ .variable → (t.lookup? x = some sym ↔ u.lookup? x = some sym)

/-- New variables are no difference. -/
theorem Extends.agrees {A : Name → Prop} (h : t.Extends A u) : t.Agrees u :=
  fun _ _ hsym => (h.lookup?_iff hsym).symm

/-- What agrees agrees both ways. -/
theorem Agrees.symm (h : t.Agrees u) : u.Agrees t := fun _ _ hsym => (h hsym).symm

/-- Neither is there one inside of a function. -/
theorem Agrees.bind (h : t.Agrees u) (params : List Name) (args : List (List Instr)) :
    (Expand.bind t params args).Agrees (Expand.bind u params args) := by
  intro x sym hsym
  rw [lookup?_bind, lookup?_bind]
  cases (params.zip args).reverse.find? (·.1 = x) with
  | some p => exact Iff.rfl
  | none => exact h hsym

end Table

namespace Expand

variable {t u : Table}

section

variable {call call' : CallResult}

mutual

private theorem substitute_of_agrees (h : t.Agrees u)
    (hcall : ∀ name args out, call name args = .ok out → call' name args = .ok out) :
    ∀ (i : Instr) (out : List Instr),
      substitute t call i = .ok out → substitute u call' i = .ok out
  | .var name, out, hout => by
    unfold substitute at hout ⊢
    split at hout
    · next ops hlookup =>
      rw [(h (by simp)).mp hlookup]
      exact hout
    · cases hout
    · next hcontent hother =>
      split
      · next hlookup => exact absurd ((h (by simp)).mpr hlookup) (hcontent _ _)
      · next hlookup => exact absurd ((h (by simp)).mpr hlookup) (hother _ _)
      · exact hout
  | .call name args, out, hout => by
    obtain ⟨args', hargs, hout⟩ := Engine.bind_eq_ok_iff.mp hout
    exact Engine.bind_eq_ok_iff.mpr
      ⟨args', substituteBlocks_of_agrees h hcall args args' hargs, hcall name args' out hout⟩
  | .inner ops, out, hout => by
    obtain ⟨ops', hops, hout⟩ := Engine.bind_eq_ok_iff.mp hout
    exact Engine.bind_eq_ok_iff.mpr
      ⟨ops', substituteList_of_agrees h hcall ops ops' hops, hout⟩
  | .op _, _, hout | .push _, _, hout | .assume _, _, hout | .assign _, _, hout => hout

private theorem substituteList_of_agrees (h : t.Agrees u)
    (hcall : ∀ name args out, call name args = .ok out → call' name args = .ok out) :
    ∀ ops out : List Instr,
      substituteList t call ops = .ok out → substituteList u call' ops = .ok out
  | [], _, hout => hout
  | i :: rest, out, hout => by
    obtain ⟨front, hfront, hout⟩ := Engine.bind_eq_ok_iff.mp hout
    obtain ⟨back, hback, hout⟩ := Engine.bind_eq_ok_iff.mp hout
    exact Engine.bind_eq_ok_iff.mpr ⟨front, substitute_of_agrees h hcall i front hfront,
      Engine.bind_eq_ok_iff.mpr ⟨back, substituteList_of_agrees h hcall rest back hback, hout⟩⟩

private theorem substituteBlocks_of_agrees (h : t.Agrees u)
    (hcall : ∀ name args out, call name args = .ok out → call' name args = .ok out) :
    ∀ blocks out : List (List Instr),
      substituteBlocks t call blocks = .ok out → substituteBlocks u call' blocks = .ok out
  | [], _, hout => hout
  | ops :: rest, out, hout => by
    obtain ⟨front, hfront, hout⟩ := Engine.bind_eq_ok_iff.mp hout
    obtain ⟨back, hback, hout⟩ := Engine.bind_eq_ok_iff.mp hout
    exact Engine.bind_eq_ok_iff.mpr ⟨front, substituteList_of_agrees h hcall ops front hfront,
      Engine.bind_eq_ok_iff.mpr ⟨back, substituteBlocks_of_agrees h hcall rest back hback, hout⟩⟩

end

end

private theorem callIn_of_agrees (h : t.Agrees u) (n : Nat) (calling : List Name) (name : Name)
    (args : List (List Instr)) (out : List Instr) (hout : callIn n t calling name args = .ok out) :
    callIn n u calling name args = .ok out := by
  induction n generalizing t u calling name args out with
  | zero => cases hout
  | succ n ih =>
    rw [callIn] at hout
    split at hout
    · cases hout
    · next params body hlookup =>
      split at hout
      · cases hout
      · next harity =>
        split at hout
        · cases hout
        · next hnew =>
          rw [callIn, (h (by simp)).mp hlookup]
          simp only [if_neg harity, if_neg hnew]
          have hbind := h.bind params args
          exact substituteList_of_agrees hbind
            (fun name' args' => ih hbind (name :: calling) name' args') body out hout
    · cases hout

/-- A call is expanded to the same code in both tables. -/
theorem call_of_agrees (h : t.Agrees u) (hdefinitions : u.definitions = t.definitions) {name : Name}
    {args : List (List Instr)} {out : List Instr} (hout : call t name args = .ok out) :
    call u name args = .ok out := by
  rw [call, Table.bodies_eq, hdefinitions, ← Table.bodies_eq]
  exact callIn_of_agrees h _ [] name args out hout

end Expand

/-- What is put in place is the same in both tables. -/
theorem Table.unfold_congr {t u : Table} (h : t.Agrees u)
    (hdefinitions : u.definitions = t.definitions) : u.unfold = t.unfold := by
  funext i
  cases i with
  | var name =>
    have hcontent : u.content? name = t.content? name := by
      apply Option.ext
      intro ops
      rw [content?_eq_some_iff, content?_eq_some_iff]
      exact exists_congr fun sname => (h (by simp)).symm
    rw [unfold, unfold, hcontent]
  | call name args =>
    have hcall : (Expand.call u name args).toOption = (Expand.call t name args).toOption := by
      cases ht : Expand.call t name args with
      | ok out => rw [Expand.call_of_agrees h hdefinitions ht]
      | error f =>
        cases hu : Expand.call u name args with
        | ok out => cases ht.symm.trans (Expand.call_of_agrees h.symm hdefinitions.symm hu)
        | error f' => rfl
    rw [unfold, unfold, hcall]
  | _ => rfl

/-- Nothing is put in the place of what is no reference. -/
theorem Table.unfold_of_references {t : Table} {i : Instr} (h : Measure.references i = 0) :
    t.unfold i = [] := by
  cases i with
  | var | call => simp [Measure.references] at h
  | _ => rfl

namespace Measure

variable {u : Instr → List Instr} {d n n' k m : Nat} {i : Instr} {a b ops : List Instr}

/-! ### References that come up -/

/-- The references of an instruction as it stands: a call is one, and an inner script has those in
it. -/
def own : Instr → Nat
  | .call _ _ => 1
  | i => references i

/-- What is no call has the references that are in it. -/
theorem own_of_isCall (h : i.isCall = false) : own i = references i := by
  cases i with
  | call => cases h
  | _ => rfl

/-- An instruction without references has none as it stands. -/
theorem own_eq_zero_iff : own i = 0 ↔ references i = 0 := by
  cases i <;> simp [own, references]

/-- Whether so many references come up in a program as contents and expansions are put in place, and
inner scripts are nested no deeper than so in all that comes up. -/
inductive Unfolds (u : Instr → List Instr) (d n : Nat) : List Instr → Nat → Prop
  | nil : Unfolds u d n [] 0
  | cons {i : Instr} {rest : List Instr} {k m : Nat} (nesting : nesting d i ≤ n)
      (front : Unfolds u d n (u i) k) (back : Unfolds u d n rest m) :
      Unfolds u d n (i :: rest) (own i + k + m)

namespace Unfolds

/-- Nothing comes up in an empty program. -/
theorem eq_zero_of_nil (h : Unfolds u d n [] k) : k = 0 := by
  cases h
  rfl

/-- Inner scripts may be nested less deep than allowed. -/
theorem mono (h : Unfolds u d n ops k) (hn : n ≤ n') : Unfolds u d n' ops k := by
  induction h with
  | nil => exact .nil
  | cons hnesting _ _ hfront hback => exact .cons (hnesting.trans hn) hfront hback

/-- What comes up in two programs comes up in both together. -/
theorem append (ha : Unfolds u d n a k) (hb : Unfolds u d n b m) :
    Unfolds u d n (a ++ b) (k + m) := by
  induction ha with
  | nil =>
    rw [Nat.zero_add]
    exact hb
  | cons hnesting hfront _ _ ih =>
    rw [Nat.add_assoc]
    exact .cons hnesting hfront ih

/-- What comes up in two programs together comes up in one of them. -/
theorem of_append (h : Unfolds u d n (a ++ b) k) :
    ∃ j m, k = j + m ∧ Unfolds u d n a j ∧ Unfolds u d n b m := by
  induction a generalizing k with
  | nil => exact ⟨0, k, (Nat.zero_add k).symm, .nil, h⟩
  | cons i a ih =>
    rw [List.cons_append] at h
    cases h with
    | cons hnesting hfront hback =>
      obtain ⟨j, m, rfl, ha, hb⟩ := ih hback
      exact ⟨_, m, (Nat.add_assoc ..).symm, .cons hnesting hfront ha, hb⟩

/-- What comes up in a program comes up from its instructions. -/
theorem of_mem (h : Unfolds u d n ops k) (hi : i ∈ ops) :
    nesting d i ≤ n ∧ ∃ m, Unfolds u d n (u i) m ∧ own i + m ≤ k := by
  induction h with
  | nil => cases hi
  | cons hnesting hfront _ _ ih =>
    rcases List.mem_cons.mp hi with rfl | hi
    · exact ⟨hnesting, _, hfront, Nat.le_add_right _ _⟩
    · obtain ⟨hi, m, hm, hle⟩ := ih hi
      exact ⟨hi, m, hm, hle.trans (Nat.le_add_left _ _)⟩

/-- Something comes up in a program exactly if it has references. -/
theorem eq_zero_iff (hu : ∀ i, references i = 0 → u i = []) (h : Unfolds u d n ops k) :
    k = 0 ↔ referencesList ops = 0 := by
  induction h with
  | nil => simp [referencesList]
  | @cons i rest k m _ hfront _ _ ih =>
    have hi : references i = 0 → k = 0 := fun hi => eq_zero_of_nil (hu i hi ▸ hfront)
    have hown := own_eq_zero_iff (i := i)
    rw [referencesList]
    omega

/-- As many references come up as there are if nothing is put in place. -/
theorem eq_references (h : Unfolds u d n ops k)
    (hops : ∀ i ∈ ops, i.isCall = false ∧ u i = []) : k = referencesList ops := by
  induction h with
  | nil => rfl
  | @cons i rest k m _ hfront _ _ ih =>
    obtain ⟨⟨hcall, hi⟩, hrest⟩ := List.forall_mem_cons.mp hops
    have hk : k = 0 := eq_zero_of_nil (hi ▸ hfront)
    rw [referencesList, own_of_isCall hcall, hk, ih hrest, Nat.add_zero]

/-- Code makes no difference. -/
theorem openings_iff (hu : ∀ i, references i = 0 → u i = []) :
    Unfolds u d n (Peephole.openings ops) k ↔ Unfolds u d n ops k := by
  induction ops generalizing k with
  | nil => exact Iff.rfl
  | cons i ops ih =>
    cases hi : i.isOpen with
    | true =>
      have hcons : Peephole.openings (i :: ops) = i :: Peephole.openings ops :=
        List.filter_cons_of_pos hi
      rw [hcons]
      constructor
      · intro h
        cases h with
        | cons hnesting hfront hback => exact .cons hnesting hfront (ih.mp hback)
      · intro h
        cases h with
        | cons hnesting hfront hback => exact .cons hnesting hfront (ih.mpr hback)
    | false =>
      have hcons : Peephole.openings (i :: ops) = Peephole.openings ops :=
        List.filter_cons_of_neg (by rw [hi]; exact Bool.false_ne_true)
      have hreferences := references_of_isOpen hi
      have hown : own i = 0 := own_eq_zero_iff.mpr hreferences
      rw [hcons, ih]
      constructor
      · intro h
        have hfront : Unfolds u d n (u i) 0 := by
          rw [hu i hreferences]
          exact .nil
        have hcons : Unfolds u d n (i :: ops) (own i + 0 + k) :=
          .cons (nesting_of_isOpen hi ▸ Nat.zero_le n) hfront h
        rwa [hown, Nat.zero_add] at hcons
      · intro h
        cases h with
        | cons hnesting hfront hback =>
          have hk := eq_zero_of_nil (hu i hreferences ▸ hfront)
          rw [hown, hk, Nat.zero_add]
          exact hback

end Unfolds

/-- Something comes up in a program if it does from its instructions. -/
theorem exists_unfolds_of_mem
    (h : ∀ i ∈ ops, nesting d i ≤ n ∧ ∃ k, Unfolds u d n (u i) k) : ∃ k, Unfolds u d n ops k := by
  induction ops with
  | nil => exact ⟨0, .nil⟩
  | cons i ops ih =>
    obtain ⟨⟨hnesting, k, hk⟩, hops⟩ := List.forall_mem_cons.mp h
    obtain ⟨m, hm⟩ := ih hops
    exact ⟨_, .cons hnesting hk hm⟩

/-- Something comes up in a program, no deeper than some bound, if putting contents and expansions
in place comes to an end. -/
theorem exists_unfolds_of_founded {t : Table} (d : Nat) (h : ∀ i ∈ ops, t.Founded i) :
    ∃ n k, Unfolds t.unfold d n ops k := by
  -- a bound for each of the instructions gives one for all of them
  have hlist (l : List Instr) (hl : ∀ i ∈ l, ∃ n, nesting d i ≤ n ∧
      ∃ k, Unfolds t.unfold d n (t.unfold i) k) : ∃ n k, Unfolds t.unfold d n l k := by
    induction l with
    | nil => exact ⟨0, 0, .nil⟩
    | cons i l ih =>
      obtain ⟨⟨n, hnesting, k, hk⟩, hl⟩ := List.forall_mem_cons.mp hl
      obtain ⟨n', m, hm⟩ := ih hl
      exact ⟨max n n', _, .cons (hnesting.trans (Nat.le_max_left n n'))
        (hk.mono (Nat.le_max_left n n')) (hm.mono (Nat.le_max_right n n'))⟩
  refine hlist ops fun i hi => ?_
  have hfounded := h i hi
  clear hi
  induction hfounded with
  | intro i _ ih =>
    obtain ⟨n, k, hk⟩ := hlist (t.unfold i) fun j hj => ih j hj
    exact ⟨max n (nesting d i), Nat.le_max_right n _, k, hk.mono (Nat.le_max_left n _)⟩

/-! ### Without parameters -/

section

variable {t : Table} (ht : t.ParameterFree)

include ht

/-- In the place of a call comes a program whose calls are nested less deep, and inner scripts no
deeper. -/
theorem of_mem_unfold {j : Instr} (hj : j ∈ t.unfold i) :
    callHeight j < callHeight i ∧ nesting (Expand.depth t) j ≤ nesting (Expand.depth t) i := by
  cases i with
  | var name =>
    have hnone : t.content? name = none := by
      refine Option.eq_none_iff_forall_ne_some.mpr fun ops hops => ?_
      obtain ⟨sname, hlookup⟩ := Table.content?_eq_some_iff.mp hops
      exact ht hlookup rfl
    rw [Table.unfold, hnone] at hj
    cases hj
  | call name args =>
    have hfits := Expand.gives_call ht name args
    rw [Table.unfold] at hj
    cases hcall : Expand.call t name args with
    | error f =>
      rw [hcall] at hj
      cases hj
    | ok ops =>
      rw [hcall] at hj hfits
      have hheight := callHeightList_le_iff.mp hfits.height j hj
      refine ⟨?_, nestingList_le_iff.mp hfits.nesting j hj⟩
      rw [callHeight]
      omega
  | op | push | assume | assign | inner => cases hj

/-- Putting contents and expansions in place comes to an end. -/
theorem founded_of_parameterFree (i : Instr) : t.Founded i := by
  induction h : callHeight i using Nat.strong_induction_on generalizing i with
  | _ k ih => exact .intro i fun j hj => ih _ (h ▸ (of_mem_unfold ht hj).1) j rfl

/-- Nothing is put in the place of what is no call. -/
theorem unfold_of_isCall (h : i.isCall = false) : t.unfold i = [] := by
  refine List.eq_nil_iff_forall_not_mem.mpr fun j hj => ?_
  have hlt := (of_mem_unfold ht hj).1
  cases i with
  | call => cases h
  | _ => simp [callHeight] at hlt

/-- Something comes up in any program, and inner scripts are nested in it no deeper than in the
program itself. -/
theorem exists_unfolds_of_parameterFree (h : nestingList (Expand.depth t) ops ≤ n) :
    ∃ k, Unfolds t.unfold (Expand.depth t) n ops k := by
  have hunfold (m : Nat) (i : Instr) (hm : callHeight i ≤ m)
      (hi : nesting (Expand.depth t) i ≤ n) :
      ∃ k, Unfolds t.unfold (Expand.depth t) n (t.unfold i) k := by
    induction m generalizing i with
    | zero =>
      refine exists_unfolds_of_mem fun j hj => ?_
      have hlt := (of_mem_unfold ht hj).1
      omega
    | succ m ih =>
      refine exists_unfolds_of_mem fun j hj => ?_
      obtain ⟨hlt, hnesting⟩ := of_mem_unfold ht hj
      exact ⟨hnesting.trans hi, ih j (by omega) (hnesting.trans hi)⟩
  refine exists_unfolds_of_mem fun i hi => ?_
  have hi := nestingList_le_iff.mp h i hi
  exact ⟨hi, hunfold _ i (Nat.le_refl _) hi⟩

end

/-! ### Rounds of expansion -/

/-- Whether all calls of a program are expanded after so many rounds, each of which expands the
calls in the expansions of the one before. -/
def ExpandsIn (u : Instr → List Instr) : Nat → List Instr → Prop
  | 0, ops => ∀ i ∈ ops, i.isCall = false
  | k + 1, ops => ∀ i ∈ ops, i.isCall = true → ExpandsIn u k (u i)

/-- A round for each reference that comes up is enough. -/
theorem Unfolds.expandsIn (h : Unfolds u d n ops k) (hm : k ≤ m) : ExpandsIn u m ops := by
  have hown (i : Instr) (hi : i.isCall = true) : own i = 1 := by
    cases i with
    | call => rfl
    | _ => cases hi
  induction m generalizing ops k with
  | zero =>
    intro i hi
    obtain ⟨-, j, -, hle⟩ := h.of_mem hi
    by_contra hcall
    have hone := hown i (by simpa using hcall)
    omega
  | succ m ih =>
    intro i hi hcall
    obtain ⟨-, j, hj, hle⟩ := h.of_mem hi
    have hone := hown i hcall
    exact ih hj (by omega)

/-- Without parameters, as many rounds are enough as calls are nested in arguments of calls. -/
theorem expandsIn_of_parameterFree {t : Table} (ht : t.ParameterFree) (h : callHeightList ops ≤ m) :
    ExpandsIn t.unfold m ops := by
  have hpos (i : Instr) (hi : i.isCall = true) : 0 < callHeight i := by
    cases i with
    | call =>
      rw [callHeight]
      omega
    | _ => cases hi
  induction m generalizing ops with
  | zero =>
    intro i hi
    have hle := callHeightList_le_iff.mp h i hi
    by_contra hcall
    have hlt := hpos i (by simpa using hcall)
    omega
  | succ m ih =>
    intro i hi _
    have hle := callHeightList_le_iff.mp h i hi
    refine ih (callHeightList_le_iff.mpr fun j hj => ?_)
    have hlt := (of_mem_unfold ht hj).1
    omega

end Measure

end NamedStack
