import NamedStack.Proofs.Resolve.Code
import NamedStack.Proofs.Resolve.Unfolding

/-!
# Names that a program assigns

A program assigns names itself, in the arguments of its calls, in the bodies of functions and in the
contents of parameters. Neither contents nor expansions that are put in place assign any others.
-/

namespace NamedStack

namespace Table

variable {t u : Table} {x name : Name} {A : Name → Prop}

/-! ### Names that a program assigns -/

/-- Whether an instruction assigns a name outside of inner scripts: itself, in an argument of a call
or in the body of a function that it calls, and, if contents count, in the content of a parameter
that is read. -/
inductive Assigns (t : Table) (contents : Bool) : Instr → Name → Prop
  | assign (x : Name) : Assigns t contents (.assign x) x
  | argument {name x : Name} {args : List (List Instr)} {ops : List Instr} {i : Instr}
      (hops : ops ∈ args) (hi : i ∈ ops) (h : Assigns t contents i x) :
      Assigns t contents (.call name args) x
  | body {name sname x : Name} {args : List (List Instr)} {params : List Name} {body : List Instr}
      {i : Instr} (hname : t.lookup? name = some ⟨sname, .function, .definition params body⟩)
      (hi : i ∈ body) (h : Assigns t contents i x) : Assigns t contents (.call name args) x
  | content {name sname x : Name} {ops : List Instr} {i : Instr} (hcontents : contents = true)
      (hname : t.lookup? name = some ⟨sname, .argument, .content ops⟩) (hi : i ∈ ops)
      (h : Assigns t contents i x) : Assigns t contents (.var name) x

/-- Without parameters there are no contents to count. -/
theorem Assigns.of_parameterFree (ht : t.ParameterFree) {i : Instr} (h : t.Assigns true i x) :
    t.Assigns false i x := by
  induction h with
  | assign x => exact .assign x
  | argument hops hi _ ih => exact .argument hops hi ih
  | body hname hi _ ih => exact .body hname hi ih
  | content _ hname => exact absurd rfl (ht hname)

private theorem Assigns.of_agrees {contents : Bool} {i : Instr} (h : t.Assigns contents i x)
    (hsame : t.Agrees u) : u.Assigns contents i x := by
  induction h with
  | assign x => exact .assign x
  | argument hops hi _ ih => exact .argument hops hi ih
  | body hname hi _ ih => exact .body ((hsame (by simp)).mp hname) hi ih
  | content hcontents hname hi _ ih =>
    exact .content hcontents ((hsame (by simp)).mp hname) hi ih

/-- Whether all names that a program assigns have a property. -/
def Confines (t : Table) (A : Name → Prop) (ops : List Instr) : Prop :=
  ∀ i ∈ ops, ∀ x, t.Assigns true i x → A x

/-- New variables make no difference to what is assigned. -/
theorem Extends.confines_iff (h : t.Extends A u) {ops : List Instr} :
    u.Confines A ops ↔ t.Confines A ops := by
  have hassigns {i : Instr} {x : Name} : u.Assigns true i x ↔ t.Assigns true i x :=
    ⟨fun hi => hi.of_agrees h.agrees.symm, fun hi => hi.of_agrees h.agrees⟩
  simp only [Confines, hassigns]

namespace Confines

variable {ops ops' : List Instr} {args : List (List Instr)}

/-- Two programs together assign the names of both. -/
theorem append (h : t.Confines A ops) (h' : t.Confines A ops') : t.Confines A (ops ++ ops') :=
  List.forall_mem_append.mpr ⟨h, h'⟩

/-- An inner script assigns nothing outside of it. -/
theorem inner (ops : List Instr) : t.Confines A [.inner ops] := by
  rintro _ hi x hx
  cases List.mem_singleton.mp hi
  cases hx

/-- Code assigns nothing. -/
theorem straight (h : ∀ i ∈ ops, Straight i) : t.Confines A ops := by
  intro i hi x hx
  cases hx with
  | _ => exact (h _ hi).elim

/-- The names that a call assigns are those of its arguments and of its function. -/
theorem call_iff : t.Confines A [.call name args] ↔ (∀ ops ∈ args, t.Confines A ops) ∧
    ∀ sname params body, t.lookup? name = some ⟨sname, .function, .definition params body⟩ →
      t.Confines A body := by
  constructor
  · intro h
    have h := List.forall_mem_singleton.mp h
    exact ⟨fun ops hops i hi x hx => h x (.argument hops hi hx),
      fun _ _ _ hname i hi x hx => h x (.body hname hi hx)⟩
  · rintro ⟨hargs, hbody⟩ _ hi x hx
    cases List.mem_singleton.mp hi
    cases hx with
    | argument hops hi hx => exact hargs _ hops _ hi x hx
    | body hname hi hx => exact hbody _ _ _ hname _ hi x hx

end Confines

end Table

namespace Expand

variable {t inside : Table} {A : Name → Prop}

/-- Whether calls that assign only names with a property give way to code that does so too. -/
def Confining (t : Table) (A : Name → Prop) (call : CallResult) : Prop :=
  ∀ g args out, t.Confines A [.call g args] → call g args = .ok out → t.Confines A out

section

variable {call : CallResult}

mutual

private theorem confines_substitute (hin : t.Within (t.Confines A) inside)
    (hcall : Confining t A call) : ∀ (i : Instr) (out : List Instr), t.Confines A [i] →
      substitute inside call i = .ok out → t.Confines A out
  | .var name, out, hi, h => by
    unfold substitute at h
    split at h
    · next ops hlookup =>
      cases h
      rcases hin name with hsame | ⟨ops', hops, hconfines⟩
      · rw [hsame] at hlookup
        exact fun i hmem x hx => hi _ List.mem_cons_self x (.content rfl hlookup hmem hx)
      · cases hops.symm.trans hlookup
        exact hconfines
    · cases h
    · cases h
      exact hi
  | .call name args, out, hi, h => by
    obtain ⟨args', hargs', h⟩ := Engine.bind_eq_ok_iff.mp h
    obtain ⟨hargs, hbody⟩ := Table.Confines.call_iff.mp hi
    refine hcall name args' out (Table.Confines.call_iff.mpr ⟨?_, hbody⟩) h
    exact confines_substituteBlocks hin hcall args args' hargs hargs'
  | .inner ops, out, hi, h => by
    obtain ⟨ops', -, h⟩ := Engine.bind_eq_ok_iff.mp h
    cases h
    exact .inner ops'
  | .op _, _, hi, h | .push _, _, hi, h | .assume _, _, hi, h | .assign _, _, hi, h => by
    cases h
    exact hi

private theorem confines_substituteList (hin : t.Within (t.Confines A) inside)
    (hcall : Confining t A call) : ∀ ops out : List Instr, t.Confines A ops →
      substituteList inside call ops = .ok out → t.Confines A out
  | [], out, _, h => by
    cases h
    exact List.forall_mem_nil _
  | i :: rest, out, hops, h => by
    obtain ⟨front, hfront, h⟩ := Engine.bind_eq_ok_iff.mp h
    obtain ⟨back, hback, h⟩ := Engine.bind_eq_ok_iff.mp h
    cases h
    obtain ⟨hi, hrest⟩ := List.forall_mem_cons.mp hops
    have hi : t.Confines A [i] := List.forall_mem_singleton.mpr hi
    exact (confines_substitute hin hcall i front hi hfront).append
      (confines_substituteList hin hcall rest back hrest hback)

private theorem confines_substituteBlocks (hin : t.Within (t.Confines A) inside)
    (hcall : Confining t A call) : ∀ blocks out : List (List Instr),
      (∀ ops ∈ blocks, t.Confines A ops) → substituteBlocks inside call blocks = .ok out →
        ∀ ops ∈ out, t.Confines A ops
  | [], out, _, h => by
    cases h
    exact List.forall_mem_nil _
  | ops :: rest, out, hblocks, h => by
    obtain ⟨front, hfront, h⟩ := Engine.bind_eq_ok_iff.mp h
    obtain ⟨back, hback, h⟩ := Engine.bind_eq_ok_iff.mp h
    cases h
    obtain ⟨hops, hrest⟩ := List.forall_mem_cons.mp hblocks
    exact List.forall_mem_cons.mpr ⟨confines_substituteList hin hcall ops front hops hfront,
      confines_substituteBlocks hin hcall rest back hrest hback⟩

end

end

/-- A call gives way to code that assigns no names but those of its arguments and functions. -/
theorem confines_call {g : Name} {args : List (List Instr)} {out : List Instr}
    (hg : t.Confines A [.call g args]) (h : call t g args = .ok out) : t.Confines A out := by
  have hcallIn (n : Nat) (inside : Table) (calling : List Name)
      (hin : t.Within (t.Confines A) inside) : Confining t A (callIn n inside calling) := by
    induction n generalizing inside calling with
    | zero =>
      intro g args out _ h
      cases h
    | succ n ih =>
      intro g args out hg h
      obtain ⟨_, _, params, body, ⟨⟩, hlookup, -, hout⟩ := exists_of_callIn_eq_ok h
      obtain ⟨hargs, hbody⟩ := Table.Confines.call_iff.mp hg
      have hbind := hin.bind params hargs
      exact confines_substituteList hbind (ih _ _ hbind) body out
        (hbody _ _ _ (hin.lookup_function hlookup)) hout
  exact hcallIn _ t [] (.refl _ t) g args out hg h

end Expand

end NamedStack
