import NamedStack.Proofs.Scope

/-!
# Tables that extend others

Resolving a program binds names that stand for nothing as variables, in the innermost scope, and
gives variables other values. A table that has come out of another one in this way has all its other
bindings, so that stack items, functions and parameters are found in one exactly if they are found
in the other.
-/

namespace NamedStack

/-! ### Bindings that are kept -/

/-- Whether a binding is the same as before, or is one of a variable as before. -/
def Symbol.Kept (old new : Option Symbol) : Prop :=
  new = old ∨ ∃ name v v', old = some ⟨name, .variable, v⟩ ∧ new = some ⟨name, .variable, v'⟩

namespace Symbol.Kept

variable {a b c d : Option Symbol}

private theorem refl (a : Option Symbol) : Kept a a := .inl rfl

private theorem or (h : Kept a b) (h' : Kept c d) : Kept (a.or c) (b.or d) := by
  rcases h with rfl | ⟨name, v, v', rfl, rfl⟩
  · cases b with
    | none => exact h'
    | some sym => exact .refl _
  · exact .inr ⟨name, v, v', rfl, rfl⟩

/-- A binding that is that of a variable may have any value. -/
theorem value {name : Name} {v : SymbolValue} (h : Kept a (some ⟨name, .variable, v⟩))
    (v' : SymbolValue) : Kept a (some ⟨name, .variable, v'⟩) := by
  rcases h with h | ⟨_, w, _, rfl, h⟩
  · exact .inr ⟨name, v, v', h.symm, rfl⟩
  · cases h
    exact .inr ⟨name, w, v', rfl, rfl⟩

end Symbol.Kept

namespace Scope

/-- Whether a scope has the bindings of another one, but for the values of variables. -/
structure Keeps (s s' : Scope) : Prop where
  kind : s'.kind = s.kind
  stack : s'.stack = s.stack
  bindings : ∀ x, Symbol.Kept (s.find? x) (s'.find? x)

private theorem name_of_find? {s : Scope} {x : Name} {sym : Symbol} (h : s.find? x = some sym) :
    sym.name = x := by
  simpa using List.find?_some h

private theorem Keeps.insert {s s' : Scope} (h : s.Keeps s') {x name : Name} {v : SymbolValue}
    (hx : s'.find? x = some ⟨name, .variable, v⟩) (v' : SymbolValue) :
    s.Keeps (s'.insert ⟨x, .variable, v'⟩) := by
  refine ⟨h.kind, h.stack, fun y => ?_⟩
  rw [find?_insert]
  split
  · next hy =>
    obtain rfl : name = x := name_of_find? hx
    rw [hy]
    exact (hx ▸ h.bindings name).value v'
  · exact h.bindings y

end Scope

namespace Table

variable {t u : Table} {hidden : Bool} {a b : List Scope} {x name : Name} {v : SymbolValue}
  {A : Name → Prop}

private theorem lookupIn_cons (x : Name) (s : Scope) (a : List Scope) :
    lookupIn x false (s :: a) = (s.find? x).or (lookupIn x (s.kind = .innerScript) a) := by
  rw [lookupIn, Bool.false_or]
  cases s.find? x <;> rfl

private theorem updateIn_cons (sym : Symbol) (s : Scope) (a : List Scope) :
    updateIn sym false (s :: a) =
      if (s.find? sym.name).isSome then s.insert sym :: a
      else s :: updateIn sym (s.kind = .innerScript) a := by
  rw [updateIn, Bool.false_or]
  cases s.find? sym.name <;> rfl

/-- Only functions can be seen from inside of an inner script. -/
theorem kind_of_lookupIn {sym : Symbol} (h : lookupIn name true a = some sym) :
    sym.kind = .function := by
  induction a with
  | nil => cases h
  | cons s a ih =>
    rw [lookupIn, Bool.true_or] at h
    split at h
    · split at h
      · next hvisible =>
        cases h
        simpa [visible] using hvisible
      · exact ih h
    · exact ih h

/-- Whether scopes have the bindings of others, but for the values of variables that can be seen.
Around an inner script nothing is different. -/
inductive ScopesKept : Bool → List Scope → List Scope → Prop
  | hidden (scopes : List Scope) : ScopesKept true scopes scopes
  | nil : ScopesKept false [] []
  | cons {s s' : Scope} {a b : List Scope} (head : s.Keeps s')
      (tail : ScopesKept (s.kind = .innerScript) a b) : ScopesKept false (s :: a) (s' :: b)

namespace ScopesKept

private theorem refl (hidden : Bool) (a : List Scope) : ScopesKept hidden a a := by
  induction a generalizing hidden with
  | nil =>
    cases hidden with
    | true => exact .hidden []
    | false => exact .nil
  | cons s a ih =>
    cases hidden with
    | true => exact .hidden (s :: a)
    | false => exact .cons ⟨rfl, rfl, fun x => .refl _⟩ (ih _)

private theorem lookupIn (h : ScopesKept hidden a b) (x : Name) :
    Symbol.Kept (lookupIn x hidden a) (Table.lookupIn x hidden b) := by
  induction h with
  | hidden scopes => exact .refl _
  | nil => exact .refl _
  | cons head tail ih =>
    rw [lookupIn_cons, lookupIn_cons, head.kind]
    exact (head.bindings x).or ih

/-- Scopes that are hidden stay as they are. -/
theorem eq_of_hidden (h : ScopesKept true a b) : b = a := by
  cases h
  rfl

private theorem map_kind (h : ScopesKept hidden a b) : b.map Scope.kind = a.map Scope.kind := by
  induction h with
  | hidden scopes => rfl
  | nil => rfl
  | cons head tail ih => rw [List.map_cons, List.map_cons, head.kind, ih]

/-- A variable that can be seen is given another value. -/
theorem updateIn (h : ScopesKept hidden a b)
    (hx : Table.lookupIn x hidden b = some ⟨name, .variable, v⟩) (v' : SymbolValue) :
    ScopesKept hidden a (updateIn ⟨x, .variable, v'⟩ hidden b) := by
  induction h with
  | hidden scopes => cases kind_of_lookupIn hx
  | nil => cases hx
  | @cons s s' a b head tail ih =>
    rw [lookupIn_cons] at hx
    rw [updateIn_cons]
    cases hfind : s'.find? x with
    | some sym =>
      rw [hfind, Option.some_or] at hx
      rw [Option.isSome_some, if_pos rfl]
      cases hx
      exact .cons (head.insert hfind v') tail
    | none =>
      rw [hfind, Option.none_or, head.kind] at hx
      rw [Option.isSome_none, if_neg Bool.false_ne_true, head.kind]
      exact .cons head (ih hx)

end ScopesKept

/-! ### Tables that have new variables -/

/-- Whether a table has the scopes and the bindings of another one, but for the values of variables
and for new variables in the innermost scope. These have a property, and stood for nothing. -/
structure Extends (A : Name → Prop) (t u : Table) : Prop where
  kind : u.current.kind = t.current.kind
  stack : u.current.stack = t.current.stack
  outer : ScopesKept (t.current.kind = .innerScript) t.outer u.outer
  current : ∀ x, Symbol.Kept (t.current.find? x) (u.current.find? x) ∨
    t.lookup? x = none ∧ A x ∧ ∃ v, u.current.find? x = some ⟨x, .variable, v⟩

private theorem lookup?_eq_or (t : Table) (x : Name) :
    t.lookup? x = (t.current.find? x).or (lookupIn x (t.current.kind = .innerScript) t.outer) :=
  lookupIn_cons x t.current t.outer

/-- Updating a table updates its scopes. -/
theorem scopes_update (t : Table) (sym : Symbol) :
    (t.update sym).scopes = updateIn sym false t.scopes := by
  unfold update
  split
  · next hnil =>
    rw [scopes, updateIn] at hnil
    split at hnil
    · split at hnil <;> cases hnil
    · cases hnil
  · next hcons => exact hcons.symm

/-- A binding is exchanged in the innermost scope if it is there, else around it. -/
theorem update_eq (t : Table) (sym : Symbol) :
    t.update sym = if (t.current.find? sym.name).isSome then t.declare sym
      else { t with outer := updateIn sym (t.current.kind = .innerScript) t.outer } := by
  have hscopes : (t.update sym).scopes = _ := (scopes_update t sym).trans (updateIn_cons ..)
  split at hscopes
  · next hfind =>
    obtain ⟨hcurrent, houter⟩ := List.cons.inj hscopes
    rw [if_pos hfind, declare, ← hcurrent, ← houter]
  · next hfind =>
    obtain ⟨hcurrent, houter⟩ := List.cons.inj hscopes
    rw [if_neg hfind, ← houter, ← hcurrent]

namespace Extends

/-- A table extends itself. -/
theorem refl (A : Name → Prop) (t : Table) : t.Extends A t :=
  ⟨rfl, rfl, .refl _ _, fun _ => .inl (.refl _)⟩

variable (h : t.Extends A u)

include h

/-- New variables may have a weaker property. -/
theorem mono {B : Name → Prop} (hB : ∀ x, A x → B x) : t.Extends B u :=
  ⟨h.kind, h.stack, h.outer, fun x => (h.current x).imp id fun hx => ⟨hx.1, hB x hx.2.1, hx.2.2⟩⟩

/-- The scopes have the same kinds. -/
theorem map_kind : u.scopes.map Scope.kind = t.scopes.map Scope.kind := by
  rw [scopes, scopes, List.map_cons, List.map_cons, h.kind, h.outer.map_kind]

/-- A name stands for what it stood for, or for a variable if it stood for one or for nothing. -/
theorem lookup? (x : Name) : Symbol.Kept (t.lookup? x) (u.lookup? x) ∨
    t.lookup? x = none ∧ ∃ v, u.lookup? x = some ⟨x, .variable, v⟩ := by
  rcases h.current x with hkept | ⟨hnone, -, v, hv⟩
  · left
    rw [lookup?_eq_or, lookup?_eq_or, h.kind]
    exact hkept.or (h.outer.lookupIn x)
  · right
    rw [lookup?_eq_or u, hv]
    exact ⟨hnone, v, rfl⟩

/-- What is no variable is found in one table exactly if it is found in the other. -/
theorem lookup?_iff {sym : Symbol} (hsym : sym.kind ≠ .variable) :
    u.lookup? x = some sym ↔ t.lookup? x = some sym := by
  rcases h.lookup? x with (hsame | ⟨name, v, v', ht, hu⟩) | ⟨ht, v, hu⟩
  · rw [hsame]
  · rw [ht, hu]
    constructor
    · rintro ⟨⟩
      exact absurd rfl hsym
    · rintro ⟨⟩
      exact absurd rfl hsym
  · rw [ht, hu]
    constructor
    · rintro ⟨⟩
      exact absurd rfl hsym
    · rintro ⟨⟩

private theorem lookup?_eq_none (hx : u.lookup? x = none) : t.lookup? x = none := by
  rcases h.lookup? x with (hsame | ⟨_, _, _, _, hu⟩) | ⟨hnone, -⟩
  · rw [← hsame, hx]
  · cases hx.symm.trans hu
  · exact hnone

/-- A variable is bound in the innermost scope. -/
theorem declare
    (hx : Symbol.Kept (t.current.find? x) (some ⟨x, .variable, v⟩) ∨ t.lookup? x = none ∧ A x) :
    t.Extends A (u.declare ⟨x, .variable, v⟩) := by
  refine ⟨h.kind, h.stack, h.outer, fun y => ?_⟩
  have hfind := Scope.find?_insert u.current ⟨x, .variable, v⟩ y
  rw [Table.declare, hfind]
  split
  · next hy =>
    subst hy
    exact hx.imp_right fun hnew => ⟨hnew.1, hnew.2, v, rfl⟩
  · exact h.current y

/-- A variable is given another value where it is bound. -/
theorem update (hx : u.lookup? x = some ⟨name, .variable, v⟩) (v' : SymbolValue) :
    t.Extends A (u.update ⟨x, .variable, v'⟩) := by
  rw [lookup?_eq_or] at hx
  rw [update_eq]
  cases hfind : u.current.find? x with
  | some sym =>
    rw [hfind] at hx
    cases hx
    obtain rfl : name = x := Scope.name_of_find? hfind
    rw [Option.isSome_some, if_pos rfl]
    refine h.declare ((h.current name).imp (fun hkept => ?_) fun hnew => ⟨hnew.1, hnew.2.1⟩)
    exact (hfind ▸ hkept).value v'
  | none =>
    rw [hfind, Option.none_or, h.kind] at hx
    rw [Option.isSome_none, if_neg Bool.false_ne_true, h.kind]
    exact ⟨h.kind, h.stack, h.outer.updateIn hx v', h.current⟩

/-- Recording names that are assigned extends a table. -/
theorem recordAssigned (o : Occurrences) : t.Extends A (Session.recordAssigned u o) := by
  unfold Session.recordAssigned
  generalize o.names = names
  induction names generalizing u with
  | nil => exact h
  | cons name names ih =>
    rw [List.foldl_cons]
    apply ih
    split
    · next hlookup => exact h.update hlookup _
    · exact h

/-- Binding names that are assigned extends a table by them. -/
theorem bindAssigned {steps : List Step}
    (hsteps : ∀ name, .assign name ∈ Step.instrs steps → A name) :
    t.Extends A (Session.bindAssigned u steps) := by
  unfold Session.bindAssigned
  induction steps generalizing u with
  | nil => exact h
  | cons s steps ih =>
    rw [List.foldl_cons]
    refine ih ?_ fun name hname => hsteps name (List.mem_cons_of_mem _ hname)
    split
    · next name hname =>
      split
      · exact h
      · next hnone =>
        have hA : A name := hsteps name (hname ▸ List.mem_cons_self)
        exact h.declare (.inr ⟨h.lookup?_eq_none (by simpa using hnone), hA⟩)
    · exact h

end Extends

end Table

end NamedStack
