import NamedStack.Proofs.Resolve.Failures
import NamedStack.Proofs.Resolve.Measure
import NamedStack.Proofs.Resolve.Parameters

/-!
# How far the expansion of a call goes

A function that is being expanded is not expanded again, so calls are nested no deeper than there
are functions, and the expansion of a call always comes to an end. What stands in its place has only
the calls of its arguments left in it, and inner scripts are nested in it no deeper than the bodies
of functions and the arguments allow.
-/

namespace NamedStack

/-! ### Functions in a table -/

/-- The function that a binding defines, by name and body. -/
def Symbol.definition? (sym : Symbol) : Option (Name × List Instr) :=
  match sym.kind, sym.value with
  | .function, .definition _ body => some (sym.name, body)
  | _, _ => none

private theorem Symbol.definition?_of_kind {sym : Symbol} (h : sym.kind ≠ .function) :
    sym.definition? = none := by
  unfold definition?
  split
  · next hkind _ => exact absurd hkind h
  · rfl

namespace Scope

/-- The functions that a scope defines. -/
def definitions (s : Scope) : List (Name × List Instr) := s.symbols.filterMap Symbol.definition?

/-- A binding that defines no function, put in place of no function, leaves the functions. -/
theorem definitions_insert {s : Scope} {sym : Symbol} (hsym : sym.definition? = none)
    (hold : ∀ old, s.find? sym.name = some old → old.definition? = none) :
    (s.insert sym).definitions = s.definitions := by
  unfold definitions insert
  unfold find? at hold
  dsimp only
  generalize s.symbols = symbols at hold ⊢
  induction symbols with
  | nil => simp [insertInto, hsym]
  | cons a rest ih =>
    rw [insertInto]
    by_cases ha : a.name = sym.name
    · have hnone := hold a (List.find?_cons_of_pos (by simpa using ha))
      rw [if_pos ha, List.filterMap_cons_none hsym, List.filterMap_cons_none hnone]
    · rw [List.find?_cons_of_neg (by simpa using ha)] at hold
      rw [if_neg ha, List.filterMap_cons, List.filterMap_cons, ih hold]

end Scope

namespace Table

variable {t : Table} {sym : Symbol}

/-- The functions that a table knows. -/
def definitions (t : Table) : List (Name × List Instr) := t.scopes.flatMap Scope.definitions

/-- The bodies are those of the definitions. -/
theorem bodies_eq (t : Table) : Expand.bodies t = t.definitions.map (·.2) := by
  have hscope (s : Scope) : s.definitions.map (·.2) = s.symbols.filterMap fun sym =>
      match sym.kind, sym.value with
      | .function, .definition _ body => some body
      | _, _ => none := by
    rw [Scope.definitions, List.map_filterMap]
    congr 1
    funext sym
    unfold Symbol.definition?
    split <;> rfl
  rw [definitions, List.map_flatMap, Expand.bodies]
  congr 1
  funext s
  exact (hscope s).symm

variable {name : Name} {params : List Name} {args : List (List Instr)}

/-- What a name refers to is bound in one of the scopes. -/
theorem exists_of_lookup? (h : t.lookup? name = some sym) :
    ∃ sc ∈ t.scopes, sc.find? name = some sym := by
  have hlookup (l : List Scope) (hidden : Bool) (h : lookupIn name hidden l = some sym) :
      ∃ sc ∈ l, sc.find? name = some sym := by
    induction l generalizing hidden with
    | nil => cases h
    | cons sc l ih =>
      have hrest (h : lookupIn name (hidden || sc.kind = .innerScript) l = some sym) :
          ∃ sc' ∈ sc :: l, sc'.find? name = some sym :=
        (ih _ h).imp fun sc' hsc' => ⟨List.mem_cons_of_mem _ hsc'.1, hsc'.2⟩
      rw [lookupIn] at h
      split at h
      · next found hfound =>
        split at h
        · cases h
          exact ⟨sc, List.mem_cons_self, hfound⟩
        · exact hrest h
      · exact hrest h
  exact hlookup t.scopes false h

/-- A function that is found is defined. -/
theorem mem_definitions {body : List Instr} {sname : Name}
    (h : t.lookup? name = some ⟨sname, .function, .definition params body⟩) :
    (name, body) ∈ t.definitions := by
  obtain ⟨sc, hsc, hfind⟩ := exists_of_lookup? h
  unfold Scope.find? at hfind
  have hname : sname = name := by simpa using List.find?_some hfind
  refine List.mem_flatMap.mpr
    ⟨sc, hsc, List.mem_filterMap.mpr ⟨_, List.mem_of_find?_eq_some hfind, ?_⟩⟩
  rw [← hname]
  rfl

private theorem definitions_declare (hsym : sym.kind ≠ .function)
    (hold : ∀ old, t.current.find? sym.name = some old → old.kind ≠ .function) :
    (t.declare sym).definitions = t.definitions := by
  have hinsert := Scope.definitions_insert (Symbol.definition?_of_kind hsym) fun old h =>
    Symbol.definition?_of_kind (hold old h)
  exact congrArg (· ++ t.outer.flatMap Scope.definitions) hinsert

private theorem definitions_update (hsym : sym.kind ≠ .function)
    (hold : ∀ old, t.lookup? sym.name = some old → old.kind ≠ .function) :
    (t.update sym).definitions = t.definitions := by
  have hupdate (l : List Scope) (hidden : Bool)
      (hold : ∀ old, lookupIn sym.name hidden l = some old → old.kind ≠ .function) :
      (updateIn sym hidden l).flatMap Scope.definitions = l.flatMap Scope.definitions := by
    induction l generalizing hidden with
    | nil => rfl
    | cons s rest ih =>
      rw [lookupIn] at hold
      rw [updateIn]
      split
      · next old hfind =>
        rw [hfind] at hold
        split
        · next hvisible =>
          simp only [hvisible, if_true, Option.some.injEq, forall_eq'] at hold
          rw [List.flatMap_cons, List.flatMap_cons]
          congr 1
          refine Scope.definitions_insert (Symbol.definition?_of_kind hsym) fun old' h => ?_
          rw [hfind] at h
          cases h
          exact Symbol.definition?_of_kind hold
        · next hvisible =>
          simp only [hvisible, if_false, Bool.false_eq_true] at hold
          rw [List.flatMap_cons, List.flatMap_cons, ih _ hold]
      · next hfind =>
        rw [hfind] at hold
        rw [List.flatMap_cons, List.flatMap_cons, ih _ hold]
  have hscopes := hupdate t.scopes false hold
  unfold Table.update
  split
  · rfl
  · next hl =>
    rw [hl] at hscopes
    exact hscopes

/-- Binding names that are assigned defines no function. -/
theorem definitions_bindAssigned (t : Table) (steps : List Step) :
    (Session.bindAssigned t steps).definitions = t.definitions := by
  unfold Session.bindAssigned
  induction steps generalizing t with
  | nil => rfl
  | cons s steps ih =>
    rw [List.foldl_cons, ih]
    split
    · next name _ =>
      split
      · rfl
      · next hlookup =>
        refine definitions_declare nofun fun old hold => ?_
        -- a name that is bound in the innermost scope is found
        rw [lookup?, scopes, lookupIn, hold] at hlookup
        exact absurd rfl hlookup
    · rfl

/-- Recording names that are assigned defines no function. -/
theorem definitions_recordAssigned (t : Table) (o : Occurrences) :
    (Session.recordAssigned t o).definitions = t.definitions := by
  unfold Session.recordAssigned
  generalize o.names = names
  induction names generalizing t with
  | nil => rfl
  | cons name names ih =>
    rw [List.foldl_cons, ih]
    split
    · next hlookup =>
      refine definitions_update nofun fun old hold => ?_
      rw [hlookup] at hold
      cases hold
      exact nofun
    · rfl

/-- What the scope of a function has, and each parameter keeps, holds inside of the function. -/
theorem bind_induction {P : Table → Prop} (henter : P (t.enter .function))
    (hdeclare : ∀ u, P u → ∀ x, ∀ ops ∈ args, P (u.declare ⟨x, .argument, .content ops⟩)) :
    P (Expand.bind t params args) :=
  List.foldlRecOn (motive := P) _ _ henter fun u hu p hp =>
    hdeclare u hu p.1 p.2 (List.of_mem_zip hp).2

/-- Inside of a function the same functions are known. -/
theorem definitions_bind (t : Table) (params : List Name) (args : List (List Instr)) :
    (Expand.bind t params args).definitions = t.definitions := by
  refine (bind_induction (P := fun u => u.definitions = t.definitions ∧
    ∀ x old, u.current.find? x = some old → old.kind ≠ .function) ⟨rfl, ?_⟩ ?_).1
  · intro x old hold
    cases hold
  rintro u ⟨hu, hkind⟩ name ops -
  refine ⟨(definitions_declare (by simp) (hkind name)).trans hu, fun x old hold => ?_⟩
  have hfind := (Scope.find?_insert u.current _ x).symm.trans hold
  split at hfind
  · cases hfind
    exact nofun
  · exact hkind x old hfind

/-- Whether all arguments that names stand for have a property. -/
def Contents (P : List Instr → Prop) (t : Table) : Prop :=
  ∀ ⦃x sname ops⦄, t.lookup? x = some ⟨sname, .argument, .content ops⟩ → P ops

private theorem ParameterFree.contents (h : t.ParameterFree) (P : List Instr → Prop) :
    t.Contents P :=
  fun _ _ _ hx => absurd rfl (h hx)

/-- Inside of a function its parameters stand for arguments. -/
theorem Contents.bind {P : List Instr → Prop} (h : t.Contents P) (params : List Name)
    (hargs : ∀ ops ∈ args, P ops) : (Expand.bind t params args).Contents P := by
  refine bind_induction (P := Contents P) h fun u hu name ops hops x sname ops' hx => ?_
  rw [lookup?_declare] at hx
  split at hx
  · cases hx
    exact hargs ops hops
  · exact hu hx

end Table

namespace Expand

open NamedStack.Measure

variable {d h m n : Nat} {t : Table}

/-- Whether calls and inner scripts are nested in a program no deeper than so. -/
structure Fits (d h m : Nat) (ops : List Instr) : Prop where
  height : callHeightList ops ≤ h
  nesting : nestingList d ops ≤ m

namespace Fits

variable {ops : List Instr} {m' : Nat}

private theorem mono (hops : Fits d h m ops) (hm : m ≤ m') : Fits d h m' ops :=
  ⟨hops.height, hops.nesting.trans hm⟩

private theorem nil : Fits d h m [] := ⟨Nat.zero_le _, Nat.zero_le _⟩

private theorem singleton {i : Instr} (hheight : callHeight i = 0)
    (hnesting : Measure.nesting d i ≤ m) : Fits d h m [i] := by
  constructor
  · simp [callHeightList, hheight]
  · simpa [nestingList] using hnesting

private theorem append {a b : List Instr} (ha : Fits d h m a) (hb : Fits d h m b) :
    Fits d h m (a ++ b) := by
  constructor
  · exact callHeightList_le_iff.mpr (List.forall_mem_append.mpr
      ⟨callHeightList_le_iff.mp ha.height, callHeightList_le_iff.mp hb.height⟩)
  · exact nestingList_le_iff.mpr (List.forall_mem_append.mpr
      ⟨nestingList_le_iff.mp ha.nesting, nestingList_le_iff.mp hb.nesting⟩)

end Fits

/-- Whether calls of arguments that are nested at least so deep add at most so many levels. -/
def Adds (d h n m : Nat) (call : CallResult) : Prop :=
  ∀ m' ≥ m, ∀ name args, (∀ ops ∈ args, Fits d h m' ops) →
    Gives (call name args) (Fits d h (n + m'))

mutual

/-- What an instruction of a body gives way to. -/
theorem gives_substitute {call : CallResult} (hcall : Adds d h n m call)
    (ht : t.Contents (Fits d h m)) :
    ∀ i : Instr, Gives (substitute t call i) (Fits d h (nesting n i + m))
  | .var name => by
    unfold substitute
    split
    · next hlookup => exact (ht hlookup).mono (Nat.le_add_left _ _)
    · exact nofun
    · exact .singleton rfl (Nat.zero_le _)
  | .call name args => by
    refine (gives_substituteBlocks hcall ht args).bind fun args' hargs' => ?_
    refine (hcall _ (Nat.le_add_left _ _) name args' hargs').mono fun out hout => hout.mono ?_
    rw [nesting]
    omega
  | .inner ops => by
    refine (gives_substituteList hcall ht ops).bind fun ops' hops' => .singleton rfl ?_
    have hnesting := hops'.nesting
    rw [nesting, nesting]
    omega
  | .op o => .singleton rfl (Nat.zero_le _)
  | .push data => .singleton rfl (Nat.zero_le _)
  | .assume name => .singleton rfl (Nat.zero_le _)
  | .assign name => .singleton rfl (Nat.zero_le _)

/-- What a body gives way to. -/
theorem gives_substituteList {call : CallResult} (hcall : Adds d h n m call)
    (ht : t.Contents (Fits d h m)) : ∀ ops : List Instr,
    Gives (substituteList t call ops) (Fits d h (nestingList n ops + m))
  | [] => .nil
  | i :: rest => by
    refine (gives_substitute hcall ht i).bind fun front hfront => ?_
    refine (gives_substituteList hcall ht rest).bind fun back hback => ?_
    have hmax : nestingList n (i :: rest) = max (nesting n i) (nestingList n rest) := rfl
    exact (hfront.mono (by omega)).append (hback.mono (by omega))

/-- What arguments in a body give way to. -/
theorem gives_substituteBlocks {call : CallResult} (hcall : Adds d h n m call)
    (ht : t.Contents (Fits d h m)) : ∀ blocks : List (List Instr),
    Gives (substituteBlocks t call blocks)
      fun out => ∀ ops ∈ out, Fits d h (nestingBlocks n blocks + m) ops
  | [] => nofun
  | ops :: rest => by
    refine (gives_substituteList hcall ht ops).bind fun front hfront => ?_
    refine (gives_substituteBlocks hcall ht rest).bind fun back hback => ?_
    have hmax : nestingBlocks n (ops :: rest) = max (nestingList n ops) (nestingBlocks n rest) :=
      rfl
    refine List.forall_mem_cons.mpr ⟨hfront.mono (by omega), fun ops' hops' => ?_⟩
    exact (hback ops' hops').mono (by omega)

end

/-- Whether functions are being expanded that are all different, and so many others are left. -/
structure Expanding (t : Table) (calling : List Name) (k : Nat) : Prop where
  nodup : calling.Nodup
  defined : ∀ name ∈ calling, name ∈ t.definitions.map (·.1)
  left : calling.length + k = t.definitions.length

variable {calling : List Name} {k : Nat}

/-- A function that can still be expanded is one of those that are left. -/
theorem Expanding.exists_succ (h : Expanding t calling k) {name : Name}
    (hname : name ∈ t.definitions.map (·.1)) (hnew : name ∉ calling) :
    ∃ j, k = j + 1 ∧ Expanding t (name :: calling) j := by
  have hnodup : (name :: calling).Nodup := List.nodup_cons.mpr ⟨hnew, h.nodup⟩
  have hdefined : ∀ x ∈ name :: calling, x ∈ t.definitions.map (·.1) :=
    List.forall_mem_cons.mpr ⟨hname, h.defined⟩
  have hle := (hnodup.subperm hdefined).length_le
  have hleft := h.left
  rw [List.length_cons, List.length_map] at hle
  obtain ⟨j, rfl⟩ : ∃ j, k = j + 1 := ⟨k - 1, by omega⟩
  exact ⟨j, rfl, hnodup, hdefined, by rw [List.length_cons]; omega⟩

variable {t' : Table}

/-- Only the functions of the table matter. -/
theorem Expanding.congr (h : Expanding t calling k) (hsame : t'.definitions = t.definitions) :
    Expanding t' calling k :=
  ⟨h.nodup, hsame ▸ h.defined, hsame ▸ h.left⟩

/-- At first all functions are left. -/
theorem expanding_nil (t : Table) : Expanding t [] (bodies t).length := by
  refine ⟨List.nodup_nil, List.forall_mem_nil _, ?_⟩
  rw [Table.bodies_eq, List.length_map, List.length_nil, Nat.zero_add]

/-- The expansion of a call ends, with the calls of its arguments left and no more levels than the
functions that are left have. -/
theorem adds_callIn (hcalling : Expanding t calling k) (ht : t.Contents (Fits d h m)) :
    Adds d h (bodyNesting (bodies t) k) m (callIn (k + 1) t calling) := by
  induction k using Nat.strong_induction_on generalizing t calling m with
  | _ k ih =>
    intro m' hm name args hargs
    rw [callIn]
    split
    · exact nofun
    · next params body hlookup =>
      have hdefined := Table.mem_definitions hlookup
      split
      · exact nofun
      · split
        · exact nofun
        · next hnew =>
          obtain ⟨j, rfl, hcalling'⟩ :=
            hcalling.exists_succ (List.mem_map_of_mem hdefined) (by simpa using hnew)
          have hcontents : t.Contents (Fits d h m') := fun _ _ _ hx => (ht hx).mono hm
          have hsame := Table.definitions_bind t params args
          have hinside := hcontents.bind params hargs
          have hbodies : bodies (Expand.bind t params args) = bodies t := by
            rw [Table.bodies_eq, Table.bodies_eq, hsame]
          have hcalls := ih j (Nat.lt_succ_self j) (hcalling'.congr hsame) hinside
          refine (gives_substituteList hcalls hinside body).mono fun out hout => hout.mono ?_
          have hbody : body ∈ bodies t := by
            rw [Table.bodies_eq]
            exact List.mem_map_of_mem hdefined
          have hle := nestingList_le_bodyNesting hbody j
          rw [hbodies]
          omega
    · exact nofun

/-- The number of levels that an expanded call may add. -/
def depth (t : Table) : Nat := bodyNesting (bodies t) (bodies t).length

/-- The depth only needs the definitions. -/
theorem depth_congr (h : t'.definitions = t.definitions) : depth t' = depth t := by
  rw [depth, depth, Table.bodies_eq, Table.bodies_eq, h]

/-- The expansion of a call ends. If no name stands for a parameter then its calls are those of the
arguments, and inner scripts are nested in it no deeper than in the call. -/
theorem gives_call (ht : t.ParameterFree) (name : Name) (args : List (List Instr)) :
    Gives (call t name args)
      (Fits (depth t) (callHeightBlocks args) (nesting (depth t) (.call name args))) := by
  refine adds_callIn (expanding_nil t) (ht.contents _) (nestingBlocks (depth t) args)
    (Nat.le_refl _) name args fun ops hops => ?_
  exact ⟨callHeightBlocks_le_iff.mp (Nat.le_refl _) ops hops,
    nestingBlocks_le_iff.mp (Nat.le_refl _) ops hops⟩

private theorem exists_contents (t : Table) (d h m : Nat) :
    ∃ h' ≥ h, ∃ m' ≥ m, t.Contents (Fits d h' m') := by
  have hlist (l : List Symbol) : ∃ h' ≥ h, ∃ m' ≥ m, ∀ sym ∈ l, ∀ ops,
      sym.value = .content ops → callHeightList ops ≤ h' ∧ nestingList d ops ≤ m' := by
    induction l with
    | nil => exact ⟨h, Nat.le_refl h, m, Nat.le_refl m, List.forall_mem_nil _⟩
    | cons sym l ih =>
      obtain ⟨h', hh, m', hm, hl⟩ := ih
      -- the bounds have to be larger only if the binding has a content
      obtain ⟨h₁, m₁, hsym⟩ : ∃ h₁ m₁, ∀ ops, sym.value = .content ops →
          callHeightList ops ≤ h₁ ∧ nestingList d ops ≤ m₁ := by
        cases sym.value with
        | content ops =>
          refine ⟨callHeightList ops, nestingList d ops, fun ops' hops => ?_⟩
          cases hops
          exact ⟨Nat.le_refl _, Nat.le_refl _⟩
        | _ => exact ⟨0, 0, fun ops hops => by cases hops⟩
      refine ⟨max h' h₁, by omega, max m' m₁, by omega, List.forall_mem_cons.mpr
        ⟨fun ops hops => ?_, fun sym' hsym' ops hops => ?_⟩⟩
      · have := hsym ops hops
        omega
      · have := hl sym' hsym' ops hops
        omega
  obtain ⟨h', hh, m', hm, hall⟩ := hlist (t.scopes.flatMap Scope.symbols)
  refine ⟨h', hh, m', hm, fun x sname ops hx => ?_⟩
  obtain ⟨sc, hsc, hfind⟩ := Table.exists_of_lookup? hx
  have hsym := hall _ (List.mem_flatMap.mpr ⟨sc, hsc, List.mem_of_find?_eq_some hfind⟩) ops rfl
  exact ⟨hsym.1, hsym.2⟩

/-- The expansion of a call ends, whatever names stand for. -/
theorem gives_call_true (t : Table) (name : Name) (args : List (List Instr)) :
    Gives (call t name args) fun _ => True := by
  obtain ⟨h, hh, m, hm, ht⟩ :=
    exists_contents t 0 (callHeightBlocks args) (nestingBlocks 0 args)
  refine (adds_callIn (expanding_nil t) ht m (Nat.le_refl m) name args fun ops hops => ?_).mono
    fun _ _ => trivial
  exact ⟨(callHeightBlocks_le_iff.mp (Nat.le_refl _) ops hops).trans hh,
    (nestingBlocks_le_iff.mp (Nat.le_refl _) ops hops).trans hm⟩

end Expand

end NamedStack
