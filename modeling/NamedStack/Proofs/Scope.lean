import NamedStack.Proofs.Named.Meaning
import NamedStack.Resolve.Session

/-!
# Names of a program without functions

The table of such a program has one scope. It knows the names of the initial stack from the start
and the names of writes from the first context on; what it knows of a name is kept by what happens
to the table afterwards.
-/

namespace NamedStack

/-! ### Looking up -/

namespace Scope

/-- The symbol that was put in, or the one from before. -/
theorem find?_insert (s : Scope) (sym : Symbol) (x : Name) :
    (s.insert sym).find? x = if x = sym.name then some sym else s.find? x := by
  unfold find? insert
  induction s.symbols with
  | nil => simp [insertInto, eq_comm]
  | cons a rest ih =>
    rw [insertInto]
    by_cases ha : a.name = sym.name
    · rw [if_pos ha]
      by_cases hx : x = sym.name
      · simp [hx]
      · rw [if_neg hx, List.find?_cons_of_neg (by simpa using fun h => hx h.symm),
          List.find?_cons_of_neg (by simpa [ha] using fun h => hx h.symm)]
    · rw [if_neg ha]
      by_cases hx : a.name = x
      · have hne : x ≠ sym.name := fun h => ha (hx.trans h)
        rw [if_neg hne, List.find?_cons_of_pos (by simpa using hx),
          List.find?_cons_of_pos (by simpa using hx)]
      · rw [List.find?_cons_of_neg (by simpa using hx), List.find?_cons_of_neg (by simpa using hx)]
        exact ih

private theorem find?_declare (names : List (Name × Nat)) (f : Nat → SymbolValue) (s : Scope)
    (x : Name) :
    (names.foldl (fun s p => s.insert ⟨p.1, .stackItem, f p.2⟩) s).find? x = s.find? x ∧
        x ∉ names.map (·.1) ∨
      x ∈ names.map (·.1) ∧ ∃ n,
        (names.foldl (fun s p => s.insert ⟨p.1, .stackItem, f p.2⟩) s).find? x =
          some ⟨x, .stackItem, f n⟩ := by
  induction names generalizing s with
  | nil => exact .inl ⟨rfl, nofun⟩
  | cons p names ih =>
    rw [List.foldl_cons]
    rcases ih (s.insert ⟨p.1, .stackItem, f p.2⟩) with ⟨hfind, hmem⟩ | ⟨hmem, hfind⟩
    · rw [hfind, find?_insert]
      by_cases hx : x = p.1
      · subst hx
        exact .inr ⟨List.mem_cons_self, p.2, if_pos rfl⟩
      · exact .inl ⟨if_neg hx, by simp [hx, hmem]⟩
    · exact .inr ⟨List.mem_cons_of_mem _ hmem, hfind⟩

private theorem stack_declare (names : List (Name × Nat)) (f : Nat → SymbolValue) (s : Scope) :
    (names.foldl (fun s p => s.insert ⟨p.1, .stackItem, f p.2⟩) s).stack = s.stack := by
  induction names generalizing s with
  | nil => rfl
  | cons p names ih => exact ih _

private theorem stack_declareStack (s : Scope) (names : List Name) :
    (s.declareStack names).stack = some names :=
  stack_declare _ (fun i => .place i (names.length - 1 - i)) _

/-- A declared initial stack binds its names, and leaves all others as they are. -/
theorem find?_declareStack (s : Scope) (names : List Name) (x : Name) :
    (s.declareStack names).find? x = s.find? x ∧ x ∉ names ∨
      x ∈ names ∧ ∃ height depth,
        (s.declareStack names).find? x = some ⟨x, .stackItem, .place height depth⟩ := by
  have h := find?_declare names.zipIdx (fun i => .place i (names.length - 1 - i))
    { s with stack := some names } x
  rw [show names.zipIdx.map (·.1) = names from List.zipIdx_map_fst 0 names] at h
  exact h.imp id fun ⟨hmem, n, hn⟩ => ⟨hmem, _, _, hn⟩

end Scope

namespace Table

/-- Without outer scopes only the current one is searched. -/
theorem lookup?_eq (t : Table) (h : t.outer = []) (x : Name) : t.lookup? x = t.current.find? x := by
  rw [lookup?, scopes, h, lookupIn]
  cases t.current.find? x <;> rfl

/-- The symbol that was declared, or the one from before. -/
theorem lookup?_declare (t : Table) (sym : Symbol) (x : Name) :
    (t.declare sym).lookup? x = if x = sym.name then some sym else t.lookup? x := by
  rw [lookup?, scopes, lookupIn,
    show (t.declare sym).current.find? x = _ from Scope.find?_insert t.current sym x]
  by_cases hx : x = sym.name
  · rw [if_pos hx, if_pos hx]
    rfl
  · rw [if_neg hx, if_neg hx]
    rfl

/-! ### What is known -/

/-- What is known of names: the initial stack, that all other names stand for variables, and some
names that do stand for something. -/
structure Knows (t : Table) (stack names : List Name) : Prop where
  outer : t.outer = []
  declared : t.current.stack = some stack
  item : ∀ x ∈ stack, (t.place? x).isSome
  variable_of_lookup : ∀ x ∉ stack, ∀ sym, t.lookup? x = some sym → sym.kind = .variable
  bound : ∀ x ∈ names, (t.lookup? x).isSome

namespace Knows

variable {t : Table} {stack names : List Name}

variable (h : t.Knows stack names)

include h

/-- The initial stack is the one that is known. -/
theorem stack_eq : t.stack = stack := by
  rw [Table.stack, stack?, scopes, stackIn, h.declared]
  rfl

/-- The stack items are the names of the initial stack. -/
theorem isStackItem_iff (x : Name) : Context.isStackItem t x = true ↔ x ∈ stack := by
  unfold Context.isStackItem
  constructor
  · intro hk
    by_contra hx
    cases hl : t.lookup? x with
    | none => rw [hl] at hk; cases hk
    | some sym =>
      rw [hl] at hk
      have := h.variable_of_lookup x hx sym hl
      simp [this] at hk
  · intro hx
    have hplace := h.item x hx
    unfold place? at hplace
    split at hplace
    · next hl => simp [hl]
    · cases hplace

private theorem notMem {x : Name} (hx : ∀ sym, t.lookup? x = some sym → sym.kind = .variable) :
    x ∉ stack := by
  intro hmem
  have hplace := h.item x hmem
  unfold place? at hplace
  split at hplace
  · next hl =>
    cases hx _ hl
  · cases hplace

private theorem declare {x : Name} (hx : ∀ sym, t.lookup? x = some sym → sym.kind = .variable)
    (v : SymbolValue) : (t.declare ⟨x, .variable, v⟩).Knows stack (x :: names) := by
  have hlookup := lookup?_declare t ⟨x, .variable, v⟩
  have hnotMem := h.notMem hx
  refine ⟨h.outer, h.declared, fun y hy => ?_, fun y hy sym hl => ?_, fun y hy => ?_⟩
  · have hne : y ≠ x := fun he => hnotMem (he ▸ hy)
    rw [place?, hlookup, if_neg hne]
    exact h.item y hy
  · rw [hlookup] at hl
    split at hl
    · cases hl
      rfl
    · exact h.variable_of_lookup y hy sym hl
  · rw [hlookup]
    split
    · rfl
    · next hne => exact h.bound y ((List.mem_cons.mp hy).resolve_left hne)

/-- Fewer names are known. -/
theorem mono {names' : List Name} (hsub : ∀ x ∈ names', x ∈ names) : t.Knows stack names' :=
  { h with bound := fun x hx => h.bound x (hsub x hx) }

/-- Binding the names of writes keeps what is known and adds those names. -/
theorem bindAssigned (steps : List Step) :
    (Session.bindAssigned t steps).Knows stack (Named.writes (Step.instrs steps) ++ names) := by
  induction steps generalizing t names with
  | nil => exact h
  | cons s rest ih =>
    rw [Session.bindAssigned, List.foldl_cons]
    cases hi : s.instr with
    | assign x =>
      have hwrites : Named.writes (Step.instrs (s :: rest)) =
          x :: Named.writes (Step.instrs rest) := by
        simp [Named.writes, Step.instrs, hi]
      have hbound : (if (t.lookup? x).isSome then t
          else t.declare ⟨x, .variable, .assigned 0⟩).Knows stack (x :: names) := by
        split
        · next hx => exact { h with bound := by simpa using ⟨hx, h.bound⟩ }
        · next hx =>
          refine h.declare (fun sym hl => ?_) _
          rw [hl] at hx
          exact absurd rfl hx
      refine (ih hbound).mono fun y hy => ?_
      rw [hwrites] at hy
      simpa [or_left_comm] using hy
    | _ =>
      have hwrites : Named.writes (Step.instrs (s :: rest)) = Named.writes (Step.instrs rest) := by
        simp [Named.writes, Step.instrs, hi]
      rw [hwrites]
      exact ih h

private theorem update_eq_declare {sym : Symbol} (hs : (t.lookup? sym.name).isSome) :
    t.update sym = t.declare sym := by
  rw [lookup?_eq t h.outer] at hs
  obtain ⟨old, hold⟩ := Option.isSome_iff_exists.mp hs
  rw [update, scopes, h.outer, updateIn, hold]
  simp only [visible, Bool.not_false, Bool.true_or, if_true]
  rw [Table.declare, ← h.outer]

/-- Recording how often variables are assigned keeps what is known. -/
theorem recordAssigned (o : Occurrences) : (Session.recordAssigned t o).Knows stack names := by
  unfold Session.recordAssigned
  generalize o.names = l
  induction l generalizing t with
  | nil => exact h
  | cons x rest ih =>
    rw [List.foldl_cons]
    refine ih ?_
    split
    · next hl =>
      rw [h.update_eq_declare (by rw [hl]; rfl)]
      refine (h.declare (fun sym hsym => ?_) _).mono fun y hy => List.mem_cons_of_mem _ hy
      cases hl.symm.trans hsym
      rfl
    · exact h

end Knows

/-- The names that were declared are the stack. -/
theorem stack_declareStack (t : Table) (names : List Name) :
    (t.declareStack names).stack = names := by
  have hstack := Scope.stack_declareStack t.current names
  simp only [stack, stack?, stackIn, scopes, declareStack, hstack]
  rfl

/-- The stack of the table is that of the program. -/
theorem stack_ofProgram (p : Program) : (ofProgram p).stack = p.stack := by
  have hdeclare (fs : List Function) (t : Table) :
      (fs.foldl (fun t f => t.declare ⟨f.name, .function, .definition f.params f.body⟩) t).stack =
        t.stack := by
    induction fs generalizing t with
    | nil => rfl
    | cons f fs ih => exact ih _
  rw [ofProgram, hdeclare, stack_declareStack]

/-- The table of a program without functions. -/
theorem knows_ofProgram {p : Program} (hp : p.functions = []) : (ofProgram p).Knows p.stack [] := by
  have ht : ofProgram p = ({} : Table).declareStack p.stack := by
    rw [ofProgram, hp]
    rfl
  have hlookup (x : Name) : (ofProgram p).lookup? x =
      (Scope.declareStack { kind := .general } p.stack).find? x := by
    rw [ht]
    exact lookup?_eq _ rfl x
  have hfind := Scope.find?_declareStack { kind := .general } p.stack
  refine ⟨by rw [ht]; rfl, by rw [ht]; exact Scope.stack_declareStack .., fun x hx => ?_,
    fun x hx sym hl => ?_, nofun⟩
  · rcases hfind x with ⟨-, hnot⟩ | ⟨-, height, depth, hn⟩
    · exact absurd hx hnot
    · rw [place?, hlookup, hn]
      rfl
  · rcases hfind x with ⟨hn, -⟩ | ⟨hmem, -⟩
    · rw [hlookup, hn] at hl
      cases hl
    · exact absurd hmem hx

end Table

end NamedStack
