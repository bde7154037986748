import NamedStack.Proofs.Resolve.Capture

/-!
# Tables that look alike from inside of an inner script

Of the program around it an inner script sees nothing but functions. Two tables are alike if they
have the same scopes up to that of an inner script, and the same functions can be seen around it. No
lookup and no change that is made while a program is resolved tells alike tables apart, and neither
does the context of a program or the expansion of a call.
-/

namespace NamedStack

namespace Table

variable {t u : Table} {a b : List Scope} {sym : Symbol}

/-! ### Tables that look alike from inside -/

/-- What a name refers to inside of an inner script: a function, or nothing. -/
def function? (t : Table) (name : Name) : Option Symbol := lookupIn name true t.scopes

/-- The same scopes up to that of an inner script, and around it scopes in which the same functions
can be seen. -/
inductive ScopesAlike : List Scope → List Scope → Prop
  | inner {s : Scope} {a b : List Scope} (hs : s.kind = .innerScript)
      (h : ∀ name, lookupIn name true a = lookupIn name true b) : ScopesAlike (s :: a) (s :: b)
  | cons {a b : List Scope} (s : Scope) (h : ScopesAlike a b) : ScopesAlike (s :: a) (s :: b)

/-- Whether no difference between tables can be seen from inside of an inner script. -/
def Alike (t u : Table) : Prop := ScopesAlike t.scopes u.scopes

namespace ScopesAlike

/-- A name is found in both or in neither. -/
theorem lookupIn_eq (h : ScopesAlike a b) (name : Name) (hidden : Bool) :
    lookupIn name hidden a = lookupIn name hidden b := by
  induction h generalizing hidden with
  | inner hs h => simp [lookupIn, hs, h]
  | cons s h ih => simp [lookupIn, ih]

/-- The initial stack is the same. -/
theorem stackIn_eq (h : ScopesAlike a b) : stackIn a = stackIn b := by
  induction h with
  | inner hs h => simp [stackIn, hs]
  | cons s h ih => simp [stackIn, ih]

/-- A binding is exchanged in a scope that both have, unless it is one of a function. -/
theorem updateIn (h : ScopesAlike a b) {hidden : Bool} {old : Symbol}
    (hold : lookupIn sym.name hidden a = some old) (hkind : old.kind ≠ .function) :
    ScopesAlike (updateIn sym hidden a) (Table.updateIn sym hidden b) := by
  induction h generalizing hidden with
  | @inner s a b hs h =>
    have hhidden : (hidden || decide (s.kind = .innerScript)) = true := by simp [hs]
    have hfurther : lookupIn sym.name true a ≠ some old := fun h => hkind (kind_of_lookupIn h)
    simp only [lookupIn, Table.updateIn, hhidden] at hold ⊢
    cases hfind : s.find? sym.name with
    | none =>
      rw [hfind] at hold
      exact absurd hold hfurther
    | some found =>
      simp only [hfind] at hold
      by_cases hvisible : visible hidden found = true
      · simp only [if_pos hvisible]
        exact .inner hs h
      · rw [if_neg hvisible] at hold
        exact absurd hold hfurther
  | cons s h ih =>
    simp only [lookupIn, Table.updateIn] at hold ⊢
    cases hfind : s.find? sym.name with
    | none =>
      rw [hfind] at hold
      exact .cons s (ih hold)
    | some found =>
      simp only [hfind] at hold
      by_cases hvisible : visible hidden found = true
      · simp only [if_pos hvisible]
        exact .cons _ h
      · rw [if_neg hvisible] at hold
        simp only [if_neg hvisible]
        exact .cons s (ih hold)

end ScopesAlike

namespace Alike

variable (h : t.Alike u)

include h

/-- Names refer to the same. -/
theorem lookup?_eq : t.lookup? = u.lookup? :=
  funext fun name => h.lookupIn_eq name false

/-- The initial stack is the same. -/
theorem stack?_eq : t.stack? = u.stack? := h.stackIn_eq

/-- Items of the initial stack have the same places. -/
theorem place?_eq : t.place? = u.place? := by
  funext name
  rw [place?, place?, h.lookup?_eq]

/-- A new binding goes to a scope that both have. -/
theorem declare (sym : Symbol) : (t.declare sym).Alike (u.declare sym) := by
  obtain ⟨c, outer⟩ := t
  obtain ⟨c', outer'⟩ := u
  cases h with
  | inner hs h => exact .inner hs h
  | cons _ h => exact .cons _ h

/-- So does one that is exchanged, unless it is one of a function. -/
theorem update {old : Symbol} (hold : t.lookup? sym.name = some old)
    (hkind : old.kind ≠ .function) : (t.update sym).Alike (u.update sym) := by
  unfold Alike
  rw [scopes_update, scopes_update]
  exact h.updateIn hold hkind

/-- Names that a program assigns are bound in both. -/
theorem bindAssigned (steps : List Step) :
    (Session.bindAssigned t steps).Alike (Session.bindAssigned u steps) := by
  unfold Session.bindAssigned
  induction steps generalizing t u with
  | nil => exact h
  | cons s steps ih =>
    rw [List.foldl_cons, List.foldl_cons]
    apply ih
    split
    · rw [h.lookup?_eq]
      split
      · exact h
      · exact h.declare _
    · exact h

/-- What is assigned is recorded in both. -/
theorem recordAssigned (o : Occurrences) :
    (Session.recordAssigned t o).Alike (Session.recordAssigned u o) := by
  unfold Session.recordAssigned
  generalize o.names = names
  induction names generalizing t u with
  | nil => exact h
  | cons name names ih =>
    rw [List.foldl_cons, List.foldl_cons]
    apply ih
    rw [← h.lookup?_eq]
    split
    · next hlookup => exact h.update hlookup (by simp)
    · exact h

end Alike

/-- Around an inner script only functions matter. -/
theorem alike_inner (h : ∀ name, t.function? name = u.function? name) :
    ((t.enter .innerScript).declareStack []).Alike ((u.enter .innerScript).declareStack []) :=
  .inner rfl h

/-- The same functions can be seen from further inside. -/
theorem Alike.function?_eq (h : t.Alike u) (name : Name) : t.function? name = u.function? name :=
  h.lookupIn_eq name true

end Table

/-! ### Contexts and calls -/

/-- A program has the same context in both. -/
theorem Context.of_congr {t u : Table} (h : t.Alike u) (o : Options) (steps : List Step) :
    Context.of t o steps = Context.of u o steps := by
  have hitem : isStackItem t = isStackItem u := by
    funext name
    rw [isStackItem, isStackItem, h.lookup?_eq]
  have hassumed : assumed? t = assumed? u := by
    funext i
    cases i <;> simp [assumed?, hitem]
  have hread : variableRead? t = variableRead? u := by
    funext i
    cases i <;> simp [variableRead?, hitem]
  have hstack : t.stack = u.stack := by rw [Table.stack, Table.stack, h.stack?_eq]
  have hundeclared : undeclared? t = undeclared? u := by
    funext reads r
    rw [undeclared?, undeclared?, undeclared, undeclared, h.place?_eq]
  rw [Context.of, Context.of, hassumed, hread, hstack, hundeclared]

/-- The same values need slots. -/
theorem Context.routing_congr {t u : Table} (h : t.Alike u) (ctx : Context) (o : Options) :
    ctx.routing t o = ctx.routing u o := by
  rw [routing, routing, routedAssumptions, routedAssumptions, h.place?_eq]

namespace Expand

variable {t u : Table}

/-- The expansion of a call depends on the functions that can be seen, not on how many others there
are. -/
theorem call_congr (h : t.Alike u) : call t = call u := by
  have hlookup (x : Name) : t.lookup? x = u.lookup? x := congrFun h.lookup?_eq x
  funext g
  exact callIn_eq_of_needs (.refl _ t) (fun x => .inl (hlookup x).symm) (expanding_nil t)
    (expanding_nil u) (fun _ _ => Iff.rfl) fun x _ => hlookup x

end Expand

end NamedStack
