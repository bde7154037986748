import NamedStack.Proofs.Resolve.Extensions

/-!
# Tables without parameters

Names stand for parameters only inside of a call. The table of a program has none, and none come in
while the program is resolved. From inside of an inner script none can be seen, whatever table is
around it.
-/

namespace NamedStack.Table

/-- Whether no name stands for a parameter. Parameters stand in the scopes that calls open, and
calls close them again; one that stood for a read of itself would be put in its own place without
end. -/
def ParameterFree (t : Table) : Prop :=
  ∀ ⦃name sym⦄, t.lookup? name = some sym → sym.kind ≠ .argument

namespace ParameterFree

variable {t u : Table}

/-- New variables are no parameters. -/
theorem of_extends {A : Name → Prop} (ht : t.ParameterFree) (h : t.Extends A u) :
    u.ParameterFree := by
  intro name sym hsym hkind
  exact ht ((h.lookup?_iff (by rw [hkind]; exact nofun)).mp hsym) hkind

/-- Binding names that are assigned gives no parameter. -/
theorem bindAssigned (h : t.ParameterFree) (steps : List Step) :
    (Session.bindAssigned t steps).ParameterFree :=
  h.of_extends ((Extends.refl (fun _ => True) t).bindAssigned fun _ _ => trivial)

/-- Recording names that are assigned gives no parameter. -/
theorem recordAssigned (h : t.ParameterFree) (o : Occurrences) :
    (Session.recordAssigned t o).ParameterFree :=
  h.of_extends ((Extends.refl (fun _ => True) t).recordAssigned o)

private theorem declare (h : t.ParameterFree) {sym : Symbol} (hsym : sym.kind ≠ .argument) :
    (t.declare sym).ParameterFree := by
  intro name found hfound
  rw [lookup?_declare] at hfound
  split at hfound
  · cases hfound
    exact hsym
  · exact h hfound

end ParameterFree

/-- Inner scripts have a scope of their own, with an empty initial stack. -/
theorem parameterFree_inner (t : Table) :
    ((t.enter .innerScript).declareStack []).ParameterFree := by
  intro name sym hsym hkind
  have hfunction := kind_of_lookupIn (show lookupIn name true t.scopes = some sym from hsym)
  cases hkind.symm.trans hfunction

/-- The table of a program has its initial stack and its functions. -/
theorem parameterFree_ofProgram (p : Program) : (ofProgram p).ParameterFree := by
  have hfunctions (fs : List Function) (t : Table) (ht : t.ParameterFree) :
      (fs.foldl (fun t f => t.declare ⟨f.name, .function, .definition f.params f.body⟩)
        t).ParameterFree := by
    induction fs generalizing t with
    | nil => exact ht
    | cons f fs ih => exact ih _ (ht.declare nofun)
  apply hfunctions
  intro name sym hsym
  rw [lookup?_eq _ rfl] at hsym
  rcases Scope.find?_declareStack { kind := .general } p.stack name with
    ⟨hnone, -⟩ | ⟨-, height, depth, hitem⟩
  · cases hsym.symm.trans hnone
  · cases hsym.symm.trans hitem
    exact nofun

end NamedStack.Table
