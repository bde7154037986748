import NamedStack.Proofs.Resolve.Calls

/-!
# Functions that call themselves

The functions of a table call each other by name, from anywhere in their bodies. Expanding a call
follows every one of these calls, so it succeeds only if none of the functions it comes to leads
back to itself, and it refuses a call as recursive only on the way back to a function that it came
from.
-/

namespace NamedStack

open Relation (ReflTransGen TransGen)

/-! ### Calls in a program -/

mutual

/-- The names that an instruction calls, also in arguments of calls and in inner scripts. -/
def Instr.called : Instr → List Name
  | .call name args => name :: Instr.calledBlocks args
  | .inner ops => Instr.calledList ops
  | _ => []

/-- The names that a program calls. -/
def Instr.calledList : List Instr → List Name
  | [] => []
  | i :: rest => i.called ++ Instr.calledList rest

/-- The names that programs call. -/
def Instr.calledBlocks : List (List Instr) → List Name
  | [] => []
  | ops :: rest => Instr.calledList ops ++ Instr.calledBlocks rest

end

open Instr (called calledList calledBlocks)

private theorem Instr.calledList_append (a b : List Instr) :
    calledList (a ++ b) = calledList a ++ calledList b := by
  induction a with
  | nil => rfl
  | cons i a ih => rw [List.cons_append, calledList, calledList, ih, List.append_assoc]

private theorem Instr.calledBlocks_eq_nil_iff (blocks : List (List Instr)) :
    calledBlocks blocks = [] ↔ ∀ ops ∈ blocks, calledList ops = [] := by
  induction blocks with
  | nil => simp [calledBlocks]
  | cons ops rest ih => simp [calledBlocks, ih]

namespace Table

variable {t inside : Table}

/-- Whether the body of a function calls a name. -/
def Calls (t : Table) (f g : Name) : Prop :=
  ∃ sname params body, t.lookup? f = some ⟨sname, .function, .definition params body⟩ ∧
    g ∈ calledList body

/-! ### Tables inside of functions -/

/-- Whether a table is what another one becomes inside of functions: every name stands for what it
stood for, or for an argument with a property. -/
def Within (P : List Instr → Prop) (t inside : Table) : Prop :=
  ∀ x, inside.lookup? x = t.lookup? x ∨
    ∃ ops, inside.lookup? x = some ⟨x, .argument, .content ops⟩ ∧ P ops

namespace Within

variable {P : List Instr → Prop}

/-- A table outside of functions. -/
theorem refl (P : List Instr → Prop) (t : Table) : t.Within P t := fun _ => .inl rfl

variable (h : t.Within P inside)

include h

private theorem enter (kind : ScopeKind) (hkind : kind ≠ .innerScript) :
    t.Within P (inside.enter kind) := by
  intro x
  have hlookup : (inside.enter kind).lookup? x = inside.lookup? x := by
    simp [lookup?, Table.enter, scopes, lookupIn, Scope.find?, hkind]
  rw [hlookup]
  exact h x

private theorem declare (name : Name) {ops : List Instr} (hops : P ops) :
    t.Within P (inside.declare ⟨name, .argument, .content ops⟩) := by
  intro x
  rw [lookup?_declare]
  by_cases hx : x = name
  · rw [if_pos hx, hx]
    exact .inr ⟨ops, rfl, hops⟩
  · rw [if_neg hx]
    exact h x

/-- Inside of one more function its parameters stand for arguments. -/
theorem bind (params : List Name) {args : List (List Instr)} (hargs : ∀ ops ∈ args, P ops) :
    t.Within P (Expand.bind inside params args) :=
  bind_induction (h.enter .function nofun) fun _ hu x ops hops => hu.declare x (hargs ops hops)

variable {sname x : Name} {v : SymbolValue}

/-- A name that stands for a function is the function of the table. -/
theorem lookup_function (hx : inside.lookup? x = some ⟨sname, .function, v⟩) :
    t.lookup? x = some ⟨sname, .function, v⟩ := by
  rcases h x with hsame | ⟨ops, hops, -⟩
  · rw [← hsame, hx]
  · rw [hx] at hops
    cases hops

/-- A name that stands for an argument stands for its content, if it does so only inside of
functions. -/
theorem lookup_argument (ht : t.ParameterFree)
    (hx : inside.lookup? x = some ⟨sname, .argument, v⟩) : ∃ ops, v = .content ops ∧ P ops := by
  rcases h x with hsame | ⟨ops, hops, hP⟩
  · exact absurd rfl (ht (hsame ▸ hx))
  · rw [hx] at hops
    cases hops
    exact ⟨ops, rfl, hP⟩

end Within

end Table

namespace Expand

variable {t inside : Table}

/-! ### What an expansion comes to -/

/-- Whether a computation has a result with a property, or a problem with one. It has no fault. -/
def Yields {α : Type} (x : Except Failure α) (P : α → Prop) (E : Problem → Prop) : Prop :=
  match x with
  | .ok a => P a
  | .error (.problem p) => E p
  | .error (.fault _) => False

namespace Yields

variable {α β : Type} {x : Except Failure α} {P : α → Prop} {E E' : Problem → Prop}

private theorem bind {Q : β → Prop} {f : α → Except Failure β} (h : Yields x P E)
    (hf : ∀ a, P a → Yields (f a) Q E) : Yields (x >>= f) Q E := by
  cases x with
  | ok a => exact hf a h
  | error e => cases e <;> exact h

private theorem mono (h : Yields x P E) (hE : ∀ p, E p → E' p) : Yields x P E' := by
  cases x with
  | ok a => exact h
  | error e =>
    cases e with
    | problem p => exact hE p h
    | fault f => exact h

end Yields

/-- Whether calls of some names, with arguments that call nothing, come to code that calls nothing
or to a problem with a property. -/
def Handles (call : CallResult) (names : List Name) (E : Problem → Prop) : Prop :=
  ∀ name ∈ names, ∀ args, calledBlocks args = [] →
    Yields (call name args) (fun out => calledList out = []) E

private theorem Handles.mono {call : CallResult} {names names' : List Name} {E : Problem → Prop}
    (h : Handles call names E) (hsub : ∀ name ∈ names', name ∈ names) : Handles call names' E :=
  fun name hname => h name (hsub name hname)

section

variable {call : CallResult} {E : Problem → Prop}

mutual

/-- An instruction of a body comes to code that calls nothing if its calls do. -/
theorem yields_substitute (ht : t.ParameterFree)
    (hin : t.Within (fun ops => calledList ops = []) inside) :
    ∀ i : Instr, Handles call i.called E →
      Yields (substitute inside call i) (fun out => calledList out = []) E
  | .var name, _ => by
    unfold substitute
    split
    · next hlookup =>
      obtain ⟨ops, hops, hfree⟩ := hin.lookup_argument ht hlookup
      cases hops
      exact hfree
    · next hvalue hlookup =>
      obtain ⟨ops, hops, -⟩ := hin.lookup_argument ht hlookup
      exact hvalue ops hops
    · rfl
  | .call name args, h => by
    refine (yields_substituteBlocks ht hin args (h.mono fun g => ?_)).bind fun args' hargs' => ?_
    · exact List.mem_cons_of_mem _
    · exact h name List.mem_cons_self args' hargs'
  | .inner ops, h => by
    refine (yields_substituteList ht hin ops h).bind fun ops' hops' => ?_
    change calledList [Instr.inner ops'] = []
    rw [calledList, called, hops']
    rfl
  | .op o, _ => rfl
  | .push data, _ => rfl
  | .assume name, _ => rfl
  | .assign name, _ => rfl

/-- A body comes to code that calls nothing if its calls do. -/
theorem yields_substituteList (ht : t.ParameterFree)
    (hin : t.Within (fun ops => calledList ops = []) inside) :
    ∀ ops : List Instr, Handles call (calledList ops) E →
      Yields (substituteList inside call ops) (fun out => calledList out = []) E
  | [], _ => rfl
  | i :: rest, h => by
    refine (yields_substitute ht hin i (h.mono fun g => ?_)).bind fun front hfront => ?_
    · exact List.mem_append_left _
    refine (yields_substituteList ht hin rest (h.mono fun g => ?_)).bind fun back hback => ?_
    · exact List.mem_append_right _
    exact (Instr.calledList_append front back).trans (by rw [hfront, hback]; rfl)

/-- Arguments in a body come to code that calls nothing if their calls do. -/
theorem yields_substituteBlocks (ht : t.ParameterFree)
    (hin : t.Within (fun ops => calledList ops = []) inside) :
    ∀ blocks : List (List Instr), Handles call (calledBlocks blocks) E →
      Yields (substituteBlocks inside call blocks) (fun out => calledBlocks out = []) E
  | [], _ => rfl
  | ops :: rest, h => by
    refine (yields_substituteList ht hin ops (h.mono fun g => ?_)).bind fun front hfront => ?_
    · exact List.mem_append_left _
    refine (yields_substituteBlocks ht hin rest (h.mono fun g => ?_)).bind fun back hback => ?_
    · exact List.mem_append_right _
    exact List.append_eq_nil_iff.mpr ⟨hfront, hback⟩

end

end

/-- Whether a problem names a function as called recursively only if the function leads back to
itself and can be reached from another one. -/
def Traces (t : Table) (name : Name) (p : Problem) : Prop :=
  p.kind = .recursiveCall → ∃ g, p.cause = .recursiveCall g ∧
    ReflTransGen t.Calls name g ∧ TransGen t.Calls g g

/-- What can be reached from a function can be reached from what calls it. -/
theorem Traces.of_calls {f g : Name} {p : Problem} (h : Traces t g p) (hcalls : t.Calls f g) :
    Traces t f p := by
  intro hkind
  obtain ⟨c, hc, hreach, hcycle⟩ := h hkind
  exact ⟨c, hc, hreach.head hcalls, hcycle⟩

variable {args : List (List Instr)} {k n : Nat} {name : Name}

/-- The expansion of a call inside of functions that lead to it ends in code that calls nothing, or
in a problem. A function that is called again leads back to itself. -/
theorem yields_callIn (ht : t.ParameterFree) {calling : List Name}
    (hcalling : Expanding t calling k) (hin : t.Within (fun ops => calledList ops = []) inside)
    (hchain : ∀ f ∈ calling, TransGen t.Calls f name) (hargs : calledBlocks args = []) :
    Yields (callIn (k + 1) inside calling name args) (fun out => calledList out = [])
      (Traces t name) := by
  induction k using Nat.strong_induction_on generalizing inside calling name args with
  | _ k ih =>
    rw [callIn]
    split
    · intro hkind
      cases hkind
    · next params body hlookup =>
      split
      · intro hkind
        cases hkind
      · split
        · next hagain =>
          have hmem : name ∈ calling := by simpa using hagain
          exact fun _ => ⟨name, rfl, .refl, hchain name hmem⟩
        · next hnew =>
          have hdefined := hin.lookup_function hlookup
          obtain ⟨j, rfl, hcalling'⟩ := hcalling.exists_succ
            (List.mem_map_of_mem (Table.mem_definitions hdefined)) (by simpa using hnew)
          have hbind := hin.bind params ((Instr.calledBlocks_eq_nil_iff args).mp hargs)
          refine yields_substituteList ht hbind body fun g hg args' hargs' => ?_
          have hcalls : t.Calls name g := ⟨_, params, body, hdefined, hg⟩
          refine (ih j (Nat.lt_succ_self j) hcalling' hbind (fun f hf => ?_) hargs').mono
            fun p hp => hp.of_calls hcalls
          rcases List.mem_cons.mp hf with rfl | hf
          · exact .single hcalls
          · exact (hchain f hf).tail hcalls
    · intro hkind
      cases hkind

/-! ### Every call is followed -/

section

variable {call : CallResult}

mutual

/-- An instruction is expanded only if all its calls are. -/
theorem exists_ok_of_substitute : ∀ (i : Instr) (out : List Instr),
    substitute inside call i = .ok out → ∀ g ∈ i.called, ∃ args out', call g args = .ok out'
  | .call name args, out, h, g, hg => by
    obtain ⟨args', hargs', hcall⟩ := Engine.bind_eq_ok_iff.mp h
    rcases List.mem_cons.mp hg with rfl | hg
    · exact ⟨args', out, hcall⟩
    · exact exists_ok_of_substituteBlocks args args' hargs' g hg
  | .inner ops, out, h, g, hg => by
    obtain ⟨ops', hops', -⟩ := Engine.bind_eq_ok_iff.mp h
    exact exists_ok_of_substituteList ops ops' hops' g hg
  | .op _, _, _, _, hg | .push _, _, _, _, hg | .assume _, _, _, _, hg | .assign _, _, _, _, hg
  | .var _, _, _, _, hg => absurd hg List.not_mem_nil

/-- A body is expanded only if all its calls are. -/
theorem exists_ok_of_substituteList : ∀ (ops out : List Instr),
    substituteList inside call ops = .ok out →
      ∀ g ∈ calledList ops, ∃ args out', call g args = .ok out'
  | [], _, _, _, hg => absurd hg List.not_mem_nil
  | i :: rest, out, h, g, hg => by
    obtain ⟨front, hfront, hrest⟩ := Engine.bind_eq_ok_iff.mp h
    obtain ⟨back, hback, -⟩ := Engine.bind_eq_ok_iff.mp hrest
    rcases List.mem_append.mp hg with hg | hg
    · exact exists_ok_of_substitute i front hfront g hg
    · exact exists_ok_of_substituteList rest back hback g hg

/-- Arguments are expanded only if all their calls are. -/
theorem exists_ok_of_substituteBlocks : ∀ blocks out : List (List Instr),
    substituteBlocks inside call blocks = .ok out →
      ∀ g ∈ calledBlocks blocks, ∃ args out', call g args = .ok out'
  | [], _, _, _, hg => absurd hg List.not_mem_nil
  | ops :: rest, out, h, g, hg => by
    obtain ⟨front, hfront, hrest⟩ := Engine.bind_eq_ok_iff.mp h
    obtain ⟨back, hback, -⟩ := Engine.bind_eq_ok_iff.mp hrest
    rcases List.mem_append.mp hg with hg | hg
    · exact exists_ok_of_substituteList ops front hfront g hg
    · exact exists_ok_of_substituteBlocks rest back hback g hg

end

end

/-- What a call that is expanded comes from: the body of its function, which is expanded for the
first time. -/
theorem exists_of_callIn_eq_ok {calling : List Name} {out : List Instr}
    (h : callIn n inside calling name args = .ok out) :
    ∃ m sname params body, n = m + 1 ∧
      inside.lookup? name = some ⟨sname, .function, .definition params body⟩ ∧ name ∉ calling ∧
      substituteList (bind inside params args)
        (callIn m (bind inside params args) (name :: calling))
        body = .ok out := by
  cases n with
  | zero => cases h
  | succ m =>
    rw [callIn] at h
    split at h
    · cases h
    · next params body hlookup =>
      split at h
      · cases h
      · split at h
        · cases h
        · next hnew => exact ⟨m, _, params, body, rfl, hlookup, by simpa using hnew, h⟩
    · cases h

/-- Whether a call inside of some functions is expanded, with any arguments and to any depth. -/
def Completes (t : Table) (calling : List Name) (name : Name) : Prop :=
  ∃ n inside args out, t.Within (fun _ => True) inside ∧ callIn n inside calling name args = .ok out

namespace Completes

variable {calling : List Name} {f g : Name}

/-- A call that is expanded is none of a function around it, and the calls of its body are expanded
inside of it. -/
theorem of_calls (h : Completes t calling f) :
    f ∉ calling ∧ ∀ g, t.Calls f g → Completes t (f :: calling) g := by
  obtain ⟨n, inside, args, out, hin, hok⟩ := h
  obtain ⟨m, _, params, body, -, hlookup, hnew, hbody⟩ := exists_of_callIn_eq_ok hok
  refine ⟨hnew, fun g hcalls => ?_⟩
  obtain ⟨_, _, _, hlookup', hg⟩ := hcalls
  cases (hin.lookup_function hlookup).symm.trans hlookup'
  obtain ⟨args', out', hcall⟩ := exists_ok_of_substituteList body out hbody g hg
  exact ⟨m, _, args', out', hin.bind params fun _ _ => trivial, hcall⟩

/-- A call that is expanded leads to none of the functions around it. -/
theorem notMem_of_reaches (h : Completes t calling f) (hreach : ReflTransGen t.Calls f g) :
    g ∉ calling := by
  induction hreach using ReflTransGen.head_induction_on generalizing calling with
  | refl => exact h.of_calls.1
  | head hcalls _ ih => exact fun hg => ih (h.of_calls.2 _ hcalls) (List.mem_cons_of_mem _ hg)

/-- A call that is expanded leads to no function that leads back to itself. -/
theorem not_cycle (h : Completes t calling f) (hreach : ReflTransGen t.Calls f g) :
    ¬ TransGen t.Calls g g := by
  induction hreach using ReflTransGen.head_induction_on generalizing calling with
  | refl =>
    intro hcycle
    obtain ⟨c, hcalls, hback⟩ := TransGen.head'_iff.mp hcycle
    exact (h.of_calls.2 c hcalls).notMem_of_reaches hback List.mem_cons_self
  | head hcalls _ ih => exact ih (h.of_calls.2 _ hcalls)

end Completes

/-! ### The bound on nested calls -/

/-- An expansion that may go deeper than there are functions left goes no deeper. -/
theorem callIn_eq_of_le {calling : List Name} (hcalling : Expanding t calling k)
    (hin : t.Within (fun _ => True) inside) (hn : k + 1 ≤ n) :
    callIn n inside calling = callIn (k + 1) inside calling := by
  induction k using Nat.strong_induction_on generalizing inside calling n with
  | _ k ih =>
    obtain ⟨n, rfl⟩ : ∃ m, n = m + 1 := ⟨n - 1, by omega⟩
    funext name args
    rw [callIn, callIn]
    split
    · rfl
    · next params body hlookup =>
      split
      · rfl
      · split
        · rfl
        · next hnew =>
          have hdefined := Table.mem_definitions (hin.lookup_function hlookup)
          obtain ⟨j, rfl, hcalling'⟩ :=
            hcalling.exists_succ (List.mem_map_of_mem hdefined) (by simpa using hnew)
          have hbind := hin.bind params fun ops (_ : ops ∈ args) => trivial
          have hdeeper := ih j (Nat.lt_succ_self j) hcalling' hbind (Nat.le_of_succ_le_succ hn)
          exact congrArg (fun call => substituteList _ call body) hdeeper
    · rfl

/-- Take a table in which no name stands for a parameter, and a call whose arguments call nothing.
Expanding the call ends, however deep it may go, with code or with a problem; code that it ends with
calls nothing. It refuses a call as recursive only if the function named is one that leads back to
itself and that the called function leads to; and if the called function leads to any such function
then it ends with a problem. -/
theorem call_finds_recursion (ht : t.ParameterFree) (name : Name) {args : List (List Instr)}
    (hargs : calledBlocks args = []) :
    (∀ n, (bodies t).length < n → callIn n t [] name args = call t name args) ∧
    (∀ f, call t name args ≠ .error (.fault f)) ∧
    (∀ out, call t name args = .ok out → calledList out = []) ∧
    (∀ p, call t name args = .error (.problem p) → p.kind = .recursiveCall →
      ∃ g, p.cause = .recursiveCall g ∧ ReflTransGen t.Calls name g ∧ TransGen t.Calls g g) ∧
    ((∃ g, ReflTransGen t.Calls name g ∧ TransGen t.Calls g g) →
      ∃ p, call t name args = .error (.problem p)) := by
  have hbound (n : Nat) (hn : (bodies t).length < n) : callIn n t [] name args = call t name args :=
    congrFun (congrFun (callIn_eq_of_le (expanding_nil t) (.refl _ t) hn) name) args
  have hyields : Yields (call t name args) (fun out => calledList out = []) (Traces t name) :=
    yields_callIn ht (expanding_nil t) (.refl _ t) (List.forall_mem_nil _) hargs
  have hcompletes (out : List Instr) (hout : call t name args = .ok out) : Completes t [] name :=
    ⟨_, t, args, out, .refl _ t, hout⟩
  refine ⟨hbound, ?_⟩
  cases hcall : call t name args with
  | ok out =>
    rw [hcall] at hyields
    refine ⟨nofun, ?_, nofun, ?_⟩
    · rintro _ ⟨⟩
      exact hyields
    · rintro ⟨g, hreach, hcycle⟩
      exact absurd hcycle ((hcompletes out hcall).not_cycle hreach)
  | error e =>
    rw [hcall] at hyields
    cases e with
    | fault f => exact hyields.elim
    | problem p =>
      refine ⟨nofun, nofun, ?_, fun _ => ⟨p, rfl⟩⟩
      rintro _ ⟨⟩
      exact hyields

/-- A function that is called in an argument of its own call, and two functions that call each
other, one of them from an inner script. -/
def nestedAndMutual : Program where
  functions :=
    [⟨[100], [[120]], [.var [120], .var [120], .op (.binary .add)]⟩,
      ⟨[113], [[120]], [.call [100] [[.call [100] [[.var [120]]]]]]⟩,
      ⟨[108], [], [.op .one, .inner [.call [98] []]]⟩,
      ⟨[98], [], [.call [100] [[.call [108] []]]]⟩]

/-- A call in an argument of a call, and functions that call each other. -/
theorem call_finds_recursion_nested_and_mutual :
    calledBlocks [[.op .two]] = [] ∧
      (∃ out, call (Table.ofProgram nestedAndMutual) [113] [[.op .two]] = .ok out ∧
        calledList out = []) ∧
      ReflTransGen (Table.ofProgram nestedAndMutual).Calls [98] [108] ∧
      TransGen (Table.ofProgram nestedAndMutual).Calls [108] [108] ∧
      ∃ p, call (Table.ofProgram nestedAndMutual) [98] [] = .error (.problem p) ∧
        p.kind = .recursiveCall ∧ ∃ g, p.cause = .recursiveCall g ∧
          TransGen (Table.ofProgram nestedAndMutual).Calls g g := by
  have hfree := Table.parameterFree_ofProgram nestedAndMutual
  have hback : (Table.ofProgram nestedAndMutual).Calls [108] [98] :=
    ⟨[108], [], _, by rfl, by decide⟩
  have hforth : (Table.ofProgram nestedAndMutual).Calls [98] [108] :=
    ⟨[98], [], _, by rfl, by decide⟩
  have hreach := ReflTransGen.single hforth
  have hcycle := (TransGen.single hback).tail hforth
  have hargs : calledBlocks [[.op .two]] = [] := by decide
  have hout : (call (Table.ofProgram nestedAndMutual) [113] [[.op .two]]).isOk = true := by
    decide +kernel
  obtain ⟨-, -, hcallFree, -, -⟩ := call_finds_recursion hfree [113] hargs
  have hnone : calledBlocks [] = [] := rfl
  obtain ⟨-, -, -, hrecursive, hproblem⟩ := call_finds_recursion hfree [98] hnone
  obtain ⟨p, hp⟩ := hproblem ⟨[108], hreach, hcycle⟩
  have hkind : p.kind = .recursiveCall := by
    have hcall : call (Table.ofProgram nestedAndMutual) [98] [] = fail (.recursiveCall [98]) := by
      decide +kernel
    cases hp.symm.trans hcall
    rfl
  obtain ⟨g, hg, -, hgcycle⟩ := hrecursive p hp hkind
  refine ⟨hargs, ?_, hreach, hcycle, p, hp, hkind, g, hg, hgcycle⟩
  cases hcall : call (Table.ofProgram nestedAndMutual) [113] [[.op .two]] with
  | ok out => exact ⟨out, rfl, hcallFree out hcall⟩
  | error e => rw [hcall] at hout; cases hout

end Expand

end NamedStack
