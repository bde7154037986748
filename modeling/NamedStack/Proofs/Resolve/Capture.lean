import NamedStack.Proofs.Resolve.Recursion

/-!
# Names that a called function finds around it

A body is expanded in the scopes of its caller, with one more scope for its own parameters. So a
name that is no parameter of the function stands for what it stands for at the call, and a parameter
of the caller can come in its way. A call whose function needs no such name is expanded inside of
other functions as it is outside of them.
-/

namespace NamedStack

open Relation (ReflTransGen TransGen)
open Instr (called calledList calledBlocks)

/-! ### Names in a program -/

mutual

/-- The names that an instruction reads or calls, also in arguments of calls and in inner scripts.
-/
def Instr.mentioned : Instr → List Name
  | .var name => [name]
  | .call name args => name :: Instr.mentionedBlocks args
  | .inner ops => Instr.mentionedList ops
  | _ => []

/-- The names that a program reads or calls. -/
def Instr.mentionedList : List Instr → List Name
  | [] => []
  | i :: rest => i.mentioned ++ Instr.mentionedList rest

/-- The names that programs read or call. -/
def Instr.mentionedBlocks : List (List Instr) → List Name
  | [] => []
  | ops :: rest => Instr.mentionedList ops ++ Instr.mentionedBlocks rest

end

open Instr (mentioned mentionedList mentionedBlocks)

mutual

private theorem Instr.called_subset_mentioned : ∀ i : Instr, i.called ⊆ i.mentioned
  | .call name args => List.cons_subset_cons name (Instr.calledBlocks_subset_mentionedBlocks args)
  | .inner ops => Instr.calledList_subset_mentionedList ops
  | .op _ | .push _ | .assume _ | .assign _ | .var _ => List.nil_subset _

private theorem Instr.calledList_subset_mentionedList :
    ∀ ops : List Instr, calledList ops ⊆ mentionedList ops
  | [] => List.nil_subset _
  | i :: rest => List.append_subset.mpr
      ⟨List.subset_append_of_subset_left _ i.called_subset_mentioned,
        List.subset_append_of_subset_right _ (Instr.calledList_subset_mentionedList rest)⟩

private theorem Instr.calledBlocks_subset_mentionedBlocks :
    ∀ blocks : List (List Instr), calledBlocks blocks ⊆ mentionedBlocks blocks
  | [] => List.nil_subset _
  | ops :: rest => List.append_subset.mpr
      ⟨List.subset_append_of_subset_left _ (Instr.calledList_subset_mentionedList ops),
        List.subset_append_of_subset_right _ (Instr.calledBlocks_subset_mentionedBlocks rest)⟩

end

namespace Table

variable {t u : Table} {f g x sname : Name} {params : List Name} {body : List Instr}

/-! ### What a function needs of the names around it -/

/-- Whether the expansion of a call looks a name up around the called function: the function itself,
and the names that a function it leads to mentions and has no parameter for. -/
def Needs (t : Table) (g x : Name) : Prop :=
  x = g ∨ ∃ f sname params body, ReflTransGen t.Calls g f ∧
    t.lookup? f = some ⟨sname, .function, .definition params body⟩ ∧
    x ∈ mentionedList body ∧ x ∉ params

/-- A function needs the names of its body that are no parameters of its own. -/
theorem Needs.of_mentioned (hg : t.lookup? g = some ⟨sname, .function, .definition params body⟩)
    (hx : x ∈ mentionedList body) (hfree : x ∉ params) : t.Needs g x :=
  .inr ⟨g, sname, params, body, .refl, hg, hx, hfree⟩

/-- A function needs what the functions that it calls need, but for its own parameters. -/
theorem Needs.of_called (hg : t.lookup? g = some ⟨sname, .function, .definition params body⟩)
    (hcalled : f ∈ calledList body) (hx : t.Needs f x) (hfree : x ∉ params) : t.Needs g x := by
  rcases hx with rfl | ⟨f', sname', params', body', hreach, hf'⟩
  · exact .of_mentioned hg (Instr.calledList_subset_mentionedList body hcalled) hfree
  · exact .inr ⟨f', sname', params', body', hreach.head ⟨sname, params, body, hg, hcalled⟩, hf'⟩

/-- Whether a function needs a name that is a parameter of one of the functions around the call. -/
def Captures (t : Table) (calling : List Name) (g : Name) : Prop :=
  ∃ f ∈ calling, ∃ sname params body,
    t.lookup? f = some ⟨sname, .function, .definition params body⟩ ∧ ∃ x ∈ params, t.Needs g x

/-! ### Names inside of a function -/

/-- Inside of a function a name stands for the argument of the last parameter of this name, and for
what it stood for if there is none. -/
theorem lookup?_bind (t : Table) (params : List Name) (args : List (List Instr)) (x : Name) :
    (Expand.bind t params args).lookup? x =
      (((params.zip args).reverse.find? (·.1 = x)).map fun p => ⟨x, .argument, .content p.2⟩).or
        (t.lookup? x) := by
  have hfold (l : List (Name × List Instr)) (t : Table) :
      (l.foldl (fun t p => t.declare ⟨p.1, .argument, .content p.2⟩) t).lookup? x =
        ((l.reverse.find? (·.1 = x)).map fun p => ⟨x, .argument, .content p.2⟩).or
          (t.lookup? x) := by
    induction l using List.reverseRecOn with
    | nil => rfl
    | append_singleton l p ih =>
      rw [List.foldl_append, List.foldl_cons, List.foldl_nil, lookup?_declare, List.reverse_append,
        List.reverse_singleton, List.singleton_append]
      by_cases hx : x = p.1
      · rw [if_pos hx, List.find?_cons_of_pos (by simpa using hx.symm), hx]
        rfl
      · rw [if_neg hx, List.find?_cons_of_neg (by simpa using fun h => hx h.symm), ih]
  have henter : (t.enter .function).lookup? x = t.lookup? x := rfl
  rw [Expand.bind, hfold, henter]

private theorem lookup?_bind_of_notMem {args : List (List Instr)} (hx : x ∉ params) :
    (Expand.bind t params args).lookup? x = t.lookup? x := by
  have hnone : (params.zip args).reverse.find? (·.1 = x) = none := by
    rw [List.find?_eq_none]
    intro p hp hpx
    have hmem := (List.of_mem_zip (List.mem_reverse.mp hp)).1
    rw [of_decide_eq_true hpx] at hmem
    exact hx hmem
  rw [lookup?_bind, hnone]
  rfl

/-- Inside of a function a name stands for the same in two tables if it is a parameter, or if it did
so outside. -/
theorem lookup?_bind_congr {args : List (List Instr)} (hlength : args.length = params.length)
    (hx : x ∉ params → t.lookup? x = u.lookup? x) :
    (Expand.bind t params args).lookup? x = (Expand.bind u params args).lookup? x := by
  by_cases hmem : x ∈ params
  · have hsome : ((params.zip args).reverse.find? (·.1 = x)).isSome := by
      rw [List.find?_isSome]
      obtain ⟨i, hi, rfl⟩ := List.getElem_of_mem hmem
      refine ⟨(params[i], args[i]), List.mem_reverse.mpr ?_, by simp⟩
      rw [← List.getElem_zip (h := by simp; omega)]
      exact List.getElem_mem _
    obtain ⟨p, hp⟩ := Option.isSome_iff_exists.mp hsome
    rw [lookup?_bind, lookup?_bind, hp]
    rfl
  · rw [lookup?_bind_of_notMem hmem, lookup?_bind_of_notMem hmem, hx hmem]

end Table

namespace Expand

variable {t inside inside' : Table}

/-! ### Only the names that are needed matter -/

section

variable {call call' : CallResult}

mutual

/-- What an instruction of a body gives way to depends on the names that it mentions. -/
theorem substitute_eq_of_mentioned : ∀ i : Instr,
    (∀ x ∈ i.mentioned, inside.lookup? x = inside'.lookup? x) →
    (∀ g ∈ i.called, call g = call' g) →
      substitute inside call i = substitute inside' call' i
  | .var name, hsame, _ => by rw [substitute, substitute, hsame name List.mem_cons_self]
  | .call name args, hsame, hcall => by
    have hargs := substituteBlocks_eq_of_mentioned args
      (fun x hx => hsame x (List.mem_cons_of_mem _ hx))
      (fun g hg => hcall g (List.mem_cons_of_mem _ hg))
    rw [substitute, substitute, hargs, hcall name List.mem_cons_self]
  | .inner ops, hsame, hcall => by
    rw [substitute, substitute, substituteList_eq_of_mentioned ops hsame hcall]
  | .op _, _, _ | .push _, _, _ | .assume _, _, _ | .assign _, _, _ => rfl

/-- What a body gives way to depends on the names that it mentions. -/
theorem substituteList_eq_of_mentioned : ∀ ops : List Instr,
    (∀ x ∈ mentionedList ops, inside.lookup? x = inside'.lookup? x) →
    (∀ g ∈ calledList ops, call g = call' g) →
      substituteList inside call ops = substituteList inside' call' ops
  | [], _, _ => rfl
  | i :: rest, hsame, hcall => by
    have hi := substitute_eq_of_mentioned i (fun x hx => hsame x (List.mem_append_left _ hx))
      (fun g hg => hcall g (List.mem_append_left _ hg))
    have hrest := substituteList_eq_of_mentioned rest
      (fun x hx => hsame x (List.mem_append_right _ hx))
      (fun g hg => hcall g (List.mem_append_right _ hg))
    rw [substituteList, substituteList, hi, hrest]

/-- What arguments in a body give way to depends on the names that they mention. -/
theorem substituteBlocks_eq_of_mentioned : ∀ blocks : List (List Instr),
    (∀ x ∈ mentionedBlocks blocks, inside.lookup? x = inside'.lookup? x) →
    (∀ g ∈ calledBlocks blocks, call g = call' g) →
      substituteBlocks inside call blocks = substituteBlocks inside' call' blocks
  | [], _, _ => rfl
  | ops :: rest, hsame, hcall => by
    have hops := substituteList_eq_of_mentioned ops
      (fun x hx => hsame x (List.mem_append_left _ hx))
      (fun g hg => hcall g (List.mem_append_left _ hg))
    have hrest := substituteBlocks_eq_of_mentioned rest
      (fun x hx => hsame x (List.mem_append_right _ hx))
      (fun g hg => hcall g (List.mem_append_right _ hg))
    rw [substituteBlocks, substituteBlocks, hops, hrest]

end

end

/-- The expansion of a call depends on what the names stand for that its function needs, and on
which of the functions that it leads to are being expanded. With as many functions left in each
table as it has, neither expansion runs out of them. -/
theorem callIn_eq_of_needs {calling calling' : List Name} {k k' : Nat} {g : Name}
    (hin : t.Within (fun _ => True) inside) (hin' : t.Within (fun _ => True) inside')
    (hk : Expanding inside calling k) (hk' : Expanding inside' calling' k')
    (hcalling : ∀ f, ReflTransGen t.Calls g f → (f ∈ calling ↔ f ∈ calling'))
    (hsame : ∀ x, t.Needs g x → inside.lookup? x = inside'.lookup? x) :
    callIn (k + 1) inside calling g = callIn (k' + 1) inside' calling' g := by
  induction k using Nat.strong_induction_on generalizing inside inside' calling calling' k' g with
  | _ k ih =>
    funext args
    have hagain : calling.contains g = calling'.contains g := by
      rw [Bool.eq_iff_iff, List.contains_iff_mem, List.contains_iff_mem]
      exact hcalling g .refl
    have hg := hsame g (.inl rfl)
    rw [callIn, callIn, ← hg, ← hagain]
    split
    · rfl
    · next params body hlookup =>
      split
      · rfl
      · next hlength =>
        split
        · rfl
        · next hnew =>
          have hlength : args.length = params.length := of_not_not hlength
          have hnew : g ∉ calling := by simpa using hnew
          have hdefined := hin.lookup_function hlookup
          have hname := Table.mem_definitions hlookup
          have hname' := Table.mem_definitions (hg.symm.trans hlookup)
          obtain ⟨j, rfl, hj⟩ := hk.exists_succ (List.mem_map_of_mem hname) hnew
          obtain ⟨j', rfl, hj'⟩ := hk'.exists_succ (List.mem_map_of_mem hname')
            (mt (hcalling g .refl).mpr hnew)
          -- a parameter stands for the same argument in both tables
          refine substituteList_eq_of_mentioned body (fun x hx => ?_) fun f hf => ?_
          · exact Table.lookup?_bind_congr hlength fun hfree =>
              hsame x (.of_mentioned hdefined hx hfree)
          · refine ih j (Nat.lt_succ_self j) (hin.bind params fun _ _ => trivial)
              (hin'.bind params fun _ _ => trivial) (hj.congr (Table.definitions_bind ..))
              (hj'.congr (Table.definitions_bind ..)) (fun f' hreach => ?_) fun x hx => ?_
            · rw [List.mem_cons, List.mem_cons, hcalling f' (hreach.head ⟨_, _, _, hdefined, hf⟩)]
            · exact Table.lookup?_bind_congr hlength fun hfree =>
                hsame x (.of_called hdefined hf hx hfree)
    · rfl

/-! ### Calls in the bodies of functions -/

/-- Where the expansion of a program can be: how many calls deep it may still go, which functions it
is expanding, what names stand for there, and the body that it has come to. -/
inductive Nested (t : Table) : Nat → List Name → Table → List Instr → Prop
  /-- In the program itself. -/
  | top (ops : List Instr) : Nested t ((bodies t).length + 1) [] t ops
  /-- In the body of a function that is called where it is. -/
  | body {n : Nat} {calling : List Name} {inside : Table} {ops : List Instr} {f sname : Name}
      {params : List Name} {body : List Instr} {args : List (List Instr)}
      (around : Nested t (n + 1) calling inside ops) (called : f ∈ calledList ops)
      (defined : inside.lookup? f = some ⟨sname, .function, .definition params body⟩)
      (arity : args.length = params.length) (new : f ∉ calling) :
      Nested t n (f :: calling) (bind inside params args) body

namespace Nested

variable {n : Nat} {calling : List Name} {ops : List Instr}

variable (h : Nested t n calling inside ops)

include h

private theorem within : t.Within (fun _ => True) inside := by
  induction h with
  | top ops => exact .refl _ t
  | body _ _ _ _ _ ih => exact ih.bind _ fun _ _ => trivial

/-- The expansion may go as deep as there are functions left. -/
theorem expanding : ∃ k, n = k + 1 ∧ Expanding inside calling k := by
  induction h with
  | top ops => exact ⟨_, rfl, expanding_nil t⟩
  | body _ _ hdefined _ hnew ih =>
    obtain ⟨k, hn, hk⟩ := ih
    obtain ⟨j, rfl, hj⟩ :=
      hk.exists_succ (List.mem_map_of_mem (Table.mem_definitions hdefined)) hnew
    exact ⟨j, Nat.succ.inj hn, hj.congr (Table.definitions_bind ..)⟩

/-- All functions that are being expanded lead to what the body calls. -/
theorem reaches {g : Name} (hg : g ∈ calledList ops) : ∀ f ∈ calling, TransGen t.Calls f g := by
  induction h generalizing g with
  | top ops => exact List.forall_mem_nil _
  | body around hf hdefined _ _ ih =>
    have hcalls := (⟨_, _, _, around.within.lookup_function hdefined, hg⟩ : t.Calls _ g)
    exact List.forall_mem_cons.mpr ⟨.single hcalls, fun f' hf' => (ih hf f' hf').tail hcalls⟩

/-- A name stands for what it stands for in the program, unless a function that is being expanded
has a parameter of this name. -/
theorem lookup?_eq {x : Name} (hx : ∀ f ∈ calling, ∀ sname params body,
      t.lookup? f = some ⟨sname, .function, .definition params body⟩ → x ∉ params) :
    inside.lookup? x = t.lookup? x := by
  induction h with
  | top ops => rfl
  | body around _ hdefined _ _ ih =>
    obtain ⟨hparams, hx⟩ := List.forall_mem_cons.mp hx
    rw [Table.lookup?_bind_of_notMem
      (hparams _ _ _ (around.within.lookup_function hdefined)), ih hx]

end Nested

/-- A call in the body of a function, with its arguments expanded, gives way to what the same call
gives way to outside of all functions, or both are refused, if its function needs no name that is a
parameter of a function being expanded. If it leads back to none of these functions either, a
refused call is refused with the same problem. -/
theorem substitute_call_eq_of_not_captures {n : Nat} {calling : List Name} {ops : List Instr}
    (h : Nested t n calling inside ops) {g : Name} (hg : g ∈ calledList ops)
    {args args' : List (List Instr)}
    (hargs : substituteBlocks inside (callIn n inside calling) args = .ok args')
    (hfree : ¬ t.Captures calling g) :
    (substitute inside (callIn n inside calling) (.call g args)).toOption =
        (call t g args').toOption ∧
      ((∀ f ∈ calling, ¬ ReflTransGen t.Calls g f) →
        substitute inside (callIn n inside calling) (.call g args) = call t g args') := by
  obtain ⟨k, rfl, hk⟩ := h.expanding
  have hcall : substitute inside (callIn (k + 1) inside calling) (.call g args) =
      callIn (k + 1) inside calling g args' := by
    rw [substitute, hargs]
    rfl
  have hsame (x : Name) (hx : t.Needs g x) : inside.lookup? x = t.lookup? x :=
    h.lookup?_eq fun f hf sname params body hdefined hmem =>
      hfree ⟨f, hf, sname, params, body, hdefined, x, hmem, hx⟩
  have heq (hleads : ∀ f ∈ calling, ¬ ReflTransGen t.Calls g f) :
      callIn (k + 1) inside calling g args' = call t g args' := by
    refine congrFun (callIn_eq_of_needs h.within (.refl _ t) hk (expanding_nil t) ?_ hsame) args'
    exact fun f hreach => ⟨fun hf => absurd hreach (hleads f hf),
      fun hf => absurd hf List.not_mem_nil⟩
  rw [hcall]
  refine ⟨?_, heq⟩
  by_cases hleads : ∃ f ∈ calling, ReflTransGen t.Calls g f
  · -- the call leads back to a function around it, so it is refused in both places
    obtain ⟨f, hf, hback⟩ := hleads
    have hinside (out : List Instr) : callIn (k + 1) inside calling g args' ≠ .ok out := fun hok =>
      Completes.notMem_of_reaches ⟨_, inside, args', out, h.within, hok⟩ hback hf
    have houtside (out : List Instr) : call t g args' ≠ .ok out := fun hok =>
      Completes.not_cycle ⟨_, t, args', out, .refl _ t, hok⟩ hback
        ((h.reaches hg f hf).trans_left hback)
    cases hleft : callIn (k + 1) inside calling g args' with
    | ok out => exact absurd hleft (hinside out)
    | error e =>
      cases hright : call t g args' with
      | ok out => exact absurd hright (houtside out)
      | error e' => rfl
  · rw [heq fun f hf hback => hleads ⟨f, hf, hback⟩]

/-- A function that adds an item of the stack to its argument, and one that calls it twice, with a
parameter of the same name. -/
def addsTwice : Program where
  stack := [[97]]
  functions :=
    [⟨[115], [[120]], [.var [120], .var [97], .op (.binary .add)]⟩,
      ⟨[113], [[120]], [.call [115] [[.call [115] [[.var [120]]]]]]⟩]

/-- A function that is called in an argument of its own call. -/
theorem substitute_call_eq_of_not_captures_adds_twice :
    ∃ inside, Nested (Table.ofProgram addsTwice) 2 [[113]] inside
        [.call [115] [[.call [115] [[.var [120]]]]]] ∧
      ¬ (Table.ofProgram addsTwice).Captures [[113]] [115] ∧
      ∃ args', substituteBlocks inside (callIn 2 inside [[113]]) [[.call [115] [[.var [120]]]]] =
          .ok args' ∧
        substitute inside (callIn 2 inside [[113]]) (.call [115] [[.call [115] [[.var [120]]]]]) =
          call (Table.ofProgram addsTwice) [115] args' ∧
        call (Table.ofProgram addsTwice) [115] args' =
          .ok [.op .two, .var [97], .op (.binary .add), .var [97], .op (.binary .add)] := by
  have hnested : Nested (Table.ofProgram addsTwice) 2 [[113]]
      (bind (Table.ofProgram addsTwice) [[120]] [[.op .two]])
      [.call [115] [[.call [115] [[.var [120]]]]]] :=
    .body (.top [.call [113] [[.op .two]]]) (by decide) (by rfl) rfl (by decide)
  -- the function that is called leads to no other one
  have hleads (f : Name) (h : ReflTransGen (Table.ofProgram addsTwice).Calls [115] f) :
      f = [115] := by
    rcases h.cases_head with rfl | ⟨c, ⟨_, _, _, hdefined, hc⟩, -⟩
    · rfl
    · cases hdefined
      exact absurd hc List.not_mem_nil
  have hfree : ¬ (Table.ofProgram addsTwice).Captures [[113]] [115] := by
    rintro ⟨f, hf, _, params, _, hdefined, x, hx, hneeds⟩
    cases List.mem_singleton.mp hf
    cases hdefined
    cases List.mem_singleton.mp hx
    rcases hneeds with hx | ⟨f, _, _, _, hreach, hdefined, -, hx⟩
    · exact absurd hx (by decide)
    · cases hleads f hreach
      cases hdefined
      exact hx List.mem_cons_self
  have hargs : substituteBlocks (bind (Table.ofProgram addsTwice) [[120]] [[.op .two]])
      (callIn 2 (bind (Table.ofProgram addsTwice) [[120]] [[.op .two]]) [[113]])
      [[.call [115] [[.var [120]]]]] =
        .ok [[.op .two, .var [97], .op (.binary .add)]] := by
    decide +kernel
  have hother (f : Name) (hf : f ∈ [[113]]) :
      ¬ ReflTransGen (Table.ofProgram addsTwice).Calls [115] f := by
    intro hreach
    cases List.mem_singleton.mp hf
    exact absurd (hleads _ hreach) (by decide)
  refine ⟨_, hnested, hfree, _, hargs, ?_, by decide +kernel⟩
  exact (substitute_call_eq_of_not_captures hnested (by decide) hargs hfree).2 hother

/-- A function that reads a name, and one that calls it and has a parameter of this name. -/
def capturing : Program where
  stack := [[120]]
  functions := [⟨[103], [], [.var [120]]⟩, ⟨[102], [[120]], [.call [103] []]⟩]

/-- A call in a body need not give way to what it gives way to outside of all functions: here the
name that the called function reads is a parameter of the function around the call. -/
theorem substitute_call_captured :
    ∃ inside, Nested (Table.ofProgram capturing) 2 [[102]] inside [.call [103] []] ∧
      (Table.ofProgram capturing).Captures [[102]] [103] ∧
      substitute inside (callIn 2 inside [[102]]) (.call [103] []) = .ok [.op .two] ∧
      call (Table.ofProgram capturing) [103] [] = .ok [.var [120]] := by
  refine ⟨bind (Table.ofProgram capturing) [[120]] [[.op .two]], ?_, ?_, ?_, ?_⟩
  · exact .body (.top [.call [102] [[.op .two]]]) (by decide) (by rfl) rfl (by decide)
  · refine ⟨[102], List.mem_cons_self, [102], [[120]], _, by rfl, [120], List.mem_cons_self, ?_⟩
    have hdefined : (Table.ofProgram capturing).lookup? [103] =
        some ⟨[103], .function, .definition [] [.var [120]]⟩ := by rfl
    exact .of_mentioned hdefined List.mem_cons_self List.not_mem_nil
  · decide +kernel
  · decide +kernel

end Expand

end NamedStack
