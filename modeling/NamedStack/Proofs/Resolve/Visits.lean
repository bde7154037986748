import NamedStack.Proofs.Resolve.Failures
import NamedStack.Proofs.Resolve.Routed

/-!
# What takes the place of a reference

A visit of an instruction puts straight code in its place, or leaves out reads that stand outside of
all conditionals, or puts there what a parameter or a call stands for; the session stays the same
but for slots that go. What is said here of one visit is all that is used of reads and writes by
name when a whole program is resolved: what the visits of a search come to, and where it ends.
-/

namespace NamedStack.Session

variable {s s' : Session}

/-- What a pass may do at a position, given the names that have slots: put code in place of the
instruction there, or leave out reads that start there, outside of all conditionals. -/
inductive Replaces (ctx : Context) (slots : List Name) (i : Nat) (instr : Instr) :
    Replacement → Prop
  | code {new : List Step} (hnew : ∀ st ∈ new, st.Genuine)
      (hexpands : Expands slots (ctx.nestLevel i ≠ 0) instr (Step.instrs new)) :
      Replaces ctx slots i instr (new, 1)
  | elides {n : Nat} (hlevel : ctx.nestLevel i = 0) (hpos : 0 < n)
      (hn : n ≤ (ctx.steps.drop i).length)
      (hreads : ∀ st ∈ (ctx.steps.drop i).take n, ∃ name, st.instr = .assume name) :
      Replaces ctx slots i instr ([], n)

variable {instr : Instr} {r : Replacement} {m : Machine}

/-- More names may have slots. -/
theorem Replaces.mono {ctx : Context} {slots slots' : List Name} {i : Nat}
    (h : Replaces ctx slots i instr r) (hsub : slots ⊆ slots') : Replaces ctx slots' i instr r := by
  cases h with
  | code hnew hexpands => exact .code hnew (hexpands.mono hsub)
  | elides hlevel hpos hn hreads => exact .elides hlevel hpos hn hreads

/-- Whether a session is the same as before but for slots that went and the count of its passes. -/
structure Keeps (s s' : Session) : Prop where
  steps : s'.steps = s.steps
  table : s'.table = s.table
  slots : s'.slots ⊆ s.slots

/-- A session keeps itself. -/
theorem Keeps.refl (s : Session) : s.Keeps s := ⟨rfl, rfl, List.Subset.refl _⟩

/-- What is kept twice is kept. -/
theorem Keeps.trans {s'' : Session} (h : s.Keeps s') (h' : s'.Keeps s'') : s.Keeps s'' :=
  ⟨h'.steps.trans h.steps, h'.table.trans h.table, List.Subset.trans h'.slots h.slots⟩

/-- Whether an instruction reads or writes a name. -/
def IsAccess (i : Instr) : Prop := ∃ name, i = .assume name ∨ i = .var name ∨ i = .assign name

/-- What visiting an instruction comes to, if it succeeds. -/
inductive Visited (inner : InnerResult) (ctx : Context) (i : Nat) (s : Session) :
    Instr → Option Replacement → Session → Prop
  | code {instr : Instr} {r : Replacement} {s' : Session} (hkeeps : s.Keeps s')
      (haccess : IsAccess instr) (hreplaces : Replaces ctx s.slots i instr r) (hcode : IsCode r.1) :
      Visited inner ctx i s instr (some r) s'
  | content {name sname : Name} {ops : List Instr}
      (hlookup : s.table.lookup? name = some ⟨sname, .argument, .content ops⟩) :
      Visited inner ctx i s (.var name) (some (Step.ofList ops, 1)) s
  | call {name : Name} {args : List (List Instr)} {ops : List Instr}
      (hcall : Expand.call s.table name args = .ok ops) :
      Visited inner ctx i s (.call name args) (some (Step.ofList ops, 1)) s
  | inner {ops : List Instr} {r : Option Replacement} {s' : Session}
      (hrun : (inner ops).run s = .ok r s') : Visited inner ctx i s (.inner ops) r s'
  | kept {name : Name}
      (hlater : 0 < ctx.reads.countAfter name i ∨ 0 < ctx.assumptions.countAfter name i) :
      Visited inner ctx i s (.assign name) none s
  | plain {instr : Instr} (hnone : Measure.references instr = 0) :
      Visited inner ctx i s instr none s

/-- What visiting an instruction comes to, if it fails. -/
inductive Refused (inner : InnerResult) (i : Nat) (s : Session) : Instr → Failure → Session → Prop
  | regular {instr : Instr} {f : Failure} {s' : Session} (hregular : f.Regular)
      (hkeeps : s.Keeps s') : Refused inner i s instr f s'
  | call {name : Name} {args : List (List Instr)} {f : Failure}
      (hcall : Expand.call s.table name args = .error f) :
      Refused inner i s (.call name args) (f.note (atIndex i)) s
  | inner {ops : List Instr} {f : Failure} {s' : Session}
      (hrun : (inner ops).run s = .error f s') : Refused inner i s (.inner ops) f s'

variable {ctx : Context} {i : Nat} {name : Name} {inner : InnerResult}

/-! ### Reads and writes -/

private theorem replaces_elidable {t : Table} {slots : AltSlots} {n : Nat}
    (hn : elidable ctx t slots m i = n) (hpos : 0 < n) (names : List Name) (instr : Instr) :
    Replaces ctx names i instr ([], n) := by
  obtain ⟨reads, hfront, rfl, hreads, htop⟩ := elidable_spec hn hpos
  have htake : (ctx.steps.drop i).take reads.length = reads :=
    (List.prefix_iff_eq_take.mp hfront).symm
  refine .elides ?_ hpos hfront.length_le (by rwa [htake])
  cases reads with
  | nil => cases hpos
  | cons st rest =>
    rw [onTop, List.zipIdx_cons, List.all_cons, Bool.and_eq_true] at htop
    have hst := htop.1
    dsimp only at hst
    split at hst
    · simp only [Bool.and_eq_true, decide_eq_true_eq, Nat.add_zero] at hst
      exact hst.1.2
    · cases hst

private theorem replaces_read (hread : instr = .assume name ∨ instr = .var name) {slots : List Name}
    (hr : r.2 = 1) (hcode : IsCode r.1) (hgain : ctx.nestLevel i ≠ 0 → gain r.1 = 1) :
    Replaces ctx slots i instr r := by
  obtain ⟨new, n⟩ := r
  subst hr
  exact .code hcode.genuine (.read hread hcode.straight hgain)

private theorem leads_machineAt :
    Leads (machineAt ctx i) s (fun _ s' => s' = s) (Refused inner i s instr) := by
  unfold machineAt
  split
  · rfl
  · exact .regular nofun (.refl s)

private theorem leads_fromSlot (ctx : Context) {last : Bool}
    (hread : instr = .assume name ∨ instr = .var name) :
    Leads (fromSlot m name last) s
      (fun r s' => s.Keeps s' ∧ ∀ new, r = some new → Visited inner ctx i s instr (some new) s')
      (Refused inner i s instr) := by
  refine Leads.get_bind ?_
  refine .orRefuse_bind (fun p hp => ?_)
    fun c hc => .regular (AltSlots.explained_get _ _ _ _ c hc) (.refl s)
  split
  · obtain ⟨hcode, hgain, hslots⟩ := AltSlots.get_code hp
    refine ⟨⟨rfl, rfl, hslots⟩, ?_⟩
    rintro _ ⟨⟩
    exact .code ⟨rfl, rfl, hslots⟩ ⟨name, hread.imp id .inl⟩
      (replaces_read hread rfl hcode fun _ => hgain) hcode
  · exact ⟨.refl s, nofun⟩

private theorem leads_fetch (hkeeps : s.Keeps s')
    (hread : instr = .assume name ∨ instr = .var name) {pos : Int} {move : Bool}
    (hmove : ctx.nestLevel i ≠ 0 → move = false) :
    Leads (orRefuse (fetch ctx i name pos move)) s'
      (fun r => Visited inner ctx i s instr (some r)) (Refused inner i s instr) := by
  refine .orRefuse (fun r hr => ?_) fun c hc => .regular ?_ hkeeps
  · obtain ⟨hone, hcode, hgain⟩ := fetch_code hr
    refine .code hkeeps ⟨name, hread.imp id .inl⟩ ?_ hcode
    exact replaces_read hread hone hcode fun hlevel => hgain (hmove hlevel)
  · unfold fetch at hc
    dsimp only at hc
    split at hc
    · cases hc
      exact nofun
    · split at hc <;> cases hc

private theorem leads_readAssumption (hread : instr = .assume name ∨ instr = .var name)
    (shared : Bool) :
    Leads (readAssumption ctx i name shared) s (fun r => Visited inner ctx i s instr (some r))
      (Refused inner i s instr) := by
  refine leads_machineAt.bind ?_
  rintro m s rfl
  refine (leads_fromSlot ctx hread).bind fun slot s₁ hslot => ?_
  obtain ⟨hkeeps, hnew⟩ := hslot
  split
  · exact hnew _ rfl
  · refine Leads.get_bind ?_
    split
    · split
      · exact leads_fetch hkeeps hread fun hlevel => by simp [hlevel]
      · exact .regular nofun hkeeps
    · next hpos =>
      exact .code hkeeps ⟨name, hread.imp id .inl⟩
        (replaces_elidable rfl (Nat.pos_of_ne_zero hpos) _ _) nofun

private theorem leads_readVariable :
    Leads (readVariable ctx i name) s (fun r => Visited inner ctx i s (.var name) (some r))
      (Refused inner i s (.var name)) := by
  refine leads_machineAt.bind ?_
  rintro m s rfl
  refine (leads_fromSlot ctx (.inr rfl)).bind fun slot s₁ hslot => ?_
  obtain ⟨hkeeps, hnew⟩ := hslot
  split
  · exact hnew _ rfl
  · split
    · exact leads_fetch hkeeps (.inr rfl) fun hlevel => by simp [hlevel]
    · exact .regular nofun hkeeps

private theorem leads_readName :
    Leads (readName ctx i name) s (fun r => Visited inner ctx i s (.var name) (some r))
      (Refused inner i s (.var name)) := by
  refine Leads.get_bind ?_
  split
  · exact .regular (fun h => by cases h) (.refl s)
  · next sym hlookup =>
    split
    · exact leads_readAssumption (.inr rfl) false
    · exact leads_readVariable
    · next ops hkind hvalue =>
      obtain ⟨sname, kind, value⟩ := sym
      cases hkind
      cases hvalue
      exact .content hlookup
    · exact .regular (fun h => by cases h) (.refl s)
    · exact .regular (fun h => by cases h) (.refl s)

private theorem leads_writeName :
    Leads (writeName ctx i name) s (Visited inner ctx i s (.assign name))
      (Refused inner i s (.assign name)) := by
  refine leads_machineAt.bind ?_
  rintro m s rfl
  refine Leads.get_bind (.orRefuse_bind (fun slot hslot => ?_)
    fun c hc => .regular (AltSlots.explained_set _ _ _ c hc) (.refl s))
  have haccess : IsAccess (.assign name) := ⟨name, .inr (.inr rfl)⟩
  split
  · obtain ⟨hcode, hname⟩ := AltSlots.set_code hslot
    exact .code (.refl s) haccess (.code hcode.genuine (.stored hname hcode.straight)) hcode
  · split
    · next hlater => exact .kept (by simpa using hlater)
    · exact .code (.refl s) haccess (.code nofun (.dropped name)) nofun

/-! ### Visits -/

/-- A call is expanded, or refused with its position. -/
theorem leads_expandCall (inner : InnerResult) (ctx : Context) {args : List (List Instr)} :
    Leads (expandCall i name args) s (fun r => Visited inner ctx i s (.call name args) (some r))
      (Refused inner i s (.call name args)) := by
  refine Leads.get_bind ?_
  split
  · next hcall => exact .call hcall
  · next hcall => exact .call hcall

/-- What a visit of a step leads to. -/
theorem leads_visit (inner : InnerResult) (ctx : Context) (i : Nat) (st : Step) (s : Session) :
    Leads (visit inner ctx i st) s (Visited inner ctx i s st.instr)
      (Refused inner i s st.instr) := by
  unfold visit
  split
  · next hi => exact .plain (by rw [hi, Measure.references])
  · next hi => exact .plain (by rw [hi, Measure.references])
  · next hi => exact (leads_readAssumption (.inl hi) _).bind fun _ _ h => h
  · next hi =>
    rw [hi]
    exact leads_readName.bind fun _ _ h => h
  · next hi =>
    rw [hi]
    exact leads_writeName
  · next hi =>
    rw [hi]
    exact (leads_expandCall inner ctx).bind fun _ _ h => h
  · next hi =>
    rw [hi]
    exact leads_iff.mpr ⟨fun _ _ => .inner, fun _ _ => .inner⟩

/-- Whether an inner script is replaced by another one, and nothing else is touched. -/
def Inward (inner : InnerResult) : Prop :=
  ∀ (ops : List Instr) (s s' : Session) (r : Option Replacement), (inner ops).run s = .ok r s' →
    s.Keeps s' ∧ ∀ new, r = some new → ∃ ops', new = ([Step.of (.inner ops')], 1)

/-- Nothing is touched where all inner scripts fail. -/
theorem inward_throw (f : Failure) : Inward fun _ => throw f := by
  intro ops s s' r h
  cases h

/-- Resolving an inner script touches nothing else. -/
theorem inward_innerWith (run : SessionM Unit) : Inward (innerWith run) := by
  intro ops s s' r h
  rw [run_innerWith] at h
  split at h
  · cases h
    refine ⟨⟨rfl, rfl, List.Subset.refl _⟩, fun new hnew => ?_⟩
    split at hnew
    · cases hnew
    · cases hnew
      exact ⟨_, rfl⟩
  · cases h

/-- A visit keeps the session, if inner scripts do. -/
theorem Visited.keeps {r : Option Replacement} (h : Visited inner ctx i s instr r s')
    (hinner : Inward inner) : s.Keeps s' := by
  cases h with
  | code hkeeps => exact hkeeps
  | content | call | kept | plain => exact .refl s
  | inner hrun => exact (hinner _ _ _ _ hrun).1

private theorem Visited.replaces (h : Visited inner ctx i s instr (some r) s')
    (hinner : Inward inner) (hfree : s.table.ParameterFree) (hcall : instr.isCall = false) :
    Replaces ctx s.slots i instr r ∧ Replaceable instr := by
  cases h with
  | code _ haccess hreplaces =>
    obtain ⟨name, rfl | rfl | rfl⟩ := haccess <;> exact ⟨hreplaces, id, nofun⟩
  | content hlookup => exact absurd rfl (hfree hlookup)
  | call => cases hcall
  | inner hrun =>
    obtain ⟨ops', rfl⟩ := (hinner _ _ _ _ hrun).2 _ rfl
    exact ⟨.code (Step.genuine_ofList [.inner ops']) (.inner _ ops'), id, nofun⟩

/-! ### The first replacement -/

variable {steps : List Step}

/-- A search that replaces nothing has visited every step. -/
theorem visited_of_run_firstReplacement (hinner : Inward inner)
    (h : (firstReplacement inner ctx i steps).run s = .ok none s') :
    s.Keeps s' ∧ ∀ k st, steps[k]? = some st →
      ∃ s₁ s₂, s.Keeps s₁ ∧ Visited inner ctx (i + k) s₁ st.instr none s₂ := by
  induction steps generalizing i s with
  | nil =>
    cases h
    exact ⟨.refl _, nofun⟩
  | cons st rest ih =>
    rw [firstReplacement] at h
    obtain ⟨r, s₁, hvisit, h₁⟩ := exists_of_run_bind h
    have hvisited := (leads_iff.mp (leads_visit inner ctx i st s)).1 r s₁ hvisit
    cases r with
    | some new => cases h₁
    | none =>
      have hkeeps := hvisited.keeps hinner
      obtain ⟨hkeeps', hrest⟩ := ih h₁
      refine ⟨hkeeps.trans hkeeps', fun k st' hk => ?_⟩
      cases k with
      | zero =>
        cases hk
        exact ⟨s, s₁, .refl s, hvisited⟩
      | succ k =>
        obtain ⟨s₂, s₃, hkeeps₂, hvisited'⟩ := hrest k st' hk
        exact ⟨s₂, s₃, hkeeps.trans hkeeps₂, by rwa [Nat.add_right_comm] at hvisited'⟩

/-- Something is replaced at the first position where a visit has a replacement. -/
theorem exists_visit_of_run_firstReplacement {j : Nat}
    (h : (firstReplacement inner ctx i steps).run s = .ok (some (j, r)) s') :
    ∃ k st s₁, j = i + k ∧ steps[k]? = some st ∧
      (firstReplacement inner ctx i (steps.take k)).run s = .ok none s₁ ∧
      (visit inner ctx j st).run s₁ = .ok (some r) s' := by
  induction steps generalizing i s with
  | nil => cases h
  | cons st rest ih =>
    rw [firstReplacement] at h
    obtain ⟨found, s₁, hvisit, h₁⟩ := exists_of_run_bind h
    cases found with
    | some new =>
      cases h₁
      exact ⟨0, st, s, rfl, rfl, rfl, hvisit⟩
    | none =>
      obtain ⟨k, st', s₂, rfl, hst', hnone, hvisit'⟩ := ih h₁
      refine ⟨k + 1, st', s₂, by omega, hst', ?_, hvisit'⟩
      rw [List.take_succ_cons, firstReplacement, run_bind_ok hvisit]
      exact hnone

/-- The visit that a search ends with comes from a session that was kept. -/
theorem exists_visited_of_run_firstReplacement (hinner : Inward inner) {j : Nat}
    (h : (firstReplacement inner ctx i steps).run s = .ok (some (j, r)) s') :
    ∃ k st s₁, j = i + k ∧ steps[k]? = some st ∧ s.Keeps s₁ ∧
      Visited inner ctx j s₁ st.instr (some r) s' := by
  obtain ⟨k, st, s₁, rfl, hst, hnone, hvisit⟩ := exists_visit_of_run_firstReplacement h
  exact ⟨k, st, s₁, rfl, hst, (visited_of_run_firstReplacement hinner hnone).1,
    (leads_iff.mp (leads_visit inner ctx (i + k) st s₁)).1 _ _ hvisit⟩

/-- A search that replaces nothing finds no read. -/
theorem unread_of_run_firstReplacement (hinner : Inward inner)
    (h : (firstReplacement inner ctx i steps).run s = .ok none s') : s.Keeps s' ∧
      ∀ st ∈ steps, ∀ name, st.instr ≠ .assume name ∧ st.instr ≠ .var name := by
  obtain ⟨hkeeps, hvisited⟩ := visited_of_run_firstReplacement hinner h
  refine ⟨hkeeps, fun st hst name => ?_⟩
  obtain ⟨k, hk⟩ := List.mem_iff_getElem?.mp hst
  obtain ⟨s₁, s₂, -, hvisit⟩ := hvisited k st hk
  constructor <;>
  · intro hi
    rw [hi] at hvisit
    cases hvisit with
    | plain hnone => simp [Measure.references] at hnone

/-- Where no name stands for a parameter and no call is left, what a search finds is code in place
of reads and writes or of an inner script; if it finds nothing, there is no read. -/
theorem of_run_firstReplacement (hinner : Inward inner) (steps : List Step)
    (hcalls : ∀ st ∈ steps, st.instr.isCall = false) (hfree : s.table.ParameterFree)
    {r : Option (Nat × Replacement)}
    (h : (firstReplacement inner ctx i steps).run s = .ok r s') :
    s.Keeps s' ∧
      (∀ j new, r = some (j, new) → ∃ k st, j = i + k ∧ steps[k]? = some st ∧
        Replaces ctx s.slots j st.instr new ∧ Replaceable st.instr) ∧
      (r = none → ∀ st ∈ steps, ∀ name, st.instr ≠ .assume name ∧ st.instr ≠ .var name) := by
  cases r with
  | none =>
    obtain ⟨hkeeps, hunread⟩ := unread_of_run_firstReplacement hinner h
    exact ⟨hkeeps, nofun, fun _ => hunread⟩
  | some p =>
    obtain ⟨j, new⟩ := p
    obtain ⟨k, st, s₁, rfl, hst, hkeeps, hvisited⟩ :=
      exists_visited_of_run_firstReplacement hinner h
    refine ⟨hkeeps.trans (hvisited.keeps hinner), ?_, nofun⟩
    rintro _ _ ⟨⟩
    obtain ⟨hreplaces, hreplaceable⟩ := hvisited.replaces hinner (hkeeps.table ▸ hfree)
      (hcalls st (List.mem_of_getElem? hst))
    exact ⟨k, st, rfl, hst, hreplaces.mono hkeeps.slots, hreplaceable⟩

/-- What every visit keeps is kept by a search, and what it finds is what a visit has found. -/
theorem leads_firstReplacement {I : Session → Prop} {Q : Nat → Replacement → Prop}
    {E : Failure → Session → Prop}
    (hvisit : ∀ k st s, steps[k]? = some st → I s → Leads (visit inner ctx (i + k) st) s
      (fun r s' => I s' ∧ ∀ new, r = some new → Q (i + k) new) E) (hs : I s) :
    Leads (firstReplacement inner ctx i steps) s
      (fun r s' => I s' ∧ ∀ j new, r = some (j, new) → Q j new) E := by
  induction steps generalizing i s with
  | nil => exact ⟨hs, nofun⟩
  | cons st rest ih =>
    rw [firstReplacement]
    refine (hvisit 0 st s rfl hs).bind fun r s₁ h => ?_
    cases r with
    | some new =>
      refine ⟨h.1, ?_⟩
      rintro _ _ ⟨⟩
      exact h.2 new rfl
    | none =>
      refine ih (fun k st' s hk hs => ?_) h.1
      rw [Nat.add_right_comm]
      exact hvisit (k + 1) st' s hk hs

end NamedStack.Session
