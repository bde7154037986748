import NamedStack.Proofs.Named.Progress

/-!
# Passes over a structured program

A pass that comes to the first read of a structured program replaces it, and what it puts there
leaves the program resolved further from the left.
-/

namespace NamedStack.Named

open Session (InnerResult)

variable {p : Program} {s : Session} {stack : List Name} {ops done code th rest : List Instr}
  {hidden : Hidden} {shape : Shape}

/-! ### The first read -/

private theorem readIn_of_live {x : Name} (h : live x ops = true) : ReadIn ops x := by
  have hcons (i : Instr) {rest : List Instr} (hrest : ReadIn rest x) : ReadIn (i :: rest) x := by
    obtain ⟨j, hj, hread⟩ := hrest
    exact ⟨j, List.mem_cons_of_mem _ hj, hread⟩
  fun_induction live x ops with
  | case1 => cases h
  | case2 y rest ih =>
    rcases (Bool.or_eq_true _ _).mp h with hy | h
    · exact ⟨_, List.mem_cons_self, .inl (by rw [of_decide_eq_true hy])⟩
    · exact hcons _ (ih h)
  | case3 y rest ih =>
    rcases (Bool.or_eq_true _ _).mp h with hy | h
    · exact ⟨_, List.mem_cons_self, .inr (by rw [of_decide_eq_true hy])⟩
    · exact hcons _ (ih h)
  | case4 y rest ih => exact hcons _ (ih ((Bool.and_eq_true _ _).mp h).2)
  | case5 i rest _ _ _ ih => exact hcons _ (ih h)

/-- What a session knows in front of the first read. -/
structure AtRead (stack : List Name) (ctx : Context) (pos : Nat) (m : Machine) (hidden : Hidden)
    (shape : Shape) (rest : List Instr) : Prop where
  views : Views stack ctx
  left : (Step.instrs ctx.steps).drop pos = rest
  machine : (Machine.start ctx.stack).run (ctx.steps.take pos) = .ok m
  height : ctx.heightAt pos = shape.height + hidden.length
  outside : ctx.nestLevel pos = 0 → shape.arms = []
  locate : ∀ x, x ∈ stack ∨ x ∈ shape.written → live x rest = true →
    ∃ k, hidden[k]? = some (some x) ∧
      m.locate? x = some (shape.height + hidden.length - 1 - (shape.height + k))

/-- The instructions of the first steps. -/
theorem instrs_take (steps : List Step) (n : Nat) :
    Step.instrs (steps.take n) = (Step.instrs steps).take n :=
  List.map_take

/-- What a session knows in front of its first read. -/
theorem Progress.atRead (hp : Structured p) {i : Instr} {name : Name} (hi : IsRead i name)
    {tail : List Instr} (h : Progress p s code th (i :: tail) hidden shape) {ctx : Context}
    (hv : Views p.stack ctx) (hsteps : ctx.steps = s.steps) :
    ∃ m, AtRead p.stack ctx th.length m hidden shape (i :: tail) := by
  obtain ⟨done, hres⟩ := h.resolves
  have hinstrs : Step.instrs ctx.steps = th ++ i :: tail := hsteps ▸ h.instrs
  have htake : Step.instrs (ctx.steps.take th.length) = th := by
    rw [instrs_take, hinstrs, List.take_left]
  have hfaithful : ∀ st ∈ ctx.steps.take th.length, Faithful st := fun st hst =>
    hv.faithful st (List.mem_of_mem_take hst)
  obtain ⟨m, below, hm, htracks⟩ := hres.tracks (h.not_readIn_nil hp) h.thins hp.bounded
  obtain ⟨hs, hrun, ha⟩ := hres.above h.thins
  obtain ⟨st, hst, hinstr⟩ : ∃ st, ctx.steps[th.length]? = some st ∧ st.instr = i := by
    refine Option.map_eq_some_iff.mp ?_
    rw [← List.getElem?_map]
    change (Step.instrs ctx.steps)[th.length]? = some i
    rw [hinstrs, List.getElem?_append_right (Nat.le_refl _), Nat.sub_self]
    rfl
  have hmarker (o : Opcode) : st.instr ≠ .op o := by
    rw [hinstr]
    rcases hi with rfl | rfl <;> nofun
  rw [← htake, ← heights_eq_of_faithful hfaithful] at hrun
  have hfree := endsFree_of_faithful hv.faithful
  refine ⟨m, hv, ?_, ?_, ?_, fun hnest => ?_, fun x hx hlive => ?_⟩
  · rw [hinstrs, List.drop_left]
  · rw [run_eq_of_faithful hfaithful, htake, hv.stack_eq]
    exact hm
  · have hle := (List.getElem?_eq_some_iff.mp hst).1.le
    rw [Context.heightAt_eq hv.branches hfree hle ?_ (by rw [hv.stack_eq]; exact hrun), ha.now]
    intro st' hst' hend
    cases hst.symm.trans hst'
    exact absurd hend (hmarker _)
  · have hlevels := (Context.nestLevel_eq_zero_iff hv.branches hfree hst (hmarker _) (hmarker _)
      hrun).mp hnest
    rw [ha.levels, List.map_eq_nil_iff] at hlevels
    exact hlevels
  · have hlocate := htracks.locate ⟨readIn_of_live hlive, hlive⟩ (hres.available x hx hlive)
    rwa [htracks.height_eq] at hlocate

/-- Whether a replacement is one way to resolve the reads at the front of instructions. -/
structure Resolvable (shape : Shape) (hidden : Hidden) (rest : List Instr)
    (r : Session.Replacement) : Prop where
  pos : 0 < r.2
  le : r.2 ≤ rest.length
  reads : ∀ i ∈ rest.take r.2, ∃ x, IsRead i x
  faithful : ∀ st ∈ r.1, Faithful st
  resolved : Measure.referencesList (Step.instrs r.1) = 0
  segment : ∃ hidden', Segment shape hidden (rest.drop r.2) (rest.take r.2)
    (Step.instrs r.1) hidden'

private theorem faithful_number (n : Int) : Faithful (.number n) := by
  refine faithful_of ?_
  unfold Instr.number
  cases SmallInt.ofInt? n <;> trivial

private theorem references_number (n : Int) (o : Opcode) :
    Measure.referencesList (Step.instrs [.number n, .op o]) = 0 := by
  simp only [Step.instrs, List.map_cons, List.map_nil, Step.number, Step.op, Step.of, Instr.number]
  cases SmallInt.ofInt? n <;> rfl

namespace AtRead

variable {ctx : Context} {pos : Nat} {m : Machine} {i : Instr} {name : Name} {tail : List Instr}

private theorem resolvable_number (hi : IsRead i name) {n : Int} {o : Opcode} {hidden' : Hidden}
    (ho : Steady (.op o)) (hseg : Segment shape hidden tail [i] [.number n, .op o] hidden') :
    Resolvable shape hidden (i :: tail) ([.number n, .op o], 1) where
  pos := Nat.one_pos
  le := by simp
  reads j hj := ⟨name, by rw [List.mem_singleton.mp hj]; exact hi⟩
  faithful st hst := by
    rcases List.mem_cons.mp hst with rfl | hst
    · exact faithful_number n
    · rw [List.mem_singleton.mp hst]
      exact faithful_of ho
  resolved := references_number n o
  segment := ⟨hidden', hseg⟩

private theorem fetch (h : AtRead stack ctx pos m hidden shape (i :: tail)) (hi : IsRead i name)
    {k : Nat} (hk : hidden[k]? = some (some name)) {move : Bool}
    (hmove : move = true → shape.arms = [] ∧ live name tail = false) :
    ∃ r, Session.fetch ctx pos name
        (shape.height + hidden.length - 1 - (shape.height + k) : Nat) move = .ok r ∧
      Resolvable shape hidden (i :: tail) r := by
  have hlt : k < hidden.length := (List.getElem?_eq_some_iff.mp hk).1
  have hdepth : ctx.heightAt pos - 1 -
      ((shape.height + hidden.length - 1 - (shape.height + k) : Nat) : Int) =
        (shape.height + k : Nat) := by
    rw [h.height]
    omega
  rw [Session.fetch]
  simp only [hdepth]
  rw [if_neg (by omega)]
  cases move with
  | false => exact ⟨_, rfl, resolvable_number hi trivial (.copy hi hk)⟩
  | true =>
    obtain ⟨hopen, hdead⟩ := hmove rfl
    by_cases hzero : shape.height + k = 0
    · refine ⟨([], 1), by simp [hzero], Nat.one_pos, by simp,
        fun j hj => ⟨name, by rw [List.mem_singleton.mp hj]; exact hi⟩, nofun, rfl, hidden.tail, ?_⟩
      obtain ⟨hheight, rfl⟩ : shape.height = 0 ∧ k = 0 := by omega
      refine .elide (.cons hi .nil) ?_ hopen hheight (by simpa using hdead)
      cases hidden with
      | nil => cases hk
      | cons x hidden =>
        cases hk
        rfl
    · have hne : ¬ ((shape.height + k : Nat) : Int) = 0 := by omega
      refine ⟨([.number (shape.height + k : Nat), .op .roll], 1),
        by simp only [Bool.true_and, decide_eq_true_eq, if_neg hne]; rfl, ?_⟩
      exact resolvable_number hi trivial (.move hi hk hopen hdead)

private theorem live_read (hi : IsRead i name) (tail : List Instr) :
    live name (i :: tail) = true := by
  rcases hi with rfl | rfl <;> simp [live]

private theorem drop_succ (h : AtRead stack ctx pos m hidden shape (i :: tail)) :
    (Step.instrs ctx.steps).drop (pos + 1) = tail := by
  rw [← List.drop_drop, h.left]
  rfl

private theorem run_readVariable (h : AtRead stack ctx pos m hidden shape (i :: tail))
    (hslots : s.slots = []) (hi : IsRead i name) (hname : name ∉ stack)
    (hwritten : name ∈ shape.written) (hassume : ∀ st ∈ ctx.steps, st.instr ≠ .assume name) :
    ∃ r, (Session.readVariable ctx pos name).run s = .ok r s ∧
      Resolvable shape hidden (i :: tail) r := by
  obtain ⟨k, hk, hlocate⟩ := h.locate name (.inr hwritten) (live_read hi tail)
  have hlast : (ctx.followingUses name pos = 0 && ctx.nestLevel pos = 0) = true →
      shape.arms = [] ∧ live name tail = false := by
    intro hl
    rw [Bool.and_eq_true, decide_eq_true_eq, decide_eq_true_eq] at hl
    exact ⟨h.outside hl.2, h.drop_succ ▸ h.views.live_of_followingUses hname hassume hl.1⟩
  obtain ⟨r, hr, hres⟩ := h.fetch hi hk hlast
  refine ⟨r, ?_, hres⟩
  rw [Session.readVariable, Session.run_bind_ok (Session.run_machineAt h.machine),
    Session.run_bind_ok (Session.run_fromSlot hslots ..)]
  simp only [hlocate, hr, Session.run_orRefuse_ok]

variable {reads : List Step} {names : List Name}

private theorem exists_names (h : ∀ st ∈ reads, ∃ x, st.instr = .assume x) :
    ∃ names : List Name, Step.instrs reads = names.map .assume := by
  induction reads with
  | nil => exact ⟨[], rfl⟩
  | cons st reads ih =>
    obtain ⟨x, hx⟩ := h st List.mem_cons_self
    obtain ⟨names, hnames⟩ := ih fun st hst => h st (List.mem_cons_of_mem _ hst)
    refine ⟨x :: names, ?_⟩
    rw [List.map_cons, ← hnames, ← hx]
    rfl

private theorem forall₂_isRead (names : List Name) :
    List.Forall₂ IsRead (names.map .assume) names := by
  induction names with
  | nil => exact .nil
  | cons x names ih => exact .cons (.inl rfl) ih

private theorem live_assume {x : Name} (hx : x ∈ names) (rest : List Instr) :
    live x (names.map .assume ++ rest) = true := by
  induction names with
  | nil => cases hx
  | cons y names ih =>
    by_cases hy : y = x
    · simp [live, hy]
    · simpa [live, hy] using ih ((List.mem_cons.mp hx).resolve_left fun h => hy h.symm)

private theorem hidden_of_onTop (h : AtRead stack ctx pos m hidden shape rest)
    (hrest : ∃ tail, rest = names.map .assume ++ tail) (hstack : ∀ x ∈ names, x ∈ stack)
    (hnames : Step.instrs reads = names.map .assume) (htop : Session.onTop ctx m pos reads = true)
    {j : Nat} {x : Name} (hj : names[j]? = some x) :
    (ctx.followingReads x (pos + j) = 0 ∧ ctx.nestLevel (pos + j) = 0) ∧
      ∃ k, hidden[k]? = some (some x) ∧ shape.height + k + 1 + j = names.length := by
  obtain ⟨tail, rfl⟩ := hrest
  have hmem : x ∈ names := List.mem_of_getElem? hj
  have hlen : reads.length = names.length := by
    simpa [Step.instrs] using congrArg List.length hnames
  obtain ⟨st, hst, hinstr⟩ : ∃ st, reads[j]? = some st ∧ st.instr = .assume x := by
    refine Option.map_eq_some_iff.mp ?_
    rw [← List.getElem?_map]
    change (Step.instrs reads)[j]? = _
    rw [hnames, List.getElem?_map, hj]
    rfl
  rw [Session.onTop, List.all_eq_true] at htop
  have hread := htop (st, j) (List.mem_zipIdx_iff_getElem?.mpr hst)
  simp only [hinstr, Bool.and_eq_true, decide_eq_true_eq] at hread
  obtain ⟨⟨⟨-, hfollowing⟩, hnest⟩, hlocate⟩ := hread
  refine ⟨⟨hfollowing, hnest⟩, ?_⟩
  obtain ⟨k, hk, hpos⟩ := h.locate x (.inl (hstack x hmem)) (live_assume hmem tail)
  refine ⟨k, hk, ?_⟩
  have hlt : k < hidden.length := (List.getElem?_eq_some_iff.mp hk).1
  simp only [hpos, Option.any_some, decide_eq_true_eq, h.height, hlen] at hlocate
  omega

private theorem resolvable_elide (h : AtRead stack ctx pos m hidden shape rest)
    (hassume : ∀ x, .assume x ∈ rest → x ∈ stack) (hfront : reads <+: ctx.steps.drop pos)
    (hpos : 0 < reads.length) (hreads : ∀ st ∈ reads, ∃ x, st.instr = .assume x)
    (htop : Session.onTop ctx m pos reads = true) :
    Resolvable shape hidden rest ([], reads.length) := by
  obtain ⟨names, hnames⟩ := exists_names hreads
  obtain ⟨back, hback⟩ := hfront
  have hlen : names.length = reads.length := by
    simpa [Step.instrs] using (congrArg List.length hnames).symm
  have hrest : rest = names.map .assume ++ Step.instrs back := by
    rw [← h.left, Step.instrs, ← List.map_drop, ← hback, List.map_append]
    exact congrArg (· ++ _) hnames
  have hstack : ∀ x ∈ names, x ∈ stack := fun x hx => hassume x (by
    rw [hrest]
    exact List.mem_append_left _ (List.mem_map_of_mem hx))
  have hlocated {j : Nat} {x : Name} (hj : names[j]? = some x) :=
    h.hidden_of_onTop ⟨_, hrest⟩ hstack hnames htop hj
  have hname {j : Nat} (hj : j < names.length) : names[j]? = some names[j] :=
    List.getElem?_eq_getElem hj
  have hheight : shape.height = 0 := by
    obtain ⟨-, k, -, hk⟩ := hlocated (hname (j := names.length - 1) (by omega))
    omega
  have hopen : shape.arms = [] := by
    obtain ⟨⟨-, hnest⟩, -⟩ := hlocated (hname (j := 0) (by omega))
    exact h.outside hnest
  have htops : hidden = names.reverse.map some ++ hidden.drop names.length := by
    refine List.ext_getElem? fun j => ?_
    by_cases hj : j < names.length
    · obtain ⟨-, k, hk, hkj⟩ := hlocated (hname (j := names.length - 1 - j) (by omega))
      obtain rfl : k = j := by omega
      rw [hk, List.getElem?_append_left (by simpa using hj), List.getElem?_map,
        List.getElem?_reverse hj, hname (by omega)]
      rfl
    · rw [List.getElem?_append_right (by simpa using hj), List.getElem?_drop]
      congr 1
      simp only [List.length_map, List.length_reverse]
      omega
  have hdead : ∀ x ∈ names, live x (Step.instrs back) = false := by
    intro x hx
    obtain ⟨j, hj⟩ := List.getElem?_of_mem hx
    obtain ⟨⟨hfollowing, -⟩, -⟩ := hlocated hj
    have hnone := h.views.live_of_followingReads (hstack x hx) hfollowing
    have hlt : j < names.length := (List.getElem?_eq_some_iff.mp hj).1
    rw [Nat.add_assoc, ← List.drop_drop, h.left, hrest, List.drop_append_of_le_length
      (by simpa using hlt), ← List.map_drop] at hnone
    refine Bool.eq_false_of_not_eq_true fun hlive => ?_
    rw [live_reads (forall₂_isRead _) hlive] at hnone
    cases hnone
  have htake : rest.take reads.length = names.map .assume := by
    rw [hrest, ← hlen, List.take_left' (by simp)]
  have hdrop : rest.drop reads.length = Step.instrs back := by
    rw [hrest, ← hlen, List.drop_left' (by simp)]
  refine ⟨hpos, ?_, fun i hi => ?_, by simp, rfl, hidden.drop names.length, ?_⟩
  · rw [hrest]
    simp [hlen]
  · rw [htake] at hi
    obtain ⟨x, -, rfl⟩ := List.mem_map.mp hi
    exact ⟨x, .inl rfl⟩
  · rw [htake, hdrop]
    exact .elide (forall₂_isRead names) htops hopen hheight hdead

private theorem run_readAssumption (h : AtRead stack ctx pos m hidden shape (i :: tail))
    (hslots : s.slots = []) (hi : IsRead i name) (hname : name ∈ stack)
    (hassume : ∀ x, .assume x ∈ i :: tail → x ∈ stack) (shared : Bool) :
    ∃ r, (Session.readAssumption ctx pos name shared).run s = .ok r s ∧
      Resolvable shape hidden (i :: tail) r := by
  rw [Session.readAssumption, Session.run_bind_ok (Session.run_machineAt h.machine),
    Session.run_bind_ok (Session.run_fromSlot hslots ..)]
  simp only
  rw [Session.run_bind_ok (EStateM.run_get s)]
  cases hn : Session.elidable ctx s.table s.slots m pos with
  | zero =>
    obtain ⟨k, hk, hlocate⟩ := h.locate name (.inl hname) (live_read hi tail)
    have hlast : ((ctx.followingReads name pos = 0 && ctx.nestLevel pos = 0) && !shared) = true →
        shape.arms = [] ∧ live name tail = false := by
      intro hl
      rw [Bool.and_eq_true, Bool.and_eq_true, decide_eq_true_eq, decide_eq_true_eq] at hl
      exact ⟨h.outside hl.1.2, h.drop_succ ▸ h.views.live_of_followingReads hname hl.1.1⟩
    obtain ⟨r, hr, hres⟩ := h.fetch hi hk hlast
    refine ⟨r, ?_, hres⟩
    simp only [Session.placeOf?, hlocate, hr, Session.run_orRefuse_ok]
  | succ n =>
    obtain ⟨reads, hfront, hlen, hreads, htop⟩ := Session.elidable_spec hn (Nat.succ_pos n)
    refine ⟨([], n + 1), rfl, ?_⟩
    rw [← hlen]
    exact h.resolvable_elide hassume hfront (by omega) hreads htop

/-- The first read is replaced. -/
theorem run_visit (inner : InnerResult) (h : AtRead stack ctx pos m hidden shape (i :: tail))
    (hknows : s.table.Knows stack names) (hslots : s.slots = []) (hi : IsRead i name)
    (hname : name ∈ stack ∨ name ∈ shape.written ∧ name ∈ names)
    (hassume : ∀ st ∈ ctx.steps, ∀ x, st.instr = .assume x → x ∈ stack) {st : Step}
    (hst : st.instr = i) (hmem : st ∈ ctx.steps) :
    ∃ r, (Session.visit inner ctx pos st).run s = .ok (some r) s ∧
      Resolvable shape hidden (i :: tail) r := by
  have hassume' : ∀ x, .assume x ∈ i :: tail → x ∈ stack := by
    intro x hx
    rw [← h.left] at hx
    obtain ⟨st', hst', hinstr⟩ := List.mem_map.mp (List.mem_of_mem_drop hx)
    exact hassume st' hst' x hinstr
  rcases hi with rfl | rfl
  · obtain ⟨r, hr, hres⟩ := h.run_readAssumption hslots (.inl rfl)
      (hassume st hmem name hst) hassume' st.shared
    refine ⟨r, ?_, hres⟩
    rw [Session.visit, hst]
    simp only
    rw [Session.run_bind_ok hr]
    rfl
  · have hvisit {x : Session.Replacement} (hr : (Session.readName ctx pos name).run s = .ok x s) :
        (Session.visit inner ctx pos st).run s = .ok (some x) s := by
      rw [Session.visit, hst]
      simp only
      rw [Session.run_bind_ok hr]
      rfl
    by_cases hstack : name ∈ stack
    · obtain ⟨r, hr, hres⟩ := h.run_readAssumption hslots (.inr rfl) hstack hassume' false
      refine ⟨r, hvisit ?_, hres⟩
      obtain ⟨sym, hsym, hkind⟩ : ∃ sym, s.table.lookup? name = some sym ∧
          sym.kind = .stackItem := by
        have hitem := (hknows.isStackItem_iff name).mpr hstack
        rw [Context.isStackItem, beq_iff_eq] at hitem
        exact Option.map_eq_some_iff.mp hitem
      rw [Session.readName, Session.run_bind_ok (EStateM.run_get s), hsym]
      simp only [hkind]
      exact hr
    · obtain ⟨hwritten, hbound⟩ := hname.resolve_left hstack
      obtain ⟨r, hr, hres⟩ := h.run_readVariable hslots (.inr rfl) hstack hwritten
        fun st hst hx => hstack (hassume st hst name hx)
      refine ⟨r, hvisit ?_, hres⟩
      obtain ⟨sym, hsym⟩ := Option.isSome_iff_exists.mp (hknows.bound name hbound)
      rw [Session.readName, Session.run_bind_ok (EStateM.run_get s), hsym]
      simp only [hknows.variable_of_lookup name hstack sym hsym]
      exact hr

end AtRead

end NamedStack.Named
