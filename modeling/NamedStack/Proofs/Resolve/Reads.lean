import NamedStack.Proofs.Resolve.Linear

/-!
# What a read brings to the top

Where the machine can follow the engine up to a read of a straight-line program, and still has an
item of the name that is read, that item holds the initial value of the name, and the code brings it
to the top. If it has none, the code brings up what lies where the name was declared.
-/

namespace NamedStack

open Engine

namespace Session

variable {o : Options} {s s' : Session} {ctx : Context} {k : Nat} {r : Replacement} {t : Table}
variable {inner : InnerResult}

/-! ### Where a read finds its value -/

/-- Whether a position, counted from the bottom, is that of an item with a name, or where the name
was declared if there is no such item. -/
inductive Finds (t : Table) (m : Machine) (name : Name) : Int → Prop
  | item {d : Nat} {x : Item} (hx : m.main[d]? = some x) (hname : x.name = name) :
      Finds t m name (m.height - 1 - d)
  | declared {height depth : Int} (hnone : ∀ x ∈ m.main, x.name ≠ name)
      (hplace : t.place? name = some (height, depth)) : Finds t m name height

variable {m : Machine} {name : Name}

private theorem finds_of_highest? {p : Item → Bool} (hp : ∀ x, p x = true → x.name = name)
    {pos : Nat} (h : m.highest? p = some pos) : Finds t m name pos := by
  obtain ⟨d, hd, rfl⟩ := Option.map_eq_some_iff.mp h
  obtain ⟨hlt, hx, -⟩ := List.findIdx?_eq_some_iff_getElem.mp hd
  have hpos : ((m.height - 1 - d : Nat) : Int) = m.height - 1 - d := by
    have hlt : d < m.height := hlt
    omega
  rw [hpos]
  exact .item (List.getElem?_eq_getElem hlt) (hp _ hx)

private theorem finds_of_locate? {pos : Nat} (h : m.locate? name = some pos) : Finds t m name pos :=
  finds_of_highest? (fun x hx => by simp at hx; exact hx.1) h

private theorem finds_of_placeOf? {pos : Int} (h : placeOf? t m name = some pos) :
    Finds t m name pos := by
  unfold placeOf? at h
  split at h
  · next hlocate =>
    cases h
    exact finds_of_locate? hlocate
  · split at h
    · next hlocate =>
      cases h
      exact finds_of_highest? (fun x hx => by simpa using hx) hlocate
    · next hlocate =>
      obtain ⟨⟨height, depth⟩, hplace, rfl⟩ := Option.map_eq_some_iff.mp h
      refine .declared (fun x hx hname => ?_) hplace
      rw [Machine.locateAny?, Machine.highest?, Option.map_eq_none_iff,
        List.findIdx?_eq_none_iff] at hlocate
      simpa [hname] using hlocate x hx

/-- A read of the initial stack that is replaced alone fetches an item. -/
theorem exists_fetch_of_run_readAssumption {shared : Bool} (hslots : s.slots = [])
    (hm : (Machine.start ctx.stack).run (ctx.steps.take k) = .ok m)
    (h : (readAssumption ctx k name shared).run s = .ok r s') (hone : r.2 = 1)
    (hat : ∀ st x, ctx.steps[k]? = some st → st.instr = .assume x → x = name) :
    ∃ pos move, fetch ctx k name pos move = .ok r ∧ Finds s.table m name pos := by
  rw [readAssumption, run_bind_ok (run_machineAt hm), run_bind_ok (run_fromSlot hslots _ _ _)] at h
  obtain ⟨_, s₁, hget, h₁⟩ := exists_of_run_bind h
  cases hget
  split at h₁
  · split at h₁
    · next hplace =>
      obtain ⟨hfetch, -⟩ := eq_ok_of_run_orRefuse h₁
      exact ⟨_, _, hfetch, finds_of_placeOf? hplace⟩
    · cases h₁
  · next hpos =>
    cases h₁
    obtain ⟨reads, hfront, hlen, hreads, htop⟩ := elidable_spec rfl (Nat.pos_of_ne_zero hpos)
    dsimp only at hone
    rw [hone] at hlen ⊢
    obtain ⟨st, rfl⟩ := List.length_eq_one_iff.mp hlen
    obtain ⟨x, hx⟩ := hreads st (List.mem_singleton_self st)
    have hst : ctx.steps[k]? = some st := by
      obtain ⟨rest, hrest⟩ := hfront
      have hhead := congrArg (·[0]?) hrest
      rw [List.getElem?_drop] at hhead
      exact hhead.symm
    obtain rfl := hat st x hst hx
    -- the value is on top, from where a move takes no steps
    simp only [onTop, List.zipIdx_singleton, List.all_cons, List.all_nil, hx, Bool.and_true,
      Bool.and_eq_true, Option.any_eq_true, decide_eq_true_eq, List.length_singleton] at htop
    obtain ⟨-, pos, hlocate, hpos⟩ := htop
    refine ⟨pos, true, ?_, finds_of_locate? hlocate⟩
    have hdepth : ctx.heightAt k - 1 - pos = 0 := by omega
    rw [fetch, hdepth]
    rfl

/-- So does every other read that is replaced alone. -/
theorem exists_fetch_of_run_visit {st : Step} (hst : ctx.steps[k]? = some st)
    (hread : st.instr = .assume name ∨ st.instr = .var name) (hslots : s.slots = [])
    (hfree : s.table.ParameterFree)
    (hm : (Machine.start ctx.stack).run (ctx.steps.take k) = .ok m)
    (h : (visit inner ctx k st).run s = .ok (some r) s') (hone : r.2 = 1) :
    ∃ pos move, fetch ctx k name pos move = .ok r ∧ Finds s.table m name pos := by
  have hat : ∀ st' x, ctx.steps[k]? = some st' → st'.instr = .assume x → x = name := by
    intro st' x hst' hx
    rw [hst] at hst'
    cases hst'
    rw [hx] at hread
    rcases hread with hread | hread
    · exact Instr.assume.inj hread
    · cases hread
  unfold visit at h
  rcases hread with hi | hi
  · rw [hi] at h
    obtain ⟨r', s₁, hread, h₁⟩ := exists_of_run_bind h
    cases h₁
    exact exists_fetch_of_run_readAssumption hslots hm hread hone hat
  · rw [hi] at h
    obtain ⟨r', s₁, hread, h₁⟩ := exists_of_run_bind h
    cases h₁
    obtain ⟨_, s₂, hget, h₂⟩ := exists_of_run_bind hread
    cases hget
    cases hlookup : s.table.lookup? name with
    | none =>
      rw [hlookup] at h₂
      cases h₂
    | some sym =>
      rw [hlookup] at h₂
      dsimp only at h₂
      split at h₂
      · exact exists_fetch_of_run_readAssumption hslots hm h₂ hone hat
      · rw [readVariable, run_bind_ok (run_machineAt hm),
          run_bind_ok (run_fromSlot hslots _ _ _)] at h₂
        dsimp only at h₂
        split at h₂
        · next hlocate =>
          obtain ⟨hfetch, -⟩ := eq_ok_of_run_orRefuse h₂
          exact ⟨_, _, hfetch, finds_of_locate? hlocate⟩
        · cases h₂
      · next hargument _ => exact absurd hargument (hfree hlookup)
      · cases h₂
      · cases h₂

private theorem fetch_cases {pos : Int} {move : Bool} (h : fetch ctx k name pos move = .ok r) :
    ∃ d : Nat, ctx.heightAt k - 1 - pos = d ∧
      (d = 0 ∧ r = ([], 1) ∨
        ∃ o, (o = Opcode.pick ∨ o = .roll) ∧ r = ([.number d, .op o], 1)) := by
  unfold fetch at h
  dsimp only at h
  split at h
  · cases h
  · next hneg =>
    obtain ⟨d, hd⟩ := Int.eq_ofNat_of_zero_le (Int.not_lt.mp hneg)
    refine ⟨d, hd, ?_⟩
    rw [hd] at h
    split at h
    · next hzero =>
      cases h
      simp only [Bool.and_eq_true, decide_eq_true_eq] at hzero
      exact .inl ⟨by omega, rfl⟩
    · cases h
      refine .inr ⟨_, ?_, rfl⟩
      cases move with
      | true => exact .inr rfl
      | false => exact .inl rfl

end Session

namespace Engine

variable {valid : Checker} {items : Stack} {script : Bytes} {v u : State} {ops : List Instr}

/-- A number and `PICK` or `ROLL` bring the item at that depth to the top. -/
theorem exists_fetched (hscript : Script.serialize ops = .ok script)
    (hrun : runFrom valid items [] script = .ok u) {k d : Nat} {o : Opcode}
    (ho : o = .pick ∨ o = .roll) (hnumber : ops[k]? = some (.number d))
    (hop : ops[k + 1]? = some (.op o)) (hv : stateAfter valid items script k = .ok v)
    (hconds : v.conds = []) :
    ∃ w, stateAfter valid items script (k + 2) = .ok w ∧ w.main.head? = v.main[d]? := by
  have hrunning : v.running = true := by rw [State.running, hconds]
  obtain ⟨-, p, a, b, -, hw, -, hb, hruns⟩ := exists_runsAt hscript hrun hnumber
  obtain rfl : v = a := Except.ok.inj (hv.symm.trans hruns.run_take)
  cases (writes_number d).symm.trans hw
  have hpush := isPush_numberPiece d
  obtain ⟨stack, heffect, -, -, rfl⟩ := (stepPiece_plain valid hpush.plain hrunning b).mp hb
  rw [hpush.effect] at heffect
  cases heffect
  obtain ⟨-, p, a, c, -, hw, -, hc, hruns'⟩ := exists_runsAt hscript hrun hop
  cases hruns.stateAfter_succ.symm.trans hruns'.run_take
  cases hw
  have hplain : isPlain (.opcode o) = true := by rcases ho with rfl | rfl <;> rfl
  obtain ⟨stack, heffect, -, -, rfl⟩ := (stepPiece_plain valid hplain (by exact hrunning) c).mp hc
  refine ⟨_, hruns'.stateAfter_succ, ?_⟩
  -- the item that was pushed is read as the number
  have hread {n : Int} (h : ScriptNum.read? (ScriptNum.ofInt d) = some n) : n = d := by
    rw [ScriptNum.read?_eq] at h
    split at h
    · exact (Option.some.inj h).symm.trans (ScriptNum.value_ofInt d)
    · cases h
  have hneg : ¬ (d : Int) < 0 := by omega
  rcases ho with rfl | rfl
  · obtain ⟨n, hn, hpick⟩ := Option.bind_eq_some_iff.mp heffect
    rw [hread hn, pick, if_neg hneg, Int.toNat_natCast] at hpick
    obtain ⟨x, hx, rfl⟩ := Option.map_eq_some_iff.mp hpick
    exact hx.symm
  · obtain ⟨n, hn, hroll⟩ := Option.bind_eq_some_iff.mp heffect
    rw [hread hn, roll, if_neg hneg, Int.toNat_natCast] at hroll
    obtain ⟨x, hx, rfl⟩ := Option.map_eq_some_iff.mp hroll
    exact hx.symm

end Engine

namespace Session

variable {inner : InnerResult} {o : Options} {opt : Option Peephole.Optimizer}
variable {s s₁ s₂ last : Session} {ctx : Context} {k : Nat} {r : Replacement} {t : Table}
variable {valid : Checker} {items : Stack} {script : Bytes} {u : State}

/-- What stands in front of a read that is replaced, and the code in its place, is the front of the
program that is left in the end. -/
theorem Linear.take_of_edits (hs : Linear t s₁) (hopt : ∀ p, opt = some p → p.enabled = false)
    (hinner : Inward inner) (h : Edits inner o opt s₁ ctx k r s₂) (hcode : IsCode r.1)
    (hreaches : Reaches inner o opt s₂ last) (hlast : (pass inner o opt).run last = .ok false s) :
    (Step.instrs s.steps).take (k + r.1.length) = Step.instrs (ctx.steps.take k ++ r.1) := by
  have hs₂ := hs.of_edits hopt hinner h
  obtain ⟨-, hlinear, -⟩ := hs.of_sees hopt h.sees
  obtain ⟨st₀, s₃, s₄, hst₀, -, -, -, hreads⟩ := h.exists_visit hinner
  obtain ⟨-, hsteps, -⟩ := h.spec hinner hs.expanded
  obtain ⟨hk, -⟩ := List.getElem?_eq_some_iff.mp hst₀
  have hfront : (Step.instrs s₂.steps).take (k + r.1.length) =
      Step.instrs (ctx.steps.take k ++ r.1) := by
    have hlen : (Step.instrs (ctx.steps.take k ++ r.1)).length = k + r.1.length := by
      rw [Step.instrs, List.length_map, List.length_append, List.length_take_of_le hk.le]
    rw [hsteps, Step.instrs_append, ← hlen, List.take_left]
  have hplaced : ∀ i ∈ (Step.instrs s₂.steps).take (k + r.1.length), i.isPlaced = true := by
    rw [hfront, Step.instrs_append]
    refine List.forall_mem_append.mpr ⟨fun i hi => ?_, fun i hi => ?_⟩
    · obtain ⟨st, hst, rfl⟩ := List.mem_map.mp hi
      have hst' := (hlinear st (List.mem_of_mem_take hst)).2.1
      cases hi : st.instr with
      | op | push => rfl
      | assume name => exact absurd hi (hreads st hst name).1
      | var name => exact absurd hi (hreads st hst name).2
      | _ =>
        rw [hi] at hst'
        cases hst'
    · have hstraight := hcode.straight i hi
      cases i with
      | op | push => rfl
      | _ => exact hstraight.elim
  rw [instrs_of_run_pass hinner hopt hlast,
    hreaches.take_eq hinner hopt hs₂.expanded hplaced, hfront]

/-- What is known of a read that is replaced alone, and of the program in the end. -/
structure Fetches (p : Program) (ctx : Context) (k : Nat) (r : Replacement) (m : Machine)
    (name : Name) (ops : List Instr) : Prop where
  flat : Flat (.ofProgram p) ctx
  steps : ∀ st ∈ ctx.steps, st.Genuine ∧ st.instr.isLinear = true ∧ st.Tallied
  fetch : ∃ pos move, fetch ctx k name pos move = .ok r ∧ Finds (.ofProgram p) m name pos
  front : ops.take (k + r.1.length) = Step.instrs (ctx.steps.take k ++ r.1)

variable {name : Name}

private theorem Replaced.fetches {p : Program} (h : Replaced p o opt ctx k r)
    (hlinear : ∀ i ∈ p.ops, i.isLinear = true) (hopt : ∀ q, opt = some q → q.enabled = false)
    (hresolve : NamedStack.resolve (.ofProgram p) o opt p.ops = { session := s, failure := none })
    (hone : r.2 = 1) {st : Step} (hst : ctx.steps[k]? = some st)
    (hread : st.instr = .assume name ∨ st.instr = .var name) {m : Machine}
    (hm : (Machine.start p.stack).run (ctx.steps.take k) = .ok m) :
    Fetches p ctx k r m name (Step.instrs s.steps) := by
  obtain ⟨s₁, s₃, s₀, s₂, hcalls, hroute, hreaches, hedits⟩ := h
  have hinner := inward_innerOf o opt (Measure.scriptDepth (.ofProgram p) p.ops)
  have hs₁ : Linear (.ofProgram p) s₁ := by
    have hstart := Linear.of_program hlinear
    have hnone : (expandCalls o 0).run { steps := Step.ofList p.ops, table := .ofProgram p } =
        .ok () _ := run_expandCalls fun st hst => hstart.expanded.calls _ (List.mem_map_of_mem hst)
    cases hcalls.symm.trans hnone
    exact (hstart.of_route hroute).of_reaches hopt hinner hreaches
  obtain ⟨hflat, hsteps, htable⟩ := hs₁.of_sees hopt hedits.sees
  obtain ⟨pos, move, hfetch, hfinds⟩ : ∃ pos move, Session.fetch ctx k name pos move = .ok r ∧
      Finds (.ofProgram p) m name pos := by
    obtain ⟨st', s₄, s₅, hst', hvisit, htable₄, hslots₄, -⟩ :=
      hedits.exists_visit hinner
    cases hst.symm.trans hst'
    have htable₄ := htable₄.trans htable
    rw [← Table.stack_ofProgram p, ← hflat.stack] at hm
    rw [← htable₄]
    refine exists_fetch_of_run_visit hst hread ?_ ?_ hm hvisit hone
    · exact List.subset_nil.mp (hs₁.slots ▸ hslots₄)
    · rw [htable₄]
      exact Table.parameterFree_ofProgram p
  obtain ⟨-, hcode, -⟩ := fetch_code hfetch
  refine ⟨hflat, hsteps, ⟨pos, move, hfetch, hfinds⟩, ?_⟩
  -- the passes that follow lead to what is left in the end
  obtain ⟨s₃', s₀', last, hcalls', hroute', hlast, hpass⟩ :=
    exists_reaches_of_run_resolveDeep (resolveWithin_eq_iff.mp hresolve)
  cases hcalls.symm.trans hcalls'
  cases hroute.symm.trans hroute'
  have htail := Reaches.of_last (hreaches.tail ⟨ctx, k, r, hedits⟩) hlast hpass
  exact hs₁.take_of_edits hopt hinner hedits hcode htail hpass

/-- The code that fetches an item, at the front of a script, brings it to the top. -/
theorem exists_stateAfter_of_fetch {ops : List Instr} {pos : Int} {move : Bool} {v : State}
    (hscript : Script.serialize ops = .ok script) (hrun : runFrom valid items [] script = .ok u)
    (hfetch : fetch ctx k name pos move = .ok r) (hk : k ≤ ctx.steps.length)
    (hfront : ops.take (k + r.1.length) = Step.instrs (ctx.steps.take k ++ r.1))
    (hv : stateAfter valid items script k = .ok v) (hconds : v.conds = [])
    (hheight : (v.main.length : Int) = ctx.heightAt k) :
    ∃ w, stateAfter valid items script (k + r.1.length) = .ok w ∧
      w.main.head? = v.main[(v.main.length - 1 - pos).toNat]? := by
  obtain ⟨d, hd, hr⟩ := fetch_cases hfetch
  rw [hheight, hd, Int.toNat_natCast]
  rcases hr with ⟨rfl, rfl⟩ | ⟨op, hop, rfl⟩
  · exact ⟨v, hv, List.head?_eq_getElem?⟩
  · have hcode (j : Nat) (hj : j < 2) :
        ops[k + j]? = [Step.number d, Step.op op][j]?.map (·.instr) := by
      rw [← List.getElem?_take_of_lt (show k + j < k + 2 by omega)]
      rw [show k + 2 = k + [Step.number d, Step.op op].length from rfl, hfront, Step.instrs,
        List.getElem?_map, List.getElem?_append_right (by rw [List.length_take]; omega),
        List.length_take_of_le hk, Nat.add_sub_cancel_left]
    exact exists_fetched hscript hrun hop (hcode 0 (by omega)) (hcode 1 (by omega)) hv hconds

/-- What the code in place of a read leaves on top, where the machine can follow a run of the script
up to it: the initial value of the name that is read, if the machine has an item of that name, and
else the item that lies where the name was declared. -/
theorem read_brings_initial_value {p : Program} (hlinear : ∀ i ∈ p.ops, i.isLinear = true)
    (hnodup : p.stack.Nodup) (hopt : ∀ q, opt = some q → q.enabled = false)
    (hresolve : NamedStack.resolve (.ofProgram p) o opt p.ops = { session := s, failure := none })
    (hscript : Script.serialize (Step.instrs s.steps) = .ok script)
    (hlen : items.length = p.stack.length) (hrun : runFrom valid items [] script = .ok u)
    (hreplaced : Replaced p o opt ctx k r) (hone : r.2 = 1) {st : Step} {name : Name}
    (hst : ctx.steps[k]? = some st) (hread : st.instr = .assume name ∨ st.instr = .var name)
    (hname : name ≠ []) (hfollows : Machine.Follows valid p.stack items script ctx.steps k)
    {m : Machine} (hm : (Machine.start p.stack).run (ctx.steps.take k) = .ok m) :
    ∃ v w, stateAfter valid items script k = .ok v ∧
      stateAfter valid items script (k + r.1.length) = .ok w ∧
      ((∃ x ∈ m.main, x.name = name) →
        name ∈ p.stack ∧ w.main.head? = some (Named.initial p.stack items name)) ∧
      ((∀ x ∈ m.main, x.name ≠ name) → ∃ height depth,
        (Table.ofProgram p).place? name = some (height, depth) ∧
          w.main.head? = v.main[(v.main.length - 1 - height).toNat]?) := by
  obtain ⟨hflat, hsteps, ⟨pos, move, hfetch, hfinds⟩, hfront⟩ :=
    hreplaced.fetches hlinear hopt hresolve hone hst hread hm
  obtain ⟨hk, -⟩ := List.getElem?_eq_some_iff.mp hst
  have hops : ∀ j < k, ∃ st, ctx.steps[j]? = some st ∧
      (Step.instrs s.steps)[j]? = some st.instr ∧
        ∀ o, st.instr = .op o → o.isMarker = false := by
    intro j hj
    have hj' : j < ctx.steps.length := by omega
    refine ⟨ctx.steps[j], List.getElem?_eq_getElem hj', ?_, fun o ho => ?_⟩
    · rw [← List.getElem?_take_of_lt (show j < k + r.1.length by omega), hfront, Step.instrs,
        List.getElem?_map, List.getElem?_append_left (by rw [List.length_take]; omega),
        List.getElem?_take_of_lt hj, List.getElem?_eq_getElem hj']
      rfl
    · have hlinear' := (hsteps _ (List.getElem_mem hj')).2.1
      rw [ho] at hlinear'
      simpa [Instr.isLinear] using hlinear'
  obtain ⟨v, hv, habreast, hheight⟩ := Machine.exists_abreast hnodup hlen
    (fun st hst => ⟨(hsteps st hst).1, (hsteps st hst).2.2⟩) hscript hrun hops hfollows hm
  rw [← Table.stack_ofProgram p, ← hflat.stack, ← Context.heightAt_of_branches hflat.branches]
    at hheight
  obtain ⟨w, hw, htop⟩ :=
    exists_stateAfter_of_fetch hscript hrun hfetch hk.le hfront hv habreast.conds hheight
  refine ⟨v, w, hv, hw, fun hsome => ?_, fun hnone => ?_⟩
  · cases hfinds with
    | @item d x hx hname' =>
      -- the item describes what the engine has at its place
      obtain ⟨hd, rfl⟩ := List.getElem?_eq_some_iff.mp hx
      have hmain := habreast.main.length_eq
      have hd' : d < v.main.length := hmain ▸ hd
      have hdepth : ((v.main.length : Int) - 1 - (m.height - 1 - d)).toNat = d := by
        rw [Machine.height, hmain]
        omega
      have hdescribes := habreast.main.get hd hd'
      rw [List.get_eq_getElem, List.get_eq_getElem] at hdescribes
      obtain ⟨hmem, hvalue⟩ := hdescribes.name (hname' ▸ hname)
      rw [hname'] at hmem hvalue
      exact ⟨hmem, by rw [htop, hdepth, List.getElem?_eq_getElem hd', hvalue]⟩
    | declared hnone =>
      obtain ⟨x, hx, hname'⟩ := hsome
      exact absurd hname' (hnone x hx)
  · cases hfinds with
    | item hx hname' => exact absurd hname' (hnone _ (List.mem_of_getElem? hx))
    | @declared _ depth _ hplace => exact ⟨pos, depth, hplace, htop⟩

/-- Copies and moves items, and then reads two of them. -/
def swapped : Program where
  stack := [[97], [98], [99]]
  ops := [.op .swap, .op .two, .op .pick, .op .drop, .assume [97], .var [98], .op .equal]

/-- Items that are copied and moved before they are read. -/
theorem read_brings_initial_value_swapped :
    ∃ s ctx r st v w,
      NamedStack.resolve (.ofProgram swapped) {} none swapped.ops =
        { session := s, failure := none } ∧
      Script.serialize (Step.instrs s.steps) = .ok [124, 82, 121, 117, 82, 122, 81, 122, 135] ∧
      Replaced swapped {} none ctx 6 r ∧ r.2 = 1 ∧ ctx.steps[6]? = some st ∧
      st.instr = .var [98] ∧
      stateAfter .none [[3], [2], [1]] [124, 82, 121, 117, 82, 122, 81, 122, 135] 6 = .ok v ∧
      stateAfter .none [[3], [2], [1]] [124, 82, 121, 117, 82, 122, 81, 122, 135] 8 = .ok w ∧
      w.main.head? = some [2] := by
  have hresolve : (NamedStack.resolve (.ofProgram swapped) {} none swapped.ops).failure = none := by
    cbv
  have hscript : Script.serialize (Step.instrs
      (NamedStack.resolve (.ofProgram swapped) {} none swapped.ops).session.steps) =
      .ok [124, 82, 121, 117, 82, 122, 81, 122, 135] := by cbv
  have hrun : runFrom .none [[3], [2], [1]] [] [124, 82, 121, 117, 82, 122, 81, 122, 135] =
      .ok { main := [[], [3]], ops := 6 } := by cbv
  have hreplaced : (replaced? swapped {} none 1).map (fun e =>
      (e.2.1, e.2.2.1.length, e.2.2.2, e.1.steps[6]?.map (·.instr),
        Machine.follows? swapped.stack e.1.steps 6,
        ((Machine.start swapped.stack).run (e.1.steps.take 6)).toOption.map fun m =>
          m.main.map (·.name))) =
      some (6, 2, 1, some (.var [98]), true, some [[97], [98], [99]]) := by cbv
  obtain ⟨⟨ctx, k, r⟩, hreplaced, hfacts⟩ := Option.map_eq_some_iff.mp hreplaced
  simp only [Prod.mk.injEq, Option.map_eq_some_iff] at hfacts
  obtain ⟨rfl, hcode, hone, ⟨st, hst, hinstr⟩, hfollows, m, hm, hnames⟩ := hfacts
  have hmem : ∃ x ∈ m.main, x.name = [98] := by
    rw [← List.mem_map, hnames]
    decide
  have hresolve := resolve_eq_of_failure hresolve
  have hlen : ([[3], [2], [1]] : Stack).length = swapped.stack.length := rfl
  obtain ⟨v, w, hv, hw, hvalue, -⟩ := read_brings_initial_value (by decide) (by decide) (by simp)
    hresolve hscript hlen hrun (replaced_of_replaced? hreplaced) hone hst (.inr hinstr) (by decide)
    (Machine.follows_of_follows? hfollows _) (eq_ok_of_toOption hm)
  rw [hcode] at hw
  exact ⟨_, ctx, r, st, v, w, hresolve, hscript, replaced_of_replaced? hreplaced, hone, hst, hinstr,
    hv, hw, (hvalue hmem).2⟩

/-- Whether a read that is replaced alone leaves something else than the initial value of its name
on top, in a run of the script to its end. -/
def Misreads (p : Program) (items : Stack) (name : Name) : Prop :=
  ∃ s script u ctx k r st w,
    NamedStack.resolve (.ofProgram p) {} none p.ops = { session := s, failure := none } ∧
      Script.serialize (Step.instrs s.steps) = .ok script ∧
      runFrom .none items [] script = .ok u ∧ Replaced p {} none ctx k r ∧ r.2 = 1 ∧
      ctx.steps[k]? = some st ∧ (st.instr = .assume name ∨ st.instr = .var name) ∧
      stateAfter .none items script (k + r.1.length) = .ok w ∧
      w.main.head? ≠ some (Named.initial p.stack items name)

/-- What is on top behind the code of the read that the first pass replaces, and what should be. -/
private def firstRead? (p : Program) (items : Stack) : Option (Name × Option Bytes × Bytes) := do
  let (ctx, k, r) ← replaced? p {} none 0
  let st ← ctx.steps[k]?
  let result := NamedStack.resolve (.ofProgram p) {} none p.ops
  let script ← (Script.serialize (Step.instrs result.session.steps)).toOption
  let _ ← (runFrom .none items [] script).toOption
  let w ← (stateAfter .none items script (k + r.1.length)).toOption
  match result.failure, r.2, st.instr with
  | none, 1, .assume name => return (name, w.main.head?, Named.initial p.stack items name)
  | _, _, _ => none

private theorem misreads_of_firstRead? {p : Program}
    (h : (firstRead? p items).any (fun q => q.1 = name && q.2.1 ≠ some q.2.2) = true) :
    Misreads p items name := by
  obtain ⟨⟨x, top, value⟩, hread, hne⟩ := (Option.any_eq_true _ _).mp h
  simp only [Bool.and_eq_true, decide_eq_true_eq] at hne
  obtain ⟨rfl, hne⟩ := hne
  obtain ⟨⟨ctx, k, r⟩, hreplaced, h⟩ := Option.bind_eq_some_iff.mp hread
  obtain ⟨st, hst, h⟩ := Option.bind_eq_some_iff.mp h
  obtain ⟨script, hscript, h⟩ := Option.bind_eq_some_iff.mp h
  obtain ⟨u, hrun, h⟩ := Option.bind_eq_some_iff.mp h
  obtain ⟨w, hw, h⟩ := Option.bind_eq_some_iff.mp h
  split at h
  · next hfailure hone hinstr =>
    cases h
    exact ⟨_, script, u, ctx, k, r, st, w, resolve_eq_of_failure hfailure,
      eq_ok_of_toOption hscript, eq_ok_of_toOption hrun, replaced_of_replaced? hreplaced, hone, hst,
      .inl hinstr, eq_ok_of_toOption hw, hne⟩
  · cases h

/-- Reads that leave something else than the initial value of their name on top: the value was
dropped, or the machine did not see which item was moved, that an item was doubled, that there was
none to look at, or how many items a check took. -/
theorem misreads_where_not_followed :
    Misreads
        { stack := [[97], [98]], ops := [.op .drop, .op .two, .assume [98], .op .two, .op .equal] }
        [[3], [1]] [98] ∧
      Misreads { stack := [[97], [98], [110]], ops := [.op .roll, .assume [97]] }
        [[1], [2], [3]] [97] ∧
      Misreads { stack := [[97], [98]], ops := [.op .ifDup, .assume [97]] } [[2], [1]] [97] ∧
      Misreads
        { stack := [[97], [98]]
          ops := [.op .toAltStack, .op .toAltStack, .op .checkLockTimeVerify, .op .fromAltStack,
            .op .fromAltStack, .assume [97]] }
        [[2], [1]] [97] ∧
      Misreads
        { stack := [[97], [98], [99], [100], [110], [109]]
          ops := [.op .checkMultiSig, .assume [99]] }
        [[], [], [], [3], [2], [1]] [99] :=
  ⟨misreads_of_firstRead? (by cbv), misreads_of_firstRead? (by cbv),
    misreads_of_firstRead? (by cbv), misreads_of_firstRead? (by cbv),
    misreads_of_firstRead? (by cbv)⟩

end Session

end NamedStack
