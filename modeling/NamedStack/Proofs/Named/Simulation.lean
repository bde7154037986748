import NamedStack.Proofs.Named.Layout

/-!
# The engine does what a program with names means

A resolved program, without the writes that are left in it, is run by the engine. As long as the
program with names runs, the engine has its expressions on top of the hidden items, which hold the
values that the layout says; where it fails, the engine fails. Every piece of a program keeps this,
and so does a program that is resolved piece by piece.
-/

namespace NamedStack.Named

open Engine
open Script (Piece Writes)

/-- The instructions that are no writes. -/
def withoutWrites (ops : List Instr) : List Instr := ops.filter fun
  | .assign _ => false
  | _ => true

/-- The state of the engine with hidden items below the expressions. -/
def State.above (r : State) (below : Stack) : Engine.State :=
  { r.toState with main := r.main ++ below }

/-- A state agrees with what is known of the program, and the hidden items hold the values of their
names. -/
structure Matches (shape : Shape) (hidden : Hidden) (r : State) (below : Stack) : Prop where
  fits : Fits shape.arms r.conds shape.height r.main.length
  holds : List.Forall₂ (fun o v => ∀ x, o = some x → v = r.store x) hidden below
  literal : ∀ n, shape.literal = some n → runs r.conds = true →
    ∃ a, r.main.head? = some a ∧ ScriptNum.read? a = some n

/-- Outside of all conditionals code is run. -/
theorem Matches.runs_of_outside {shape : Shape} {hidden : Hidden} {r : State} {below : Stack}
    (hm : Matches shape hidden r below) (hopen : shape.arms = []) : runs r.conds = true := by
  have hfits := hm.fits
  rw [hopen] at hfits
  rw [hfits.conds_eq_nil]
  rfl

/-- The engine follows a piece of a program with names. -/
def Follows (valid : Checker) (shape : Shape) (hidden : Hidden) (r : State) (below : Stack)
    (seg : List Instr) (ps : List Piece) : Prop :=
  match run valid r seg with
  | .ok r' => ∃ below', Matches shape hidden r' below' ∧ r'.alt = r.alt ∧
      Leads valid (r.above below) ps (r'.above below')
  | .error _ => Stops valid (r.above below) ps

variable {valid : Checker} {stack : List Name} {shape shape' : Shape} {hidden : Hidden} {r : State}
  {below : Stack}

private theorem run_single (i : Instr) : run valid r [i] = step valid r i := by
  change (step valid r i).bind .ok = _
  cases step valid r i <;> rfl

private theorem running_eq (s : Engine.State) : s.running = runs s.conds := rfl

/-! ### Opcodes and data -/

variable {i : Instr} {p : Piece} {o : Opcode} {name : Name} {k : Nat} {hidden' : Hidden}
  {ps : List Piece}

private theorem follows_effect (hp : isPlain p = true) (hd : isDisabled p = false)
    (hstep : step valid r i = (act valid r.toState p).map fun t => { r with toState := t })
    (hm : Matches shape hidden r below) (harms : shape'.arms = shape.arms)
    (hacts : runs r.conds = true →
      effectOf valid p (r.main ++ below) = (effectOf valid p r.main).map (· ++ below) ∧
      ∀ e, effectOf valid p r.main = some e → e.length = shape'.height ∧
        ∀ n, shape'.literal = some n → ∃ a, e.head? = some a ∧ ScriptNum.read? a = some n) :
    Follows valid shape' hidden r below [i] [p] := by
  rw [Follows, run_single, hstep, act_plain valid hp, running_eq]
  cases hr : runs r.conds with
  | false =>
    refine ⟨below, ⟨?_, hm.holds, ?_⟩, rfl, .skipped hp hd hr⟩
    · rw [harms]
      exact hm.fits.stay hr _
    · intro n _ hr'
      cases hr.symm.trans hr'
  | true =>
    obtain ⟨heff, hres⟩ := hacts hr
    cases he : effectOf valid p r.main with
    | none =>
      rw [he] at heff
      simp only [if_true, Engine.State.onMain, he, Except.map]
      refine .of_act fun n => ⟨.opcodeFailed, ?_⟩
      rw [act_plain valid hp, if_pos (by exact hr), Engine.State.onMain]
      simp only [State.above, heff, Option.map_none]
    | some e =>
      rw [he] at heff
      obtain ⟨hlen, hlit⟩ := hres e he
      simp only [if_true, Engine.State.onMain, he, Except.map]
      refine ⟨below, ⟨?_, hm.holds, fun n hn _ => hlit n hn⟩, trivial, ?_⟩
      · rw [harms, hlen]
        exact hm.fits.move hr _
      · exact .plain hp (by exact hr) heff

private theorem follows_plain {r' : Nat} (hm : Matches shape hidden r below)
    (hmark : o.isMarker = false) (hreach : reach shape.literal o = some r')
    (hle : r' ≤ shape.height) :
    Follows valid
      { shape with height := (shape.height + o.info.delta).toNat, literal := o.smallInt? }
      hidden r below [.op o] [.opcode o] := by
  cases hd : o.isDisabled with
  | true =>
    rw [Follows, run_single, step, hd, if_pos rfl]
    exact .of_disabled hd
  | false =>
    have hplain : o.isPlain = true := by
      cases o <;> first | rfl | (cases hmark; done) | cases hreach
    refine follows_effect (p := .opcode o) hplain hd ?_ hm rfl fun hr => ?_
    · rw [step, hd]
      rfl
    · have hlen := hm.fits.eq_of_runs hr
      have hacts := actsOn_of_reach valid hreach hmark (hlen ▸ hle) (fun n hn => hm.literal n hn hr)
      refine ⟨hacts.1 below, fun e he => ⟨?_, fun n hn => ?_⟩⟩
      · have := hacts.2 e he
        dsimp only
        omega
      · cases o with
        | small k =>
          cases he
          cases hn
          exact ⟨_, rfl, ScriptNum.read?_ofInt _ (by have := k.property; omega)⟩
        | _ => cases hn

private theorem follows_push (data : Bytes) (hm : Matches shape hidden r below) :
    Follows valid { shape with height := shape.height + 1, literal := ScriptNum.read? data } hidden
      r
      below [.push data] [.data data] := by
  refine follows_effect (p := .data data) rfl rfl rfl hm rfl fun hr => ⟨rfl, fun e he => ?_⟩
  cases he
  refine ⟨congrArg (· + 1) (hm.fits.eq_of_runs hr), fun n hn => ⟨_, rfl, ?_⟩⟩
  unfold pushed
  split
  · next h =>
    subst h
    exact hn
  · exact hn

/-! ### Conditionals -/

private theorem follows_act (hd : isDisabled p = false)
    (hstep : step valid r i = (act valid r.toState p).map fun t => { r with toState := t })
    (hm : Matches shape hidden r below) {t : Engine.State} (ht : act valid r.toState p = .ok t)
    (hfits : Fits shape'.arms t.conds shape'.height t.main.length) (hlit : shape'.literal = none)
    (halt : t.alt = r.alt) (hact : ∀ n, act valid { r.above below with ops := n } p =
      .ok { t with main := t.main ++ below, ops := n }) :
    Follows valid shape' hidden r below [i] [p] := by
  rw [Follows, run_single, hstep, ht]
  exact ⟨below, ⟨hfits, hm.holds, fun n hn => by rw [hlit] at hn; cases hn⟩, halt, .of_act hd hact⟩

private theorem step_opcode (hd : o.isDisabled = false) :
    step valid r (.op o) =
      (act valid r.toState (.opcode o)).map fun t => { r with toState := t } := by
  rw [step, hd]
  rfl

private theorem follows_open {test : Bytes → Bool} (hd : o.isDisabled = false)
    (hexec : ∀ s, exec valid o s = s.openCond test) (hm : Matches shape hidden r below)
    (hle : 1 ≤ shape.height) (hheight : shape'.height = shape.height - 1)
    (harms : shape'.arms = { entry := shape'.height } :: shape.arms)
    (hlit : shape'.literal = none) :
    Follows valid shape' hidden r below [.op o] [.opcode o] := by
  cases hr : runs r.conds with
  | false =>
    refine follows_act (p := .opcode o) hd (step_opcode hd) hm
      ((hexec _).trans (openCond_skipped hr test)) ?_ hlit rfl fun n => ?_
    · rw [harms]
      exact .inert hr hm.fits
    · exact (hexec _).trans (openCond_skipped (by exact hr) test)
  | true =>
    have hlen := hm.fits.eq_of_runs hr
    obtain ⟨a, main, hmain⟩ : ∃ a main, r.main = a :: main :=
      List.exists_cons_of_length_pos (by omega)
    refine follows_act (p := .opcode o) hd (step_opcode hd) hm
      ((hexec _).trans ((openCond_iff hr test _).mpr ⟨a, main, hmain, rfl⟩)) ?_ hlit rfl fun n => ?_
    · have hmain' : main.length = shape'.height := by
        rw [hmain, List.length_cons] at hlen
        omega
      rw [harms, hmain']
      exact hm.fits.opens hr (test a) _
    · refine (hexec _).trans ((openCond_iff (by exact hr) test _).mpr ⟨a, main ++ below, ?_, rfl⟩)
      simp [State.above, hmain]

variable {arms : List (Level Nat)} {names : List Name} {reads rest : List Instr}

private theorem follows_else {entry : Nat} (hm : Matches shape hidden r below)
    (hopen : shape.arms = { entry } :: arms) (hheight : shape'.height = entry)
    (harms : shape'.arms = { entry, arm := some shape.height } :: arms)
    (hlit : shape'.literal = none) :
    Follows valid shape' hidden r below [.op .opElse] [.opcode .opElse] := by
  have hfits := hm.fits
  rw [hopen] at hfits
  obtain ⟨c, conds, hconds⟩ := hfits.exists_cons
  refine follows_act (p := .opcode .opElse) rfl (step_opcode rfl) hm
    ((flip_iff _ _).mpr ⟨c, conds, hconds, rfl⟩) ?_ hlit rfl fun n =>
      (flip_iff _ _).mpr ⟨c, conds, hconds, rfl⟩
  rw [harms, hheight]
  rw [hconds] at hfits
  exact hfits.toggle

private theorem follows_endIf {a : Level Nat} (hm : Matches shape hidden r below)
    (hopen : shape.arms = a :: arms) (hend : shape.height = a.arm.getD a.entry)
    (hheight : shape'.height = shape.height) (harms : shape'.arms = arms)
    (hlit : shape'.literal = none) :
    Follows valid shape' hidden r below [.op .opEndIf] [.opcode .opEndIf] := by
  have hfits := hm.fits
  rw [hopen] at hfits
  obtain ⟨c, conds, hconds⟩ := hfits.exists_cons
  refine follows_act (p := .opcode .opEndIf) rfl (step_opcode rfl) hm
    ((close_iff _ _).mpr ⟨c, conds, hconds, rfl⟩) ?_ hlit rfl fun n =>
      (close_iff _ _).mpr ⟨c, conds, hconds, rfl⟩
  rw [harms, hheight, hend]
  rw [hconds, hend] at hfits
  exact hfits.close

private theorem follows_op (hm : Matches shape hidden r below)
    (hshape : Shape.step stack shape (.op o) = some shape') :
    Follows valid shape' hidden r below [.op o] [.opcode o] := by
  cases Shape.moves_of_step hshape with
  | plain hmark hreach hle => exact follows_plain hm hmark hreach hle
  | opens ho hle =>
    rcases ho with rfl | rfl
    · exact follows_open rfl (fun _ => rfl) hm hle rfl rfl rfl
    · exact follows_open rfl (fun _ => rfl) hm hle rfl rfl rfl
  | splits harms => exact follows_else hm harms rfl rfl rfl
  | closes harms hend => exact follows_endIf hm harms hend rfl rfl rfl
  | read hi _ => rcases hi with h | h <;> cases h

/-! ### Reads and writes -/

private theorem step_read (hi : IsRead i name) :
    step valid r i = .ok (if r.running then { r with main := r.store name :: r.main } else r) := by
  rcases hi with rfl | rfl <;> rfl

private theorem getElem?_above (hm : Matches shape hidden r below) (hr : runs r.conds = true)
    (hk : hidden[k]? = some (some name)) :
    (r.above below).main[shape.height + k]? = some (r.store name) := by
  have hlen := hm.fits.eq_of_runs hr
  obtain ⟨hk', hget⟩ := List.getElem?_eq_some_iff.mp hk
  have hb : k < below.length := hm.holds.length_eq ▸ hk'
  have hval := hm.holds.get hk' hb name hget
  rw [State.above, List.getElem?_append_right (by omega), hlen, Nat.add_sub_cancel_left,
    List.getElem?_eq_getElem hb]
  exact congrArg some hval

private theorem follows_copy (hi : IsRead i name) (hm : Matches shape hidden r below)
    (hk : hidden[k]? = some (some name)) :
    Follows valid { shape with height := shape.height + 1, literal := none } hidden r below [i]
      [numberPiece (shape.height + k : Nat), .opcode .pick] := by
  rw [Follows, run_single, step_read hi, running_eq]
  cases hr : runs r.conds with
  | false =>
    have hpush := isPush_numberPiece (shape.height + k : Nat)
    refine ⟨below, ⟨hm.fits.stay hr _, hm.holds, nofun⟩, rfl, ?_⟩
    exact .cons (.skipped hpush.plain hpush.enabled hr) (.skipped rfl rfl hr)
  | true =>
    refine ⟨below, ⟨?_, hm.holds, nofun⟩, rfl, .pick (by exact hr) (getElem?_above hm hr hk)⟩
    have hlen := hm.fits.eq_of_runs hr
    simp only [if_true, List.length_cons, hlen]
    exact hm.fits.move hr _

private theorem follows_move (hi : IsRead i name) (hm : Matches shape hidden r below)
    (hk : hidden[k]? = some (some name)) (hopen : shape.arms = []) :
    Follows valid { shape with height := shape.height + 1, literal := none } (hidden.eraseIdx k) r
      below [i] [numberPiece (shape.height + k : Nat), .opcode .roll] := by
  have hr := hm.runs_of_outside hopen
  have hlen := hm.fits.eq_of_runs hr
  have hroll : Leads valid _ _ _ := .roll (by exact hr) (getElem?_above hm hr hk)
  rw [State.above, List.eraseIdx_append_of_length_le (by omega), hlen,
    Nat.add_sub_cancel_left] at hroll
  rw [Follows, run_single, step_read hi, running_eq, hr]
  refine ⟨below.eraseIdx k, ⟨?_, ?_, nofun⟩, rfl, hroll⟩
  · simp only [if_true, List.length_cons, hlen]
    exact hm.fits.move hr _
  · rw [List.eraseIdx_eq_take_drop_succ, List.eraseIdx_eq_take_drop_succ]
    exact List.rel_append (List.forall₂_take k hm.holds) (List.forall₂_drop (k + 1) hm.holds)

private theorem follows_write (hm : Matches shape hidden r below) (hopen : shape.arms = [])
    (hheight : shape.height = 1) :
    Follows valid { height := 0, arms := [], literal := none, written := name :: shape.written }
      (hidden.write name) r below [.assign name] [] := by
  have hr := hm.runs_of_outside hopen
  have hfits := hm.fits
  rw [hopen] at hfits
  obtain ⟨a, hmain⟩ : ∃ a, r.main = [a] :=
    List.length_eq_one_iff.mp ((hm.fits.eq_of_runs hr).trans hheight)
  rw [Follows, run_single, step, running_eq, if_pos hr, hmain]
  refine ⟨a :: below, ⟨hfits.move hr _, ?_, nofun⟩, rfl, ?_⟩
  · refine .cons (fun x hx => ?_)
      (List.forall₂_map_left_iff.mpr (hm.holds.imp fun o v h x hx => ?_))
    · cases hx
      exact (Function.update_self name a r.store).symm
    · -- what was the value of the name is that of no name any more
      by_cases ho : o = some name
      · rw [if_pos ho] at hx
        cases hx
      · rw [if_neg ho] at hx
        have hne : x ≠ name := fun h => ho (h ▸ hx)
        exact (h x hx).trans (Function.update_of_ne hne ..).symm
  · have : r.above below =
        State.above { r with main := [], store := Function.update r.store name a }
        (a :: below) := by
      simp [State.above, hmain]
    rw [this]
    exact .nil _

private theorem run_reads (hreads : List.Forall₂ IsRead reads names) (hr : runs r.conds = true) :
    run valid r reads = .ok { r with main := (names.map r.store).reverse ++ r.main } := by
  induction hreads generalizing r with
  | nil => rfl
  | @cons i name reads names hi _ ih =>
    have hstep : run valid r (i :: reads) =
        (step valid r i).bind fun t => run valid t reads := rfl
    rw [hstep, step_read hi, if_pos (by exact hr)]
    refine (ih (r := { r with main := r.store name :: r.main }) hr).trans ?_
    simp

private theorem follows_elide (hreads : List.Forall₂ IsRead reads names)
    (htop : hidden = names.reverse.map some ++ hidden') (hm : Matches shape hidden r below)
    (hopen : shape.arms = []) (hheight : shape.height = 0)
    (hshape : Shape.run stack shape reads = some shape') :
    Follows valid shape' hidden' r below reads [] := by
  have hr := hm.runs_of_outside hopen
  have hmain : r.main = [] :=
    List.length_eq_zero_iff.mp ((hm.fits.eq_of_runs hr).trans hheight)
  obtain ⟨harms, hheight', -, hlit⟩ := Shape.run_reads hreads hshape
  have hholds := hm.holds
  rw [htop] at hholds
  obtain ⟨top, below', rfl, htops, hholds'⟩ := forall₂_append_left hholds
  -- the hidden items on top are what the reads push
  obtain rfl : top = (names.map r.store).reverse := by
    rw [← List.map_reverse, ← List.forall₂_eq_eq_eq, List.forall₂_map_right_iff]
    exact (List.forall₂_map_left_iff.mp htops).flip.imp fun v x h => h x rfl
  rw [Follows, run_reads hreads hr]
  refine ⟨below', ⟨?_, hholds', fun n hn _ => ?_⟩, rfl, ?_⟩
  · have hfits := hm.fits.move hr shape'.height
    simpa [harms, hheight', hheight, hmain] using hfits
  · rcases hlit with hlit | hlit
    · cases hlit.symm.trans hn
    · obtain ⟨a, ha, -⟩ := hm.literal n (hlit ▸ hn) hr
      rw [hmain] at ha
      cases ha
  · simpa [State.above, hmain] using Leads.nil _

/-! ### Pieces of a program, and programs -/

private theorem eq_of_writes (hi : Writes i p) (h : List.Forall₂ Writes [i] ps) : ps = [p] := by
  obtain ⟨q, qs, hq, hqs, rfl⟩ := List.forall₂_cons_left_iff.mp h
  cases hqs
  cases hi.symm.trans hq
  rfl

private theorem eq_of_writes_number {n : Int} (h : List.Forall₂ Writes [.number n, .op o] ps) :
    ps = [numberPiece n, .opcode o] := by
  obtain ⟨q, qs, hq, hqs, rfl⟩ := List.forall₂_cons_left_iff.mp h
  cases (writes_number n).symm.trans hq
  rw [eq_of_writes (i := .op o) rfl hqs]

private theorem withoutWrites_number (n : Int) (o : Opcode) :
    withoutWrites [.number n, .op o] = [.number n, .op o] := by
  unfold withoutWrites Instr.number
  cases SmallInt.ofInt? n <;> rfl

/-- The engine follows a piece of a program that is resolved. -/
theorem Segment.follows {seg new : List Instr} (hseg : Segment shape hidden rest seg new hidden')
    (hshape : Shape.run stack shape seg = some shape') (hm : Matches shape hidden r below)
    (hps : List.Forall₂ Writes (withoutWrites new) ps) :
    Follows valid shape' hidden' r below seg ps := by
  cases hseg with
  | op o =>
    rw [Shape.run_singleton] at hshape
    rw [eq_of_writes (i := .op o) rfl hps]
    exact follows_op hm hshape
  | push data =>
    rw [Shape.run_singleton] at hshape
    cases hshape
    rw [eq_of_writes (i := .push data) rfl hps]
    exact follows_push data hm
  | write name =>
    cases hps
    obtain ⟨hopen, hheight, rfl⟩ := Shape.run_write hshape
    exact follows_write hm hopen hheight
  | copy hi hk =>
    rw [withoutWrites_number] at hps
    rw [eq_of_writes_number hps, Shape.run_read hi hshape]
    exact follows_copy hi hm hk
  | move hi hk hopen _ =>
    rw [withoutWrites_number] at hps
    rw [eq_of_writes_number hps, Shape.run_read hi hshape]
    exact follows_move hi hm hk hopen
  | elide hreads htop hopen hheight _ =>
    cases hps
    exact follows_elide hreads htop hm hopen hheight hshape

private theorem Follows.append {first second : List Instr} {qs : List Piece}
    (h : Follows valid shape hidden r below first ps)
    (k : ∀ r' below', Matches shape hidden r' below' →
      Follows valid shape' hidden' r' below' second qs) :
    Follows valid shape' hidden' r below (first ++ second) (ps ++ qs) := by
  have happend : run valid r (first ++ second) =
      (run valid r first).bind fun t => run valid t second := List.foldlM_append
  rw [Follows] at h ⊢
  rw [happend]
  cases hfirst : run valid r first with
  | error e =>
    rw [hfirst] at h
    exact h.append qs
  | ok r' =>
    rw [hfirst] at h
    obtain ⟨below', hm, halt, hleads⟩ := h
    have hk := k r' below' hm
    rw [Follows] at hk
    cases hsecond : run valid r' second with
    | error e =>
      rw [hsecond] at hk
      simp only [Except.bind, hsecond]
      exact .of_leads hleads hk
    | ok r'' =>
      rw [hsecond] at hk
      obtain ⟨below'', hm', halt', hleads'⟩ := hk
      simp only [Except.bind, hsecond]
      exact ⟨below'', hm', halt'.trans halt, hleads.append hleads'⟩

/-- The engine follows a program that is resolved from the left. -/
theorem Resolves.follows {ops done code : List Instr}
    (h : Resolves stack ops done code hidden shape rest)
    (hps : List.Forall₂ Writes (withoutWrites code) ps)
    (hm : Matches {} (stack.reverse.map some) r below) :
    Follows valid shape hidden r below done ps := by
  induction h generalizing ps with
  | start =>
    cases hps
    exact ⟨below, hm, rfl, .nil _⟩
  | @step done code seg new rest hidden hidden' shape shape' _ hseg hshape ih =>
    rw [withoutWrites, List.filter_append] at hps
    obtain ⟨ps, qs, rfl, hps, hqs⟩ := forall₂_append_left hps
    exact (ih hps).append fun r' below' hm' => hseg.follows hshape hm' hqs

end NamedStack.Named
