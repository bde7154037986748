import NamedStack.Proofs.Context.Scan

/-!
# What later steps of a scan leave alone

A branch that is over does not change any more, an open one does not end in front of the steps that
follow, and new ones start behind. So what is known of a branch once it has ended is known of it at
the end of the program.
-/

namespace NamedStack.Branch.Scan

/-- What is left of a scan after steps from a position on: arms that were over are as they were,
open ones have not ended in front of the position, and new ones do not start in front of it. -/
structure Later (p : Nat) (s s' : Scan) : Prop where
  kept : ∀ (k : Nat) (b : Branch), s.branches[k]? = some b →
    ∃ b' : Branch, s'.branches[k]? = some b' ∧ b'.isTrue = b.isTrue ∧ b'.start = b.start ∧
      b'.nest = b.nest ∧ (∀ x, b.stop = some x → b'.stop = some x ∧ b'.sibling = b.sibling) ∧
      (b.stop = none → ∀ x, b'.stop = some x → p ≤ x)
  new : ∀ (k : Nat) (b' : Branch), s.branches[k]? = none → s'.branches[k]? = some b' → p ≤ b'.start

private theorem Later.refl (p : Nat) (s : Scan) : Later p s s where
  kept := fun _ b hb => ⟨b, hb, rfl, rfl, rfl, fun _ hx => ⟨hx, rfl⟩,
    fun hnone _ hx => nomatch hnone.symm.trans hx⟩
  new := fun _ _ hnone hb' => nomatch hnone.symm.trans hb'

variable {p k : Nat} {s s' : Scan} {instr : Instr} {b : Branch}

/-- Later than what is later. -/
theorem Later.trans {s'' : Scan} (h : Later p s s') (h' : Later p s' s'') : Later p s s'' := by
  constructor
  · intro k b hb
    obtain ⟨b', hb', htrue, hstart, hnest, hover, hopen⟩ := h.kept k b hb
    obtain ⟨b'', hb'', htrue', hstart', hnest', hover', hopen'⟩ := h'.kept k b' hb'
    refine ⟨b'', hb'', htrue'.trans htrue, hstart'.trans hstart, hnest'.trans hnest, ?_, ?_⟩
    · intro x hx
      obtain ⟨hx', hsib⟩ := hover x hx
      obtain ⟨hx'', hsib'⟩ := hover' x hx'
      exact ⟨hx'', hsib'.trans hsib⟩
    · intro hnone x hx
      cases hx' : b'.stop with
      | none => exact hopen' hx' x hx
      | some y =>
        cases (hover' y hx').1.symm.trans hx
        exact hopen hnone x hx'
  · intro k b'' hnone hb''
    cases hb' : s'.branches[k]? with
    | none => exact h'.new k b'' hb' hb''
    | some b' =>
      obtain ⟨_, hd, -, hstart, -⟩ := h'.kept k b' hb'
      cases hd.symm.trans hb''
      exact hstart ▸ h.new k b' hnone hb'

variable {q e : Nat} {instrs : List Instr}

/-- Later from a position on is later from any before it. -/
theorem Later.mono (h : Later q s s') (hle : p ≤ q) : Later p s s' where
  kept := fun k b hb => by
    obtain ⟨b', hb', htrue, hstart, hnest, hover, hopen⟩ := h.kept k b hb
    exact ⟨b', hb', htrue, hstart, hnest, hover, fun hnone x hx => hle.trans (hopen hnone x hx)⟩
  new := fun k b' hnone hb' => hle.trans (h.new k b' hnone hb')

/-- The step that opens an arm changes no other one, and the new one starts behind it. -/
theorem Later.of_opens (p : Nat) (s : Scan) : Later (p + 1) s (s.openArm p) := by
  have hlook := lookup_open s p
  constructor
  · exact fun k b hb => ⟨b, (hlook k b).mpr (.inl hb), rfl, rfl, rfl, fun _ hx => ⟨hx, rfl⟩,
      fun hnone _ hx => nomatch hnone.symm.trans hx⟩
  · intro k b' hnone hb'
    rcases (hlook k b').mp hb' with hb' | ⟨-, rfl⟩
    · cases hnone.symm.trans hb'
    · exact Nat.le_refl _

private theorem eq_of_ended {stop : Option Nat} {x : Nat} (hnone : stop = none)
    (hx : (if k = c then some q else stop) = some x) : q = x := by
  split at hx
  · exact Option.some.inj hx
  · cases hnone.symm.trans hx

/-- A step makes a scan later. -/
theorem Later.of_moves (hs : Sound s q) (hm : Moves s q instr s') (hle : p ≤ q) : Later p s s' := by
  cases hm with
  | pass => exact .refl p s
  | opens => exact (Later.of_opens q s).mono (Nat.le_succ_of_le hle)
  | @splits c cs b ho hb hfirst =>
    obtain ⟨_, hstop, -⟩ := hs.innermost ho hb
    have hlook := lookup_split (i := q) hb
    constructor
    · intro k t ht
      refine ⟨_, (hlook k _).mpr (.inl ⟨t, ht, rfl⟩), rfl, rfl, rfl, ?_, ?_⟩
      · intro x hx
        have hk := ne_of_stop hb hstop ht hx
        exact ⟨(if_neg hk).trans hx, if_neg hk⟩
      · exact fun hnone x hx => hle.trans_eq (eq_of_ended hnone hx)
    · intro k b' hnone hb'
      rcases (hlook k b').mp hb' with ⟨t, ht, -⟩ | ⟨-, rfl⟩
      · cases hnone.symm.trans ht
      · exact Nat.le_succ_of_le hle
  | @closes c cs b ho hb =>
    obtain ⟨_, hstop, -, -, -, harm, -⟩ := hs.innermost ho hb
    have hlook := lookup_close (i := q) hb (harm.sibling_ne_open hb hstop)
    constructor
    · intro k t ht
      refine ⟨_, (hlook k _).mpr ⟨t, ht, rfl⟩, rfl, rfl, rfl, ?_, ?_⟩
      · intro x hx
        exact ⟨(if_neg (ne_of_stop hb hstop ht hx)).trans hx, rfl⟩
      · exact fun hnone x hx => hle.trans_eq (eq_of_ended hnone hx)
    · intro k b' hnone hb'
      obtain ⟨t, ht, -⟩ := (hlook k b').mp hb'
      cases hnone.symm.trans ht

/-- A step that ends no arm leaves the open arms open beyond its own position. -/
theorem Later.of_no_end (hm : Moves s p instr s') (helse : instr ≠ .op .opElse)
    (hend : instr ≠ .op .opEndIf) : Later (p + 1) s s' := by
  cases hm with
  | pass => exact .refl _ s
  | opens => exact Later.of_opens p s
  | splits => exact absurd rfl helse
  | closes => exact absurd rfl hend

/-- A new arm starts behind the step that opens it. -/
theorem Moves.start_of_new {d : Branch} (hm : Moves s p instr s') (hnone : s.branches[k]? = none)
    (hd : s'.branches[k]? = some d) : d.start = p + 1 := by
  cases hm with
  | pass => cases hnone.symm.trans hd
  | opens =>
    rcases (lookup_append s.branches _ k d).mp hd with hd | ⟨-, rfl⟩
    · cases hnone.symm.trans hd
    · rfl
  | splits _ hb _ =>
    rcases (lookup_split hb k d).mp hd with ⟨t, ht, -⟩ | ⟨-, rfl⟩
    · cases hnone.symm.trans ht
    · rfl
  | closes _ hb =>
    have hlt := (List.getElem?_eq_some_iff.mp hd).1
    rw [length_closeAt] at hlt
    exact absurd (List.getElem?_eq_none_iff.mp hnone) (Nat.not_le.mpr hlt)

/-- A step leaves an open arm alone or ends it. A first arm that ends has no partner that was there
before, and a second one ends with its conditional. -/
theorem Moves.open_cases (hs : Sound s p) (hm : Moves s p instr s') (hb : s.branches[k]? = some b)
    (hstop : b.stop = none) :
    s'.branches[k]? = some b ∨
      ∃ d, s'.branches[k]? = some d ∧ d.stop = some p ∧ d.isTrue = b.isTrue ∧
        (d.isTrue = true → ∀ m, d.sibling = some m → s.branches[m]? = none) ∧
        (d.isTrue = false → instr = .op .opEndIf) := by
  cases hm with
  | pass => exact .inl hb
  | opens => exact .inl ((lookup_append s.branches _ k b).mpr (.inl hb))
  | @splits c cs t ho ht hfirst =>
    have hlook := (lookup_split (i := p) ht k _).mpr (.inl ⟨b, hb, rfl⟩)
    by_cases hk : k = c
    · subst hk
      cases hb.symm.trans ht
      rw [if_pos rfl, if_pos rfl] at hlook
      refine .inr ⟨_, hlook, rfl, rfl, ?_, ?_⟩
      · intro _ m hm
        cases hm
        exact List.getElem?_eq_none (Nat.le_refl _)
      · intro hfalse
        cases hfirst.symm.trans hfalse
    · rw [if_neg hk, if_neg hk] at hlook
      exact .inl hlook
  | @closes c cs t ho ht =>
    obtain ⟨_, htstop, -, -, -, harm, -⟩ := hs.innermost ho ht
    have hlook := (lookup_close (i := p) ht (harm.sibling_ne_open ht htstop) k _).mpr ⟨b, hb, rfl⟩
    by_cases hk : k = c
    · subst hk
      cases hb.symm.trans ht
      refine .inr ⟨_, hlook, if_pos rfl, rfl, ?_, fun _ => rfl⟩
      intro htrue m hm
      cases harm with
      | first _ hnone => cases hnone.symm.trans hm
      | second hfalse => cases hfalse.symm.trans htrue
    · rw [if_neg hk, if_neg (not_or.mpr ⟨hk, harm.sibling_ne_open hb hstop⟩)] at hlook
      exact .inl hlook

/-- A scan goes on step by step. -/
theorem run_cons_iff (s s' : Scan) (i : Nat) (instr : Instr) (rest : List Instr) :
    s.run i (instr :: rest) = .ok s' ↔
      ∃ u, s.step i instr = .ok u ∧ u.run (i + 1) rest = .ok s' := by
  rw [run]
  cases s.step i instr with
  | error e => simp [bind, Except.bind]
  | ok u => simp [bind, Except.bind]

/-- A scan of a program in two parts. -/
theorem run_append_iff (s s' : Scan) (i : Nat) (front back : List Instr) :
    s.run i (front ++ back) = .ok s' ↔
      ∃ u, s.run i front = .ok u ∧ u.run (i + front.length) back = .ok s' := by
  induction front generalizing s i with
  | nil => exact ⟨fun h => ⟨s, rfl, h⟩, fun ⟨_, hu, h⟩ => by cases hu; exact h⟩
  | cons instr front ih =>
    rw [List.cons_append, run_cons_iff]
    constructor
    · rintro ⟨v, hv, hrest⟩
      obtain ⟨u, hu, hback⟩ := (ih v (i + 1)).mp hrest
      refine ⟨u, (run_cons_iff _ _ _ _ _).mpr ⟨v, hv, hu⟩, ?_⟩
      rwa [List.length_cons, Nat.add_comm front.length, ← Nat.add_assoc]
    · rintro ⟨u, hu, hback⟩
      obtain ⟨v, hv, hu⟩ := (run_cons_iff _ _ _ _ _).mp hu
      refine ⟨v, hv, (ih v (i + 1)).mpr ⟨u, hu, ?_⟩⟩
      rwa [List.length_cons, Nat.add_comm front.length, ← Nat.add_assoc] at hback

/-- What holds of a scan in front of a position holds after a run, which leaves alone what it
found. -/
theorem Sound.run (h : Sound s p) (hr : s.run p instrs = .ok s') :
    Sound s' (p + instrs.length) ∧ Later p s s' := by
  induction instrs generalizing s p with
  | nil =>
    cases hr
    exact ⟨h, .refl p _⟩
  | cons instr rest ih =>
    obtain ⟨u, hu, hrest⟩ := (run_cons_iff s s' p instr rest).mp hr
    have hm := moves_of_step hu
    obtain ⟨hsound, hlater⟩ := ih (h.step hm) hrest
    refine ⟨by rwa [List.length_cons, Nat.add_comm rest.length, ← Nat.add_assoc], ?_⟩
    exact (Later.of_moves h hm (Nat.le_refl p)).trans (hlater.mono (Nat.le_succ p))

private theorem Moves.endIf_kept (hs : Sound s p) (hm : Moves s p instr s')
    (hb : s.branches[k]? = some b) (he : b.endIf = some e) :
    ∃ b', s'.branches[k]? = some b' ∧ b'.isTrue = b.isTrue ∧ b'.endIf = some e := by
  cases hm with
  | pass => exact ⟨b, hb, rfl, he⟩
  | opens => exact ⟨b, (lookup_append s.branches _ k b).mpr (.inl hb), rfl, he⟩
  | splits _ ht => exact ⟨_, (lookup_split ht k _).mpr (.inl ⟨b, hb, rfl⟩), rfl, he⟩
  | @closes c cs t ho ht =>
    obtain ⟨_, hstop, hend, -, -, harm, -⟩ := hs.innermost ho ht
    refine ⟨_, (lookup_close ht (harm.sibling_ne_open ht hstop) k _).mpr ⟨b, hb, rfl⟩, rfl, ?_⟩
    -- neither the arm that is closed nor its partner had an end before
    have hk : ¬ (k = c ∨ t.sibling = some k) := by
      rintro (rfl | hsib)
      · cases hb.symm.trans ht
        cases hend.symm.trans he
      · cases harm with
        | first _ hnone => cases hnone.symm.trans hsib
        | second _ hsome hpartner _ _ hopen =>
          cases hsome.symm.trans hsib
          cases hb.symm.trans hpartner
          cases hopen.symm.trans he
    exact (if_neg hk).trans he

private theorem Moves.exists_closed (hs : Sound s p) (hm : Moves s p (.op .opEndIf) s') :
    ∃ (k : Nat) (b : Branch), s'.branches[k]? = some b ∧ b.isTrue = true ∧ b.endIf = some p := by
  generalize hinstr : (Instr.op .opEndIf) = instr at hm
  cases hm with
  | pass h => cases h _ hinstr.symm
  | opens ho => rcases ho with rfl | rfl <;> cases hinstr
  | splits => cases hinstr
  | @closes c cs t ho ht =>
    obtain ⟨_, hstop, -, -, -, harm, -⟩ := hs.innermost ho ht
    have hlook := lookup_close (i := p) ht (harm.sibling_ne_open ht hstop)
    cases harm with
    | first htrue => exact ⟨c, _, (hlook c _).mpr ⟨t, ht, rfl⟩, htrue, if_pos (.inl rfl)⟩
    | @second k _ d _ hsib hd htrue =>
      exact ⟨k, _, (hlook k _).mpr ⟨d, hd, rfl⟩, htrue, if_pos (.inr hsib)⟩

private theorem endIf_kept_run (hs : Sound s p) (hr : s.run p instrs = .ok s')
    (hb : s.branches[k]? = some b) (htrue : b.isTrue = true) (he : b.endIf = some e) :
    ∃ b', s'.branches[k]? = some b' ∧ b'.isTrue = true ∧ b'.endIf = some e := by
  induction instrs generalizing s p b with
  | nil =>
    cases hr
    exact ⟨b, hb, htrue, he⟩
  | cons instr rest ih =>
    obtain ⟨u, hu, hrest⟩ := (run_cons_iff s s' p instr rest).mp hr
    have hm := moves_of_step hu
    obtain ⟨b', hb', htrue', he'⟩ := hm.endIf_kept hs hb he
    exact ih (hs.step hm) hrest hb' (htrue'.trans htrue) he'

/-- Every marker that closes a conditional is the end of a first arm. -/
theorem Sound.exists_closed {front back : List Instr} (hs : Sound s p)
    (hr : s.run p (front ++ .op .opEndIf :: back) = .ok s') :
    ∃ (k : Nat) (b : Branch), s'.branches[k]? = some b ∧ b.isTrue = true ∧
      b.endIf = some (p + front.length) := by
  obtain ⟨u, hu, hrest⟩ := (run_append_iff s s' p front _).mp hr
  obtain ⟨v, hv, hrest⟩ := (run_cons_iff u s' _ _ back).mp hrest
  have hsound := (hs.run hu).1
  have hm := moves_of_step hv
  obtain ⟨k, b, hb, htrue, he⟩ := hm.exists_closed hsound
  exact ⟨k, endIf_kept_run (hsound.step hm) hrest hb htrue he⟩

end NamedStack.Branch.Scan
