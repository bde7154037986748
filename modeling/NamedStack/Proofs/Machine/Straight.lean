import NamedStack.Proofs.Machine.Beside
import NamedStack.Proofs.Resolve.Multisig

/-!
# The simulated stack along straight code

Along code without conditionals the machine keeps to the engine step by step. It has to know which
item a `ROLL` moves, and the steps have to say the right thing of opcodes whose effect on the height
depends on data; then the simulated items describe those of the engine, and the deltas of the steps
add up to the height of its main stack.
-/

namespace NamedStack

open Engine

/-- Whether a check of several signatures has counts, or says that it takes nothing. -/
def Step.Tallied (s : Step) : Prop :=
  ∀ check r, s.instr = .op check → check.multisigResults? = some r →
    s.delta = 0 ∨ ∃ m, s.Counts r m

namespace Engine

/-- What the engine has come to behind so many tokens of a script. -/
def stateAfter (valid : Checker) (main : Stack) (script : Bytes) (n : Nat) :
    Except ExecError State :=
  (load script).bind fun ts => run valid { main } (ts.take n)

variable {valid : Checker} {main : Stack} {script : Bytes} {a b t : State}

private theorem stateAfter_zero (h : runFrom valid main [] script = .ok t) :
    stateAfter valid main script 0 = .ok { main } := by
  obtain ⟨ts, hts, -⟩ := bind_eq_ok_iff.mp h
  rw [stateAfter, hts]
  rfl

/-- The state behind a token is the one that it is run to. -/
theorem RunsAt.stateAfter_succ {i : Nat} (h : RunsAt valid main script i a b) :
    stateAfter valid main script (i + 1) = .ok b := by
  obtain ⟨front, token, back, hload, rfl, ha, hb⟩ := h
  have htake : (front ++ token :: back).take (front.length + 1) = front ++ [token] := by
    rw [List.take_append, List.take_of_length_le (Nat.le_succ _), Nat.add_sub_cancel_left,
      List.take_succ_cons, List.take_zero]
  rw [stateAfter, hload]
  change run valid { main } ((front ++ token :: back).take (front.length + 1)) = .ok b
  rw [htake, run, List.foldlM_append]
  exact bind_eq_ok_iff.mpr ⟨a, ha, bind_eq_ok_iff.mpr ⟨b, hb, rfl⟩⟩

end Engine

namespace Machine

variable {names : List Name} {items : Stack} {valid : Checker}
variable {m m' : Machine} {s : Step} {t t' : State}

/-- Whether the machine knows which item an opcode moves, and has one for an opcode that only looks
at it. -/
def knows (m : Machine) : Instr → Bool
  | .op .roll => (m.peek 0).num.isSome
  | .op .checkLockTimeVerify | .op .checkSequenceVerify => 0 < m.height
  | _ => true

/-- The machine and the engine at the same place of a program, outside of all conditionals. -/
structure Abreast (names : List Name) (items : Stack) (m : Machine) (t : State) : Prop where
  main : DescribesAll names items m.main t.main
  alt : DescribesAll names items m.alt t.alt
  frames : m.frames = []
  conds : t.conds = []

namespace Abreast

private theorem start (hn : names.Nodup) (hlen : items.length = names.length) :
    Abreast names items (Machine.start names) { main := items } where
  main := describesAll_start hn hlen
  alt := .nil
  frames := rfl
  conds := rfl

private theorem running (h : Abreast names items m t) : t.running = true := by
  rw [State.running, h.conds]

variable {p : Script.Piece} {c : MultisigCheck} {stack : Stack} {r : Nat}

private theorem of_plain (h : Abreast names items m t) (hs : s.Genuine)
    (hw : Script.Writes s.instr p) (hp : isPlain p = true) (htells : m.tells s.instr = true)
    (hfinds : m.finds s.instr = true) (hstep : m.step s = .ok m')
    (hpiece : stepPiece valid t p = .ok t') :
    Abreast names items m' t' ∧ effectOf valid p t.main = some t'.main := by
  obtain ⟨⟨hframes, halt⟩, hmain⟩ := step_plain names items hs hw hp htells hfinds hstep
  obtain ⟨stack, he, -, hbound, rfl⟩ := (stepPiece_plain valid hp h.running t').mp hpiece
  exact ⟨⟨hmain valid _ stack h.main he (by omega), halt ▸ h.alt, hframes.trans h.frames, h.conds⟩,
    he⟩

private theorem data (h : Abreast names items m t) (hs : s.Genuine) {b : Bytes}
    (hw : Script.Writes s.instr (.data b)) (hstep : m.step s = .ok m')
    (hpiece : stepPiece valid t (.data b) = .ok t') : Abreast names items m' t' ∧ s.Tells t t' := by
  have hkind : (Steady s.instr ∧ s.instr.delta = 1) ∧ m.tells s.instr = true ∧
      m.finds s.instr = true := by
    cases hi : s.instr with
    | op o =>
      rw [hi] at hw
      cases hw
    | push | inner => exact ⟨⟨trivial, rfl⟩, rfl, rfl⟩
    | assume | assign | var | call =>
      rw [hi] at hw
      cases hw
  obtain ⟨⟨hsteady, hdelta⟩, htells, hfinds⟩ := hkind
  obtain ⟨habreast, he⟩ := h.of_plain hs hw rfl htells hfinds hstep hpiece
  refine ⟨habreast, ?_⟩
  rw [Step.Tells, hs.delta hsteady, hdelta, ← Option.some.inj he, List.length_cons, Nat.cast_succ]

variable {o : Opcode}

private theorem plain (h : Abreast names items m t) (hs : s.Genuine) (hinstr : s.instr = .op o)
    (ho : o.isPlain = true) (hdup : o ≠ .ifDup) (hknows : m.knows s.instr = true)
    (hstep : m.step s = .ok m') (hpiece : stepPiece valid t (.opcode o) = .ok t') :
    Abreast names items m' t' ∧ s.Tells t t' := by
  have hkind : Steady s.instr ∧ m.tells s.instr = true ∧ m.finds s.instr = true := by
    rw [hinstr] at hknows ⊢
    cases o with
    | toAltStack | fromAltStack | opIf | opNotIf | opElse | opEndIf | checkMultiSig
      | checkMultiSigVerify => cases ho
    | ifDup => exact absurd rfl hdup
    | roll => exact ⟨trivial, hknows, rfl⟩
    | checkLockTimeVerify | checkSequenceVerify => exact ⟨trivial, rfl, hknows⟩
    | _ => exact ⟨trivial, rfl, rfl⟩
  obtain ⟨hsteady, htells, hfinds⟩ := hkind
  have hw : Script.Writes s.instr (.opcode o) := by
    rw [hinstr]
    rfl
  obtain ⟨habreast, he⟩ := h.of_plain hs hw ho htells hfinds hstep hpiece
  refine ⟨habreast, ?_⟩
  rw [Step.Tells, hs.delta hsteady, hinstr]
  exact length_effect he ho hdup

private theorem runOp_ifDup {i : Item} {x : Bytes} (hi : i.Describes names items x)
    (hpeek : m.peek 0 = i) (hdelta : s.delta = if isTrue x then 1 else 0) :
    m.runOp s .ifDup = .ok (if isTrue x then m.push [i.duplicate] else m) := by
  cases hn : i.num with
  | some n => simp only [runOp, hpeek, hn, hi.isTrue_eq hn]
  | none =>
    simp only [runOp, hpeek, hn, hdelta]
    cases isTrue x <;> rfl

private theorem ifDup (h : Abreast names items m t) (hinstr : s.instr = .op .ifDup)
    (htells : s.Tells t t') (hstep : m.step s = .ok m')
    (hpiece : stepPiece valid t (.opcode .ifDup) = .ok t') : Abreast names items m' t' := by
  obtain ⟨x, rest, hstack, hlen⟩ := stepPiece_ifDup h.running hpiece
  have hdelta : s.delta = if isTrue x then 1 else 0 := by
    unfold Step.Tells at htells
    rw [hlen] at htells
    split at htells
    · next hx =>
      rw [if_pos hx]
      omega
    · next hx =>
      rw [if_neg hx]
      omega
  obtain ⟨stack, he, -, -, rfl⟩ := (stepPiece_plain valid rfl h.running t').mp hpiece
  obtain ⟨initial, main, alt, frames⟩ := m
  obtain ⟨hmain, halt, hframes, hconds⟩ := h
  dsimp only at hmain halt hframes
  rw [hstack] at he hmain
  obtain _ | @⟨i, _, main, _, hi, hrest⟩ := hmain
  rw [step, hinstr] at hstep
  dsimp only at hstep
  rw [runOp_ifDup hi rfl hdelta] at hstep
  cases hstep
  cases he
  cases isTrue x with
  | true => exact ⟨.cons hi.duplicate (.cons hi hrest), halt, hframes, hconds⟩
  | false => exact ⟨.cons hi hrest, halt, hframes, hconds⟩

private theorem altMove (h : Abreast names items m t) (hs : s.Genuine) (hinstr : s.instr = .op o)
    (ho : o = .toAltStack ∨ o = .fromAltStack) (hstep : m.step s = .ok m')
    (hpiece : stepPiece valid t (.opcode o) = .ok t') :
    Abreast names items m' t' ∧ s.Tells t t' := by
  obtain ⟨-, -, hact, -⟩ := (stepPiece_eq_ok_iff valid t t' _).mp hpiece
  have hr := h.running
  have hdelta := hs.delta
  obtain ⟨initial, main, alt, frames⟩ := m
  obtain ⟨hmain, halt, hframes, hconds⟩ := h
  dsimp only at hmain halt hframes
  simp only [step, hinstr] at hstep
  unfold Step.Tells
  rcases ho with rfl | rfl
  · obtain ⟨a, rest, hstack, rfl⟩ := (exec_toAltStack_iff valid (by exact hr) t').mp hact
    rw [hdelta (by rw [hinstr]; trivial), hinstr]
    dsimp only at hstack
    rw [hstack] at hmain ⊢
    obtain _ | ⟨ha, hrest⟩ := hmain
    cases hstep
    exact ⟨⟨hrest, .cons ha halt, hframes, hconds⟩, by simp [Instr.delta, Opcode.info]⟩
  · obtain ⟨a, rest, hstack, rfl⟩ := (exec_fromAltStack_iff valid (by exact hr) t').mp hact
    rw [hdelta (by rw [hinstr]; trivial), hinstr]
    dsimp only at hstack
    rw [hstack] at halt
    obtain _ | ⟨ha, hrest⟩ := halt
    cases hstep
    exact ⟨⟨.cons ha hmain, hrest, hframes, hconds⟩, by simp [Instr.delta, Opcode.info]⟩

private theorem suffix_of_multisig (h : multisig stack = some c) : c.rest <:+ stack := by
  have hcounted {limit : Nat} {stack items rest : Stack}
      (h : counted limit stack = some (items, rest)) : rest <:+ stack := by
    unfold counted at h
    split at h
    · split at h
      · split at h
        · cases h
          exact (List.drop_suffix _ _).trans (List.suffix_cons _ _)
        · cases h
      · cases h
    · cases h
  unfold multisig at h
  split at h
  · cases h
  · next hkeys =>
    split at h
    · next hsigs =>
      cases h
      exact (List.suffix_cons _ _).trans ((hcounted hsigs).trans (hcounted hkeys))
    · cases h

private theorem exchanges_multisig (ho : o.multisigResults? = some r) {stack' : Stack}
    (hc : multisig stack = some c) (he : effect valid o stack = some stack') :
    Exchanges stack stack' (3 + c.keys.length + c.sigs.length) r := by
  obtain ⟨front, hfront⟩ := suffix_of_multisig hc
  have hlen := length_of_multisig hc
  rw [← hfront, List.length_append] at hlen
  have hcheck : checkMultisig valid stack =
      some (ofBool (valid.acceptsAll c.sigs c.keys) :: c.rest) := by
    rw [checkMultisig, hc]
    rfl
  cases o with
  | checkMultiSig =>
    cases ho
    rw [effect, hcheck] at he
    cases he
    exact ⟨front, [_], c.rest, hfront.symm, rfl, by omega, rfl⟩
  | checkMultiSigVerify =>
    cases ho
    rw [effect, hcheck, Option.bind_some, verify] at he
    split at he
    · cases he
      exact ⟨front, [], c.rest, hfront.symm, rfl, by omega, rfl⟩
    · cases he
  | _ => cases ho

private theorem check (h : Abreast names items m t) (hs : s.Tallied) (hinstr : s.instr = .op o)
    (ho : o.multisigResults? = some r) (htells : s.Tells t t') (hstep : m.step s = .ok m')
    (hpiece : stepPiece valid t (.opcode o) = .ok t') : Abreast names items m' t' := by
  obtain ⟨-, -, hact, -⟩ := (stepPiece_eq_ok_iff valid t t' _).mp hpiece
  have hcase : o = .checkMultiSig ∨ o = .checkMultiSigVerify := by
    cases o with
    | checkMultiSig => exact .inl rfl
    | checkMultiSigVerify => exact .inr rfl
    | _ => cases ho
  rw [act, exec_multisig valid hcase (by exact h.running)] at hact
  cases hc : multisig t.main with
  | none =>
    simp only [hc] at hact
    cases hact
  | some c =>
    simp only [hc] at hact
    obtain ⟨u, hu, hmain⟩ := bind_eq_ok_iff.mp hact
    unfold State.count at hu
    split at hu
    · cases hu
    cases hu
    obtain ⟨stack, he, rfl⟩ := (onMain_iff _ _ _).mp hmain
    have hx := exchanges_multisig ho hc he
    have hstep' : m' = m.generic s := by
      rw [step, hinstr] at hstep
      rcases hcase with rfl | rfl <;> exact (Except.ok.inj hstep).symm
    -- the counts of the step come to as many items as the engine takes
    have hlen : (stack.length : Int) + (3 + c.keys.length + c.sigs.length) = t.main.length + r := by
      obtain ⟨front, out, rest, hfront, rfl, hn, rfl⟩ := hx
      rw [hfront, List.length_append, List.length_append]
      push_cast
      omega
    have htells : (stack.length : Int) = t.main.length + s.delta := htells
    have hr : r ≤ 1 := by rcases hcase with rfl | rfl <;> cases ho <;> omega
    obtain ⟨k, hcounts⟩ := (hs o r hinstr ho).resolve_left (by omega)
    have hdelta := hcounts.delta
    have hargs : s.args.length = 3 + c.keys.length + c.sigs.length := by
      rw [hcounts.args, List.length_map, List.length_range]
      push_cast at hdelta
      omega
    rw [← hargs] at hx
    subst hstep'
    refine ⟨describesAll_generic h.main hx ?_, h.alt, h.frames, h.conds⟩
    omega

/-- The machine keeps to the engine at every step, and the step says by how much the height changes,
if it does so where that depends on data. -/
theorem step (h : Abreast names items m t) (hs : s.Genuine) (htallied : s.Tallied)
    (hmarker : ∀ o, s.instr = .op o → o.isMarker = false) (hw : Script.Writes s.instr p)
    (hknows : m.knows s.instr = true) (htells : ¬ Steady s.instr → s.Tells t t')
    (hstep : m.step s = .ok m') (hpiece : stepPiece valid t p = .ok t') :
    Abreast names items m' t' ∧ s.Tells t t' := by
  rcases Script.writes_cases hw with ⟨o, hinstr, rfl⟩ | ⟨b, -, rfl⟩
  · have hmarker := hmarker o hinstr
    cases o with
    | opIf | opNotIf | opElse | opEndIf => cases hmarker
    | toAltStack => exact h.altMove hs hinstr (.inl rfl) hstep hpiece
    | fromAltStack => exact h.altMove hs hinstr (.inr rfl) hstep hpiece
    | ifDup =>
      have htells := htells (by rw [hinstr]; exact id)
      exact ⟨h.ifDup hinstr htells hstep hpiece, htells⟩
    | checkMultiSig | checkMultiSigVerify =>
      have htells := htells (by rw [hinstr]; exact id)
      exact ⟨h.check htallied hinstr rfl htells hstep hpiece, htells⟩
    | _ => exact h.plain hs hinstr rfl (by simp) hknows hstep hpiece
  · exact h.data hs hw hstep hpiece

end Abreast

/-- Whether the machine can follow a run of a script along steps, up to a position: it knows what it
has to know in front of each step, and where the effect of a step on the height depends on data the
step says what it is. -/
structure Follows (valid : Checker) (names : List Name) (items : Stack) (script : Bytes)
    (steps : List Step) (k : Nat) : Prop where
  knows : ∀ j < k, ∀ s m, steps[j]? = some s →
    (Machine.start names).run (steps.take j) = .ok m → m.knows s.instr = true
  tells : ∀ j < k, ∀ s, steps[j]? = some s → ¬ Steady s.instr →
    ∀ a b, RunsAt valid items script j a b → s.Tells a b

/-- Whether the machine knows what it has to know along steps whose effects on the height are all
settled. -/
def follows? (names : List Name) (steps : List Step) (k : Nat) : Bool :=
  (List.range k).all fun j => steps[j]?.all fun s =>
    decide (Steady s.instr) && ((Machine.start names).run (steps.take j)).toOption.all
      (·.knows s.instr)

variable {k : Nat} {steps : List Step}

/-- The check finds that the machine can follow. -/
theorem follows_of_follows? (h : follows? names steps k = true) (script : Bytes) :
    Follows valid names items script steps k := by
  have hat (j : Nat) (hj : j < k) (s : Step) (hs : steps[j]? = some s) : Steady s.instr ∧
      ((Machine.start names).run (steps.take j)).toOption.all (·.knows s.instr) = true := by
    have hstep := List.all_eq_true.mp h j (List.mem_range.mpr hj)
    simpa only [hs, Option.all_some, Bool.and_eq_true, decide_eq_true_eq] using hstep
  constructor
  · intro j hj s m hs hm
    obtain ⟨-, hknows⟩ := hat j hj s hs
    rwa [hm] at hknows
  · intro j hj s hs hsteady
    exact absurd (hat j hj s hs).1 hsteady

/-- The machine keeps to the engine along straight code at the front of a script. -/
theorem exists_abreast (hn : names.Nodup) (hlen : items.length = names.length)
    (hsteps : ∀ s ∈ steps, s.Genuine ∧ s.Tallied) {ops : List Instr} {script : Bytes}
    (hscript : Script.serialize ops = .ok script) (hrun : runFrom valid items [] script = .ok t)
    (hops : ∀ j < k, ∃ s, steps[j]? = some s ∧ ops[j]? = some s.instr ∧
      ∀ o, s.instr = .op o → o.isMarker = false)
    (hfollows : Follows valid names items script steps k)
    (hm : (Machine.start names).run (steps.take k) = .ok m) :
    ∃ a, stateAfter valid items script k = .ok a ∧ Abreast names items m a ∧
      (a.main.length : Int) = names.length + ((steps.take k).map (·.delta)).sum := by
  induction k generalizing m with
  | zero =>
    cases hm
    exact ⟨_, stateAfter_zero hrun, .start hn hlen, by simp [hlen]⟩
  | succ k ih =>
    obtain ⟨s, hs, hop, hmarker⟩ := hops k (Nat.lt_succ_self k)
    rw [List.take_add_one, hs, Option.toList_some] at hm ⊢
    obtain ⟨u, hu, hstep⟩ := run_concat_iff.mp hm
    have hbefore : Follows valid names items script steps k :=
      ⟨fun j hj => hfollows.knows j (Nat.lt_succ_of_lt hj),
        fun j hj => hfollows.tells j (Nat.lt_succ_of_lt hj)⟩
    obtain ⟨a, ha, habreast, hheight⟩ := ih (fun j hj => hops j (Nat.lt_succ_of_lt hj)) hbefore hu
    obtain ⟨front, p, a', b, -, hw, -, hb, hruns⟩ := exists_runsAt hscript hrun hop
    obtain rfl : a = a' := Except.ok.inj (ha.symm.trans hruns.run_take)
    obtain ⟨hgenuine, htallied⟩ := hsteps s (List.mem_of_getElem? hs)
    obtain ⟨habreast', htells⟩ := habreast.step hgenuine htallied hmarker hw
      (hfollows.knows k (Nat.lt_succ_self k) s u hs hu)
      (fun hsteady => hfollows.tells k (Nat.lt_succ_self k) s hs hsteady a b hruns) hstep hb
    refine ⟨b, hruns.stateAfter_succ, habreast', ?_⟩
    rw [List.map_append, List.sum_append, List.map_singleton, List.sum_singleton, htells, hheight]
    omega

end Machine

end NamedStack
