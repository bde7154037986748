import NamedStack.Proofs.Peephole.Structural
import NamedStack.Proofs.Script.Decoding

/-!
# Opcodes whose effect depends on data

`IFDUP` adds an item if the one on top is true, and a check of several signatures takes as many
items as two counts on the stack say. What they do to the height of the stack is known beforehand
where these items come from literals that stand in front of them.
-/

namespace NamedStack

/-- The number of items that a check of several signatures leaves in place of its operands. -/
def Opcode.multisigResults? : Opcode → Option Nat
  | .checkMultiSig => some 1
  | .checkMultiSigVerify => some 0
  | _ => none

/-- Whether an instruction puts one item on what is on the stack, and changes nothing else there. -/
def Instr.addsItem : Instr → Bool
  | .push _ | .inner _ => true
  | .op o =>
    match o with
    | .small _ | .dup | .over | .depth | .size | .fromAltStack => true
    | _ => false
  | _ => false

namespace Engine

open Script (Piece Writes)

/-- The engine runs a script from a main stack, and the token at a position of it from one state to
another. -/
def RunsAt (valid : Checker) (main : Stack) (script : Bytes) (i : Nat) (a b : State) : Prop :=
  ∃ front token back, load script = .ok (front ++ token :: back) ∧ front.length = i ∧
    run valid { main } front = .ok a ∧ step valid a token = .ok b

variable {valid : Checker} {s t a b : State}

variable {i : Nat} {main : Stack} {script : Bytes}

/-- The state in front of a position is the one that a run of what comes before it ends in. -/
theorem RunsAt.run_take (h : RunsAt valid main script i a b) :
    ((load script).bind fun ts => run valid { main } (ts.take i)) = .ok a := by
  obtain ⟨front, token, back, hload, rfl, ha, -⟩ := h
  rw [hload]
  change run valid { main } ((front ++ token :: back).take front.length) = .ok a
  rwa [List.take_left]

variable {ops : List Instr} {c : MultisigCheck} {p : Piece} {v : Bytes} {ps : List Piece}

/-- Every instruction of a program that is run to its end is run from one state to another, and is
written as a piece behind those of the instructions in front of it. -/
theorem exists_runsAt (hscript : Script.serialize ops = .ok script)
    (h : runFrom valid main [] script = .ok t) {instr : Instr} (hi : ops[i]? = some instr) :
    ∃ front p a b, List.Forall₂ Writes (ops.take i) front ∧ Writes instr p ∧
      runPieces valid { main } front = .ok a ∧ stepPiece valid a p = .ok b ∧
      RunsAt valid main script i a b := by
  obtain ⟨ps, hw, rfl, hl, hf⟩ := (Script.serialize_eq_ok_iff _ script).mp hscript
  obtain ⟨ht, -⟩ := (runFrom_forms_iff valid main [] hf hl t).mp h
  rw [← List.take_append_drop i ops, List.drop_eq_getElem?_toList_append, hi] at hw
  obtain ⟨front, rest, rfl, hfront, hrest⟩ := forall₂_append_left hw
  obtain ⟨p, back, hp, -, rfl⟩ := List.forall₂_cons_left_iff.mp hrest
  rw [runPieces_append] at ht
  obtain ⟨a, ha, ht⟩ := bind_eq_ok_iff.mp ht
  rw [runPieces_cons] at ht
  obtain ⟨b, hb, -⟩ := bind_eq_ok_iff.mp ht
  obtain ⟨hfits, hfits'⟩ := List.forall_mem_append.mp hf
  refine ⟨front, p, a, b, hfront, hp, ha, hb, front.map Piece.token, p.token,
    back.map Piece.token, ?_, ?_, ?_, ?_⟩
  · rw [load_forms _ hf hl, List.map_append, List.map_cons]
  · obtain ⟨hlt, -⟩ := List.getElem?_eq_some_iff.mp hi
    rw [List.length_map, ← hfront.length_eq, List.length_take, min_eq_left hlt.le]
  · rw [run_tokens valid _ front hfits, ha]
  · rw [step_token valid a p (hfits' p (.head _)), hb]

/-! ### What the opcodes do -/

/-- `IFDUP` adds an item exactly if the one on top is true. -/
theorem stepPiece_ifDup (hr : a.running = true)
    (h : stepPiece valid a (.opcode .ifDup) = .ok b) :
    ∃ x rest, a.main = x :: rest ∧
      b.main.length = a.main.length + if isTrue x then 1 else 0 := by
  obtain ⟨m, hm, -, -, rfl⟩ := (stepPiece_plain valid rfl hr b).mp h
  cases ha : a.main with
  | nil =>
    rw [ha] at hm
    cases hm
  | cons x rest =>
    rw [ha] at hm
    cases hm
    refine ⟨x, rest, rfl, ?_⟩
    dsimp only
    split <;> rfl

/-- The operands of a check of several signatures are its keys, its signatures and three items more.
-/
theorem length_of_multisig {m : Stack} (h : multisig m = some c) :
    m.length = 3 + c.keys.length + c.sigs.length + c.rest.length := by
  have hcounted {limit : Nat} {m items rest : Stack} (h : counted limit m = some (items, rest)) :
      m.length = 1 + items.length + rest.length := by
    unfold counted at h
    split at h
    · split at h
      · split at h
        · cases h
          simp only [List.length_cons, List.length_take, List.length_drop]
          omega
        · cases h
      · cases h
    · cases h
  unfold multisig at h
  split at h
  · cases h
  · next hkeys =>
    split at h
    · next hsigs =>
      cases h
      have h₁ := hcounted hkeys
      have h₂ := hcounted hsigs
      rw [List.length_cons] at h₂
      dsimp only
      omega
    · cases h

/-- A check of several signatures takes its operands off and leaves its result, if it has one. -/
theorem stepPiece_multisig {o : Opcode} {r : Nat} (ho : o.multisigResults? = some r)
    (hr : a.running = true) (h : stepPiece valid a (.opcode o) = .ok b) :
    ∃ c, multisig a.main = some c ∧
      b.main.length + (3 + c.keys.length + c.sigs.length) = a.main.length + r := by
  have hcase : o = .checkMultiSig ∧ r = 1 ∨ o = .checkMultiSigVerify ∧ r = 0 := by
    unfold Opcode.multisigResults? at ho
    split at ho
    · cases ho
      exact .inl ⟨rfl, rfl⟩
    · cases ho
      exact .inr ⟨rfl, rfl⟩
    · cases ho
  obtain ⟨-, -, hact, -⟩ := (stepPiece_eq_ok_iff valid a b _).mp h
  rw [act, exec_multisig valid (hcase.imp And.left And.left) (by exact hr)] at hact
  cases hc : multisig a.main with
  | none =>
    simp only [hc] at hact
    cases hact
  | some c =>
    simp only [hc] at hact
    refine ⟨c, rfl, ?_⟩
    obtain ⟨u, hu, hmain⟩ := bind_eq_ok_iff.mp hact
    have hu : u.main = a.main := by
      unfold State.count at hu
      split at hu
      · cases hu
      · cases hu
        rfl
    obtain ⟨m, hm, rfl⟩ := (onMain_iff _ _ _).mp hmain
    have hlen := length_of_multisig hc
    rw [hu] at hm
    rcases hcase with ⟨rfl, rfl⟩ | ⟨rfl, rfl⟩
    · simp only [effect, checkMultisig, hc, Option.map_some, Option.some.injEq] at hm
      rw [← hm, List.length_cons]
      omega
    · simp only [effect, checkMultisig, hc, Option.map_some, Option.bind_some, verify] at hm
      split at hm
      · cases hm
        dsimp only
        omega
      · cases hm

/-! ### Literals in front -/

/-- A literal that is a number pushes an item that is read as that number. -/
theorem exists_item {i : Instr} {n : Int} (hw : Writes i p) (hn : i.toInt? = some n) :
    ∃ v, IsPush p v ∧ ScriptNum.read? v = some n := by
  cases i with
  | op o =>
    cases hw
    cases o with
    | small k =>
      cases hn
      refine ⟨_, isPush_of_itemOf? rfl, ScriptNum.read?_ofInt _ ?_⟩
      have := k.property
      omega
    | _ => cases hn
  | push data =>
    cases hw
    refine ⟨_, isPush_of_itemOf? rfl, ?_⟩
    unfold pushed
    split
    · next hzero =>
      rw [← hn, hzero]
      decide
    · exact hn
  | _ => cases hn

/-- Whether a piece, where it runs, puts one item on what is on the stack. -/
def AddsItem (p : Piece) : Prop :=
  ∀ valid s t, stepPiece valid s p = .ok t →
    t.conds = s.conds ∧ (s.running = true → ∃ x, t.main = x :: s.main)

private theorem addsItem_of_plain (hp : isPlain p = true)
    (h : ∀ valid m m', effectOf valid p m = some m' → ∃ x, m' = x :: m) : AddsItem p := by
  intro valid s t ht
  cases hr : s.running with
  | true =>
    obtain ⟨m, hm, -, -, rfl⟩ := (stepPiece_plain valid hp hr t).mp ht
    exact ⟨rfl, fun _ => h valid _ _ hm⟩
  | false =>
    obtain ⟨-, -, -, rfl⟩ := (stepPiece_plain_skipped valid hp hr t).mp ht
    exact ⟨rfl, fun h => absurd h Bool.false_ne_true⟩

private theorem addsItem_fromAltStack : AddsItem (.opcode .fromAltStack) := by
  intro valid s t ht
  obtain ⟨-, -, hact, -⟩ := (stepPiece_eq_ok_iff valid s t _).mp ht
  rw [act] at hact
  cases hr : s.running with
  | true =>
    obtain ⟨x, alt, -, rfl⟩ := (exec_fromAltStack_iff valid (by exact hr) t).mp hact
    exact ⟨rfl, fun _ => ⟨x, rfl⟩⟩
  | false =>
    rw [exec_skipped valid (by rfl) (by exact hr)] at hact
    cases hact
    exact ⟨rfl, fun h => absurd h Bool.false_ne_true⟩

private theorem addsItem_of_isPush (h : IsPush p v) : AddsItem p :=
  addsItem_of_plain h.plain fun valid m _ hm =>
    ⟨v, Option.some.inj (hm.symm.trans (h.effect valid m))⟩

/-- What an instruction that adds an item contributes to a script adds one where it runs. -/
theorem addsItem_of_writes {i : Instr} (hw : Writes i p) (hi : i.addsItem = true) : AddsItem p := by
  rcases Script.writes_cases hw with ⟨o, rfl, rfl⟩ | ⟨d, -, rfl⟩
  · simp only [Instr.addsItem] at hi
    split at hi
    · exact addsItem_of_isPush (isPush_of_itemOf? rfl)
    · refine addsItem_of_plain rfl fun valid m m' hm => ?_
      match m with
      | _ :: _ => exact ⟨_, (Option.some.inj hm).symm⟩
    · refine addsItem_of_plain rfl fun valid m m' hm => ?_
      match m with
      | _ :: _ :: _ => exact ⟨_, (Option.some.inj hm).symm⟩
    · exact addsItem_of_plain rfl fun valid m m' hm => ⟨_, (Option.some.inj hm).symm⟩
    · refine addsItem_of_plain rfl fun valid m m' hm => ?_
      match m with
      | _ :: _ => exact ⟨_, (Option.some.inj hm).symm⟩
    · exact addsItem_fromAltStack
    · cases hi
  · exact addsItem_of_isPush (isPush_of_itemOf? rfl)

private theorem addsItem_of_forall₂ (hw : List.Forall₂ Writes ops ps)
    (h : ∀ i ∈ ops, i.addsItem = true) : ∀ p ∈ ps, AddsItem p := by
  induction hw with
  | nil => exact nofun
  | cons hp _ ih =>
    obtain ⟨hi, hrest⟩ := List.forall_mem_cons.mp h
    exact List.forall_mem_cons.mpr ⟨addsItem_of_writes hp hi, ih hrest⟩

private theorem running_eq (h : t.conds = s.conds) : t.running = s.running := by
  rw [State.running, State.running, h]

/-- Pieces that each add one item put as many items on what is on the stack. -/
theorem runPieces_adds (hps : ∀ p ∈ ps, AddsItem p) (h : runPieces valid s ps = .ok t)
    (hr : t.running = true) :
    s.running = true ∧ ∃ xs : Stack, xs.length = ps.length ∧ t.main = xs ++ s.main := by
  induction ps generalizing s with
  | nil =>
    cases h
    exact ⟨hr, [], rfl, rfl⟩
  | cons p ps ih =>
    obtain ⟨hp, hps⟩ := List.forall_mem_cons.mp hps
    rw [runPieces_cons] at h
    obtain ⟨u, hu, h⟩ := bind_eq_ok_iff.mp h
    obtain ⟨hrun, xs, hlen, hxs⟩ := ih hps h
    obtain ⟨hconds, hadds⟩ := hp valid s u hu
    rw [running_eq hconds] at hrun
    obtain ⟨x, hx⟩ := hadds hrun
    refine ⟨hrun, xs ++ [x], ?_, ?_⟩
    · rw [List.length_append, hlen]
      rfl
    · rw [hxs, hx, List.append_assoc]
      rfl

/-- Behind a push the pushed item is on top. -/
theorem runPieces_push {front : List Piece} (hp : IsPush p v)
    (h : runPieces valid s (front ++ [p]) = .ok t) (hr : t.running = true) :
    ∃ u, runPieces valid s front = .ok u ∧ u.running = true ∧ t.main = v :: u.main := by
  rw [runPieces_append] at h
  obtain ⟨u, hu, h⟩ := bind_eq_ok_iff.mp h
  obtain ⟨hrun, -⟩ := runPieces_adds (List.forall_mem_singleton.mpr (addsItem_of_isPush hp)) h hr
  refine ⟨u, hu, hrun, ?_⟩
  rw [runPieces_cons] at h
  obtain ⟨w, hw, h⟩ := bind_eq_ok_iff.mp h
  cases h
  obtain ⟨m, hm, -, -, rfl⟩ := (stepPiece_plain valid hp.plain hrun _).mp hw
  exact Option.some.inj (hm.symm.trans (hp.effect valid _))

private theorem counts_of_multisig {w : Bytes} {xs rest : Stack} {m : Int}
    (h : multisig (v :: (xs ++ w :: rest)) = some c)
    (hv : ScriptNum.read? v = some (xs.length : Int)) (hw : ScriptNum.read? w = some m) :
    c.keys.length = xs.length ∧ (c.sigs.length : Int) = m := by
  have hcounted {limit : Nat} {x : Bytes} {n : Int} {m items rest : Stack}
      (h : counted limit (x :: m) = some (items, rest)) (hx : ScriptNum.read? x = some n) :
      0 ≤ n ∧ n ≤ m.length ∧ items = m.take n.toNat ∧ rest = m.drop n.toNat := by
    simp only [counted, hx] at h
    split at h
    · next hn =>
      cases h
      exact ⟨hn.1, hn.2.2, rfl, rfl⟩
    · cases h
  unfold multisig at h
  split at h
  · cases h
  · next hkeys =>
    obtain ⟨-, -, rfl, rfl⟩ := hcounted hkeys hv
    rw [Int.toNat_natCast, List.take_left, List.drop_left] at h
    split at h
    · next hsigs =>
      obtain ⟨hpos, hle, rfl, -⟩ := hcounted hsigs hw
      cases h
      refine ⟨rfl, ?_⟩
      rw [List.length_take]
      omega
    · cases h

/-- Whether the counts of a check of several signatures are literals in front of it: the number of
keys, in front of that an instruction for each key, and then the number of signatures. -/
def Counted (ops : List Instr) (keys sigs : Nat) : Prop :=
  ∃ front first items last, ops = front ++ first :: (items ++ [last]) ∧
    first.toInt? = some (sigs : Int) ∧ last.toInt? = some (keys : Int) ∧ items.length = keys ∧
    ∀ i ∈ items, i.addsItem = true

/-- The counts that the engine takes are those of the literals. -/
theorem counts_of_counted {keys sigs : Nat} (hops : Counted ops keys sigs)
    (hw : List.Forall₂ Writes ops ps) (h : runPieces valid s ps = .ok a) (hr : a.running = true)
    (hc : multisig a.main = some c) : c.keys.length = keys ∧ c.sigs.length = sigs := by
  obtain ⟨front, first, items, last, rfl, hfirst, hlast, rfl, hitems⟩ := hops
  obtain ⟨before, behind, rfl, -, hbehind⟩ := forall₂_append_left hw
  obtain ⟨p, rest, hp, hrest, rfl⟩ := List.forall₂_cons_left_iff.mp hbehind
  obtain ⟨qs, ends, rfl, hqs, hends⟩ := forall₂_append_left hrest
  obtain ⟨q, none, hq, hnone, rfl⟩ := List.forall₂_cons_left_iff.mp hends
  obtain rfl := List.forall₂_nil_left_iff.mp hnone
  obtain ⟨v, hpushv, hv⟩ := exists_item hp hfirst
  obtain ⟨w, hpushw, hw⟩ := exists_item hq hlast
  -- the count of keys is on top, the keys are below it, and then comes the count of signatures
  rw [List.append_cons, ← List.append_assoc] at h
  obtain ⟨u, hu, hrunning, hmain⟩ := runPieces_push hpushw h hr
  rw [runPieces_append] at hu
  obtain ⟨k, hk, hu⟩ := bind_eq_ok_iff.mp hu
  obtain ⟨hrunning, xs, hlen, hxs⟩ := runPieces_adds (addsItem_of_forall₂ hqs hitems) hu hrunning
  obtain ⟨z, -, -, hz⟩ := runPieces_push hpushv hk hrunning
  rw [hmain, hxs, hz] at hc
  rw [hqs.length_eq, ← hlen] at hw ⊢
  obtain ⟨hkeys, hsigs⟩ := counts_of_multisig hc hw hv
  exact ⟨hkeys, by omega⟩

end Engine

end NamedStack
