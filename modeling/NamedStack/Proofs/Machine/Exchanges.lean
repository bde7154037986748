import NamedStack.Proofs.Engine.Refinement

/-!
# Items that opcodes take and leave

Most opcodes take some items from the top of the main stack and leave some, as many as their table
says. Others rearrange the stack or look for an item in it. All of them change the height of the
stack by what their table says, unless that depends on the item on top.
-/

namespace NamedStack.Machine

open Engine

/-- A stack in which some items are taken off and some put on. -/
def Exchanges (stack stack' : Stack) (taken left : Nat) : Prop :=
  ∃ front out rest, stack = front ++ rest ∧ stack' = out ++ rest ∧
    front.length = taken ∧ out.length = left

/-! ### Opcodes that take and leave items -/

variable {stack stack' : Stack} {valid : Checker} {o : Opcode}

private theorem exchanges_onNumber {f : Int → Int} (h : onNumber f stack = some stack') :
    Exchanges stack stack' 1 1 := by
  match stack with
  | a :: rest =>
    obtain ⟨x, -, rfl⟩ := Option.map_eq_some_iff.mp h
    exact ⟨[a], [_], rest, rfl, rfl, rfl, rfl⟩

private theorem exchanges_onNumbers {f : Int → Int → Int} (h : onNumbers f stack = some stack') :
    Exchanges stack stack' 2 1 := by
  match stack with
  | b :: a :: rest =>
    rw [onNumbers] at h
    split at h
    · cases h
      exact ⟨[b, a], [_], rest, rfl, rfl, rfl, rfl⟩
    · cases h

private theorem exchanges_within (h : within stack = some stack') : Exchanges stack stack' 3 1 := by
  match stack with
  | c :: b :: a :: rest =>
    rw [within] at h
    split at h
    · cases h
      exact ⟨[c, b, a], [_], rest, rfl, rfl, rfl, rfl⟩
    · cases h

private theorem exchanges_equal (h : equal stack = some stack') : Exchanges stack stack' 2 1 := by
  match stack with
  | b :: a :: rest =>
    cases h
    exact ⟨[b, a], [_], rest, rfl, rfl, rfl, rfl⟩

private theorem exchanges_checkSig (h : checkSig valid stack = some stack') :
    Exchanges stack stack' 2 1 := by
  match stack with
  | key :: sig :: rest =>
    cases h
    exact ⟨[key, sig], [_], rest, rfl, rfl, rfl, rfl⟩

private theorem exchanges_verify (h : Engine.verify stack = some stack') :
    Exchanges stack stack' 1 0 := by
  match stack with
  | a :: rest =>
    rw [Engine.verify] at h
    split at h
    · cases h
      exact ⟨[a], [], _, rfl, rfl, rfl, rfl⟩
    · cases h

private theorem Exchanges.verify {f : Stack → Option Stack} {taken : Nat}
    (hf : ∀ {middle}, f stack = some middle → Exchanges stack middle taken 1)
    (h : (f stack).bind Engine.verify = some stack') : Exchanges stack stack' taken 0 := by
  obtain ⟨middle, hm, hv⟩ := Option.bind_eq_some_iff.mp h
  obtain ⟨front, out, rest, rfl, rfl, hfront, hout⟩ := hf hm
  obtain ⟨x, rfl⟩ := List.length_eq_one_iff.mp hout
  obtain ⟨front', out', rest', hmid, rfl, hfront', hout'⟩ := exchanges_verify hv
  obtain ⟨y, rfl⟩ := List.length_eq_one_iff.mp hfront'
  cases hmid
  obtain rfl := List.eq_nil_of_length_eq_zero hout'
  exact ⟨front, [], _, rfl, rfl, hfront, rfl⟩

/-- Whether an opcode takes and leaves as many items as its table says, whatever they are. -/
def isCounted : Opcode → Bool
  | .nop | .codeSeparator | .reserved _ | .verify | .equal | .equalVerify | .unary _ | .binary _
  | .numEqualVerify | .within | .hash _ | .checkSig | .checkSigVerify => true
  | _ => false

/-- Such an opcode takes and leaves them at the top of the stack. -/
theorem exchanges_effect (ho : isCounted o = true) (he : effect valid o stack = some stack') :
    ∃ left : Nat, (left : Int) = o.info.args.length + o.info.delta ∧
      Exchanges stack stack' o.info.args.length left := by
  cases o with
  | nop | codeSeparator =>
    cases he
    exact ⟨0, rfl, [], [], stack, rfl, rfl, rfl, rfl⟩
  | reserved r =>
    cases he
    cases r <;> exact ⟨0, rfl, [], [], stack, rfl, rfl, rfl, rfl⟩
  | verify => exact ⟨0, rfl, exchanges_verify he⟩
  | equal => exact ⟨1, rfl, exchanges_equal he⟩
  | equalVerify => exact ⟨0, rfl, .verify exchanges_equal he⟩
  | unary u => exact ⟨1, by cases u <;> rfl, by cases u <;> exact exchanges_onNumber he⟩
  | binary b => exact ⟨1, by cases b <;> rfl, by cases b <;> exact exchanges_onNumbers he⟩
  | numEqualVerify => exact ⟨0, rfl, .verify exchanges_onNumbers he⟩
  | within => exact ⟨1, rfl, exchanges_within he⟩
  | hash f =>
    obtain ⟨a, ha, rfl⟩ := Option.map_eq_some_iff.mp he
    obtain ⟨rest, rfl⟩ := List.head?_eq_some_iff.mp ha
    cases f <;> exact ⟨1, rfl, [a], [_], rest, rfl, rfl, rfl, rfl⟩
  | checkSig => exact ⟨1, rfl, exchanges_checkSig he⟩
  | checkSigVerify => exact ⟨0, rfl, .verify exchanges_checkSig he⟩
  | _ => cases ho

/-! ### Heights -/

private theorem length_shuffle (he : shuffle o stack = some stack') (hdup : o ≠ .ifDup) :
    (stack'.length : Int) = stack.length + o.info.delta := by
  unfold shuffle at he
  split at he
  case h_14 => exact absurd rfl hdup
  case h_15 => cases he
  all_goals
    cases he
    simp only [List.length_cons, Opcode.info]
    omega

private theorem length_withNumber {f : Int → Stack → Option Stack} {d : Int}
    (hf : ∀ {n m m'}, f n m = some m' → (m'.length : Int) = m.length + 1 + d)
    (he : withNumber f stack = some stack') : (stack'.length : Int) = stack.length + d := by
  match stack with
  | a :: stack =>
    obtain ⟨n, -, he⟩ := Option.bind_eq_some_iff.mp he
    rw [hf he, List.length_cons]
    omega

/-- An opcode that works on the main stack alone adds what its table says, unless that depends on
the item on top. -/
theorem length_effect (he : effect valid o stack = some stack') (ho : o.isPlain = true)
    (hdup : o ≠ .ifDup) : (stack'.length : Int) = stack.length + o.info.delta := by
  by_cases hover : o = .over
  · subst hover
    exact length_shuffle he hdup
  cases o with
  | opIf | opNotIf | opElse | opEndIf | toAltStack | fromAltStack | checkMultiSig
    | checkMultiSigVerify => cases ho
  | opReturn | disabled => cases he
  | small | depth =>
    cases he
    rfl
  | size =>
    obtain ⟨a, -, rfl⟩ := Option.map_eq_some_iff.mp he
    rfl
  | drop | drop2 | dup | dup2 | dup3 | nip | over2 | rot | rot2 | swap | swap2 | tuck | ifDup =>
    exact length_shuffle he hdup
  | pick =>
    refine length_withNumber (fun {n m m'} hpick => ?_) he
    unfold Engine.pick at hpick
    split at hpick
    · cases hpick
    obtain ⟨b, hb, rfl⟩ := Option.map_eq_some_iff.mp hpick
    rw [List.length_cons]
    exact (add_zero _).symm
  | roll =>
    refine length_withNumber (fun {n m m'} hroll => ?_) he
    unfold Engine.roll at hroll
    split at hroll
    · cases hroll
    obtain ⟨b, hb, rfl⟩ := Option.map_eq_some_iff.mp hroll
    obtain ⟨hlt, -⟩ := List.getElem?_eq_some_iff.mp hb
    rw [List.length_cons, List.length_eraseIdx_of_lt hlt]
    simp only [Opcode.info]
    omega
  | checkLockTimeVerify | checkSequenceVerify =>
    cases he
    exact (add_zero _).symm
  | nop | codeSeparator | reserved | verify | equal | equalVerify | unary | binary
    | numEqualVerify | within | hash | checkSig | checkSigVerify =>
    obtain ⟨left, hleft, front, out, rest, rfl, rfl, hfront, rfl⟩ := exchanges_effect rfl he
    rw [List.length_append, List.length_append]
    omega
  | _ => exact absurd rfl hover

end NamedStack.Machine
