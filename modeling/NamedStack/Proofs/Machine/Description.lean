import NamedStack.Proofs.Context.Replay
import NamedStack.Proofs.Machine.Exchanges
import NamedStack.Proofs.Named.Meaning

/-!
# What the simulated stack says about the real one

A simulated item describes a byte string: a known number is what the bytes read as, and a named item
holds the initial value of its name. As long as the machine can tell what an opcode does, its items
describe the items of the engine one by one.
-/

namespace NamedStack

open Engine

/-- What a simulated item says about a byte string: a known number is read from the bytes, four at
most, in whatever form; a name is that of an item of the initial stack, which held these bytes. -/
structure Item.Describes (names : List Name) (items : Stack) (i : Item) (b : Bytes) : Prop where
  num : ∀ n, i.num = some n → b.length ≤ 4 ∧ ScriptNum.parse b false 4 = .ok n
  name : i.name ≠ [] → i.name ∈ names ∧ b = Named.initial names items i.name

namespace Item.Describes

variable {names : List Name} {items : Stack} {i : Item} {b : Bytes}

/-- Nothing is said by an item without name and number. -/
theorem anonymous (b : Bytes) : Item.anonymous.Describes names items b :=
  ⟨nofun, fun h => absurd rfl h⟩

variable {n : Int}

/-- A number says what the bytes read as. -/
theorem number (h : ScriptNum.read? b = some n) : (Item.number n).Describes names items b := by
  refine ⟨?_, fun hname => absurd rfl hname⟩
  rintro k ⟨⟩
  constructor
  · rw [ScriptNum.read?_eq] at h
    by_contra hlen
    rw [if_neg hlen] at h
    cases h
  · unfold ScriptNum.read? at h
    cases hp : ScriptNum.parse b false ScriptNum.maxLen with
    | error e =>
      rw [hp] at h
      cases h
    | ok k =>
      rw [hp] at h
      cases h
      exact hp

/-- The number that an item says is read from the bytes. -/
theorem read? (h : i.Describes names items b) (hn : i.num = some n) :
    ScriptNum.read? b = some n := by
  have hparse : ScriptNum.parse b false ScriptNum.maxLen = .ok n := (h.num n hn).2
  rw [ScriptNum.read?, hparse]
  rfl

/-- A copy says the same. -/
theorem duplicate (h : i.Describes names items b) : i.duplicate.Describes names items b := by
  unfold Item.duplicate
  split
  · exact h
  · exact ⟨h.num, h.name⟩

/-- A known number that is not zero is a true item. -/
theorem isTrue_eq (h : i.Describes names items b) (hn : i.num = some n) : isTrue b = (n != 0) := by
  have hread := h.read? hn
  rw [ScriptNum.read?_eq] at hread
  split at hread
  · cases hread
    rw [Engine.isTrue_eq, bne, beq_eq_decide, ← decide_not]
  · cases hread

end Item.Describes

/-! ### Stacks -/

namespace Machine

variable {names : List Name} {items : Stack}

/-- Whether simulated items describe byte strings one by one. -/
abbrev DescribesAll (names : List Name) (items : Stack) : List Item → Stack → Prop :=
  List.Forall₂ (Item.Describes names items)

/-- At the start the items have their names. -/
theorem describesAll_start (hn : names.Nodup) (hlen : items.length = names.length) :
    DescribesAll names items (start names).main items := by
  have hmain : (start names).main = names.reverse.map fun x => { name := x } :=
    List.map_reverse.symm
  rw [hmain]
  refine List.forall₂_map_left_iff.mpr (List.forall₂_iff_zip.mpr ⟨by simp [hlen], ?_⟩)
  intro x v hv
  refine ⟨nofun, fun _ => ⟨List.mem_reverse.mp (List.of_mem_zip hv).1, ?_⟩⟩
  rw [Named.initial, Named.lookup_zip (List.nodup_reverse.mpr hn) hv, Option.getD_some]

variable {stack stack' : Stack} {m m' : Machine} {s : Step} {o : Opcode}

/-- Joining two stacks of one height describes what either of them describes. -/
theorem describesAll_merge {first second : List Item} (hlen : first.length = second.length)
    (h : DescribesAll names items first stack ∨ DescribesAll names items second stack) :
    DescribesAll names items (merge first second) stack := by
  rw [merge, if_pos hlen]
  induction first generalizing second stack with
  | nil =>
    cases second with
    | nil => exact h.elim id id
    | cons => cases hlen
  | cons a first ih =>
    cases second with
    | nil => cases hlen
    | cons b second =>
      have hlen' := Nat.succ.inj hlen
      rw [List.zipWith_cons_cons]
      obtain (_ | ⟨hv, h⟩) | (_ | ⟨hv, h⟩) := h
      · refine .cons ?_ (ih hlen' (.inl h))
        split
        · exact hv
        · exact .anonymous _
      · refine .cons ?_ (ih hlen' (.inr h))
        split
        · next he => exact he ▸ hv
        · exact .anonymous _

/-- What both arms of a conditional agree on is right whichever of them was taken. -/
theorem describesAll_join {f : Frame} {main : List Item}
    (hlen : (f.arm.getD f.entry).length = main.length)
    (h : DescribesAll names items main stack ∨
      DescribesAll names items (f.arm.getD f.entry) stack) :
    DescribesAll names items
      (match f.arm with
        | some arm => merge arm main
        | none => merge main f.entry) stack := by
  cases harm : f.arm with
  | none =>
    rw [harm] at hlen h
    exact describesAll_merge hlen.symm h
  | some arm =>
    rw [harm] at hlen h
    exact describesAll_merge hlen h.symm

/-- An opcode that is run by its numbers of items alone describes what takes and leaves as many. -/
theorem describesAll_generic (h : DescribesAll names items m.main stack) {left : Nat}
    (hx : Exchanges stack stack' s.args.length left)
    (hleft : (s.args.length + s.delta).toNat = left) :
    DescribesAll names items (m.generic s).main stack' := by
  obtain ⟨front, out, rest, rfl, rfl, hfront, rfl⟩ := hx
  have hrest : DescribesAll names items (m.main.drop s.args.length) rest := by
    have := List.forall₂_drop s.args.length h
    rwa [List.drop_left' hfront] at this
  have hmain : (m.generic s).main =
      List.replicate out.length .anonymous ++ m.main.drop s.args.length := by
    rw [generic, push, List.reverse_replicate, hleft]
    rfl
  rw [hmain]
  refine List.rel_append ?_ hrest
  refine List.forall₂_iff_get.mpr ⟨List.length_replicate, fun k _ _ => ?_⟩
  rw [List.get_eq_getElem, List.getElem_replicate]
  exact .anonymous _

/-! ### Opcodes -/

private theorem describesAll_shuffle (h : DescribesAll names items m.main stack)
    (hrun : m.runOp s o = .ok m') (he : shuffle o stack = some stack')
    (hknown : o = .ifDup → (m.peek 0).num.isSome = true) :
    DescribesAll names items m'.main stack' := by
  obtain ⟨initial, main, alt, frames⟩ := m
  dsimp only at h
  unfold shuffle at he
  split at he
  -- drop, drop2
  · obtain _ | ⟨ha, h⟩ := h
    cases hrun
    cases he
    exact h
  · obtain _ | ⟨hb, _ | ⟨ha, h⟩⟩ := h
    cases hrun
    cases he
    exact h
  -- dup, dup2, dup3
  · obtain _ | ⟨ha, h⟩ := h
    cases hrun
    cases he
    exact .cons ha.duplicate (.cons ha h)
  · obtain _ | ⟨hb, _ | ⟨ha, h⟩⟩ := h
    cases hrun
    cases he
    exact .cons hb.duplicate (.cons ha.duplicate (.cons hb (.cons ha h)))
  · obtain _ | ⟨hc, _ | ⟨hb, _ | ⟨ha, h⟩⟩⟩ := h
    cases hrun
    cases he
    exact .cons hc.duplicate (.cons hb.duplicate (.cons ha.duplicate
      (.cons hc (.cons hb (.cons ha h)))))
  -- nip, over, over2
  · obtain _ | ⟨hb, _ | ⟨ha, h⟩⟩ := h
    cases hrun
    cases he
    exact .cons hb h
  · obtain _ | ⟨hb, _ | ⟨ha, h⟩⟩ := h
    cases hrun
    cases he
    exact .cons ha.duplicate (.cons hb (.cons ha h))
  · obtain _ | ⟨hd, _ | ⟨hc, _ | ⟨hb, _ | ⟨ha, h⟩⟩⟩⟩ := h
    cases hrun
    cases he
    exact .cons hb.duplicate (.cons ha.duplicate (.cons hd (.cons hc (.cons hb (.cons ha h)))))
  -- rot, rot2
  · obtain _ | ⟨hc, _ | ⟨hb, _ | ⟨ha, h⟩⟩⟩ := h
    cases hrun
    cases he
    exact .cons ha (.cons hc (.cons hb h))
  · obtain _ | ⟨hf, _ | ⟨hg, _ | ⟨hd, _ | ⟨hc, _ | ⟨hb, _ | ⟨ha, h⟩⟩⟩⟩⟩⟩ := h
    cases hrun
    cases he
    exact .cons hb (.cons ha (.cons hf (.cons hg (.cons hd (.cons hc h)))))
  -- swap, swap2, tuck
  · obtain _ | ⟨hb, _ | ⟨ha, h⟩⟩ := h
    cases hrun
    cases he
    exact .cons ha (.cons hb h)
  · obtain _ | ⟨hd, _ | ⟨hc, _ | ⟨hb, _ | ⟨ha, h⟩⟩⟩⟩ := h
    cases hrun
    cases he
    exact .cons hb (.cons ha (.cons hd (.cons hc h)))
  · obtain _ | ⟨hb, _ | ⟨ha, h⟩⟩ := h
    cases hrun
    cases he
    exact .cons hb (.cons ha (.cons hb.duplicate h))
  -- a known number tells whether the item is doubled
  · obtain _ | ⟨ha, h⟩ := h
    obtain ⟨n, hn⟩ := Option.isSome_iff_exists.mp (hknown rfl)
    have htrue := ha.isTrue_eq hn
    simp only [runOp, hn] at hrun
    rw [htrue] at he
    split at hrun
    · next hne =>
      rw [if_pos hne] at he
      cases hrun
      cases he
      exact .cons ha.duplicate (.cons ha h)
    · next hne =>
      rw [if_neg hne] at he
      cases hrun
      cases he
      exact .cons ha h
  · cases he

private theorem describes_peek (h : DescribesAll names items m.main stack) {k : Nat} {b : Bytes}
    (hb : stack[k]? = some b) : (m.peek k).Describes names items b := by
  obtain ⟨hk, rfl⟩ := List.getElem?_eq_some_iff.mp hb
  have hk' : k < m.main.length := h.length_eq ▸ hk
  rw [peek, List.getElem?_eq_getElem hk', Option.getD_some]
  exact h.get hk' hk

private theorem describesAll_eraseIdx {l : List Item} (h : DescribesAll names items l stack)
    (k : Nat) : DescribesAll names items (l.eraseIdx k) (stack.eraseIdx k) := by
  rw [List.eraseIdx_eq_take_drop_succ, List.eraseIdx_eq_take_drop_succ]
  exact List.rel_append (List.forall₂_take k h) (List.forall₂_drop (k + 1) h)

private theorem describesAll_pick (h : DescribesAll names items m.main stack)
    (hrun : m.runOp s .pick = .ok m') (he : withNumber pick stack = some stack') :
    DescribesAll names items m'.main stack' := by
  obtain ⟨initial, main, alt, frames⟩ := m
  match stack with
  | a :: stack =>
    obtain ⟨k, hk, he⟩ := Option.bind_eq_some_iff.mp he
    obtain _ | ⟨htop, hrest⟩ := h
    unfold Engine.pick at he
    split at he
    · cases he
    obtain ⟨b, hb, rfl⟩ := Option.map_eq_some_iff.mp he
    simp only [runOp, pop] at hrun
    split at hrun
    · cases hrun
      exact .cons (.anonymous _) hrest
    · next n hn =>
      cases (htop.read? hn).symm.trans hk
      split at hrun
      · cases hrun
      cases hrun
      exact .cons (describes_peek (m := ⟨initial, _, alt, frames⟩) hrest hb).duplicate hrest

private theorem describesAll_roll (h : DescribesAll names items m.main stack)
    (hknown : (m.peek 0).num.isSome = true) (hrun : m.runOp s .roll = .ok m')
    (he : withNumber roll stack = some stack') : DescribesAll names items m'.main stack' := by
  obtain ⟨initial, main, alt, frames⟩ := m
  match stack with
  | a :: stack =>
    obtain ⟨k, hk, he⟩ := Option.bind_eq_some_iff.mp he
    obtain _ | ⟨htop, hrest⟩ := h
    unfold Engine.roll at he
    split at he
    · cases he
    obtain ⟨b, hb, rfl⟩ := Option.map_eq_some_iff.mp he
    obtain ⟨n, hn⟩ := Option.isSome_iff_exists.mp hknown
    cases (htop.read? hn).symm.trans hk
    simp only [runOp, pop, hn] at hrun
    split at hrun
    · cases hrun
    cases hrun
    exact .cons (describes_peek (m := ⟨initial, _, alt, frames⟩) hrest hb)
      (describesAll_eraseIdx hrest _)

/-! ### What the machine can tell -/

/-- Whether the machine can tell what an instruction does: which item is moved or doubled is known,
the arms of a conditional end at one height, nothing is moved to or from the alt stack within a
conditional, and it is known how many items are taken. -/
def tells (m : Machine) : Instr → Bool
  | .op .roll | .op .ifDup => (m.peek 0).num.isSome
  | .op .opEndIf => m.frames.head?.all fun f => (f.arm.getD f.entry).length = m.height
  | .op .toAltStack | .op .fromAltStack => m.frames.isEmpty
  | .op .checkMultiSig | .op .checkMultiSigVerify => false
  | _ => true

/-- Whether there is an item for an opcode that only looks at one. -/
def finds (m : Machine) : Instr → Bool
  | .op .checkLockTimeVerify | .op .checkSequenceVerify => 0 < m.height
  | _ => true

/-- Whether a test holds in front of every step that the machine runs. -/
def along (p : Machine → Instr → Bool) (m : Machine) : List Step → Bool
  | [] => true
  | s :: rest =>
    p m s.instr &&
      match m.step s with
      | .ok m' => m'.along p rest
      | .error _ => true

private theorem describesAll_counted (hs : s.Genuine) (hinstr : s.instr = .op o)
    (ho : o.isPlain = true) (h : DescribesAll names items m.main stack)
    (hrun : m.runOp s o = .ok m') {left : Nat} (hfixed : o ≠ .pick ∧ o ≠ .roll ∧ o ≠ .ifDup)
    (hgeneric : m.runOp s o = .ok (m.generic s))
    (hleft : (left : Int) = o.info.args.length + o.info.delta)
    (hx : Exchanges stack stack' o.info.args.length left) :
    DescribesAll names items m'.main stack' := by
  obtain ⟨hpick, hroll, hdup⟩ := hfixed
  have hsig : o ≠ .checkMultiSig ∧ o ≠ .checkMultiSigVerify := by
    constructor <;> (rintro rfl; cases ho)
  have hargs : s.args = o.info.args := by
    have := hs.args
    rw [hinstr] at this
    exact this (by simpa using hpick) (by simpa using hroll) (by simpa using hsig.1)
      (by simpa using hsig.2)
  have hdelta : s.delta = o.info.delta := by
    have := hs.delta
    rw [hinstr, steady_iff] at this
    exact this ⟨by simpa using hdup, by simpa using hsig.1, by simpa using hsig.2⟩
  cases hrun.symm.trans hgeneric
  rw [← hargs] at hx hleft
  exact describesAll_generic h hx (by omega)

/-- An opcode that works on the main stack alone. -/
theorem describesAll_effect (hs : s.Genuine) (hinstr : s.instr = .op o) (ho : o.isPlain = true)
    (h : DescribesAll names items m.main stack) (htells : m.tells s.instr = true)
    (hfinds : m.finds s.instr = true) (hrun : m.runOp s o = .ok m') {valid : Checker}
    (he : effect valid o stack = some stack') (hbound : stack'.length ≤ maxItems) :
    DescribesAll names items m'.main stack' := by
  rw [hinstr] at htells hfinds
  by_cases hover : o = .over
  · subst hover
    exact describesAll_shuffle h hrun he (by simp)
  cases o with
  | opIf | opNotIf | opElse | opEndIf | toAltStack | fromAltStack | checkMultiSig
    | checkMultiSigVerify => cases ho
  | opReturn | disabled => cases he
  | small n =>
    cases hrun
    cases he
    have := n.2
    exact .cons (.number (ScriptNum.read?_ofInt _ (by omega))) h
  | depth =>
    cases hrun
    cases he
    simp only [List.length_cons, maxItems] at hbound
    have hheight : (m.height : Int) = stack.length := congrArg Nat.cast h.length_eq
    refine .cons (.number ?_) h
    rw [hheight]
    exact ScriptNum.read?_ofInt _ (by omega)
  | size =>
    cases hrun
    obtain ⟨a, -, rfl⟩ := Option.map_eq_some_iff.mp he
    exact .cons (.anonymous _) h
  | drop | drop2 | dup | dup2 | dup3 | nip | over2 | rot | rot2 | swap | swap2 | tuck =>
    exact describesAll_shuffle h hrun he (by simp)
  | ifDup => exact describesAll_shuffle h hrun he fun _ => htells
  | pick => exact describesAll_pick h hrun he
  | roll => exact describesAll_roll h htells hrun he
  | checkLockTimeVerify | checkSequenceVerify =>
    cases he
    obtain ⟨i, main, hm⟩ := List.exists_cons_of_length_pos (of_decide_eq_true hfinds)
    rw [hm] at h
    obtain ⟨a, rest, -, -, rfl⟩ := List.forall₂_cons_left_iff.mp h
    rw [← hm] at h
    exact describesAll_counted hs hinstr ho h hrun (by simp) rfl rfl
      ⟨[a], [a], rest, rfl, rfl, rfl, rfl⟩
  | nop | codeSeparator | reserved | verify | equal | equalVerify | unary | binary
    | numEqualVerify | within | hash | checkSig | checkSigVerify =>
    obtain ⟨left, hleft, hx⟩ := exchanges_effect rfl he
    exact describesAll_counted hs hinstr ho h hrun (by simp) rfl hleft hx
  | _ => exact absurd rfl hover

end Machine

end NamedStack
