import NamedStack.Machine.AltSlots
import NamedStack.Proofs.Engine.Limits

/-!
# What the code of slots does to the stacks

The steps that fill, read and write slots, as pieces that the engine runs. To reach a slot, the
items above it are moved to the main stack one by one, which turns their order round, and moved back
after the slot has been read or written.
-/

namespace NamedStack

namespace AltSlots

open Script (Piece)
open Engine

/-! ### Steps as pieces -/

/-- Steps and the pieces that they are written as. -/
abbrev Codes (steps : List Step) (ps : List Piece) : Prop :=
  List.Forall₂ Script.Writes (Step.instrs steps) ps

/-- Steps one after another are written as their pieces one after another. -/
theorem Codes.append {a b : List Step} {ps qs : List Piece} (h : Codes a ps)
    (k : Codes b qs) : Codes (a ++ b) (ps ++ qs) := by
  unfold Codes
  rw [Step.instrs, List.map_append]
  exact List.rel_append h k

/-- Opcodes are written as themselves. -/
theorem codes_ops (os : List Opcode) : Codes (os.map Step.op) (os.map .opcode) := by
  induction os with
  | nil => exact .nil
  | cons o os ih => exact .cons rfl ih

private theorem codes_repeated (n : Nat) (os : List Opcode) :
    Codes (repeated n os) (List.replicate n (os.map .opcode)).flatten := by
  induction n with
  | zero => exact .nil
  | succ n ih =>
    rw [List.replicate_succ, List.flatten_cons]
    exact (codes_ops os).append ih

/-! ### Moving items over and back -/

variable {valid : Checker}

variable {rest xs main : Stack} {s : State} {v : Bytes}

variable (hr : s.running = true)

include hr

private theorem leads_unload (ha : s.alt = xs ++ rest) :
    Leads valid s (List.replicate xs.length [.opcode .fromAltStack]).flatten
      { s with main := xs.reverse ++ s.main, alt := rest } := by
  induction xs generalizing s with
  | nil =>
    rw [List.nil_append] at ha
    subst ha
    exact .nil s
  | cons x xs ih =>
    rw [List.length_cons, List.replicate_succ, List.flatten_cons, List.reverse_cons,
      List.append_assoc]
    exact Leads.append (.fromAltStack hr ha) (ih hr rfl)

private theorem leads_reload {ys : Stack} (hm : s.main = ys ++ main) :
    Leads valid s (List.replicate ys.length [.opcode .toAltStack]).flatten
      { s with main := main, alt := ys.reverse ++ s.alt } := by
  induction ys generalizing s with
  | nil =>
    rw [List.nil_append] at hm
    subst hm
    exact .nil s
  | cons y ys ih =>
    rw [List.length_cons, List.replicate_succ, List.flatten_cons, List.reverse_cons,
      List.append_assoc]
    exact Leads.append (.toAltStack hr hm) (ih hr rfl)

private theorem leads_reload_below {ys : Stack} (hm : s.main = v :: (ys ++ main)) :
    Leads valid s (List.replicate ys.length [.opcode .swap, .opcode .toAltStack]).flatten
      { s with main := v :: main, alt := ys.reverse ++ s.alt } := by
  induction ys generalizing s with
  | nil =>
    rw [List.nil_append] at hm
    rw [← hm]
    exact .nil s
  | cons y ys ih =>
    have hswap : effectOf valid (.opcode .swap) s.main = some (y :: v :: (ys ++ main)) := by
      rw [hm]
      rfl
    rw [List.length_cons, List.replicate_succ, List.flatten_cons, List.reverse_cons,
      List.append_assoc]
    exact Leads.append (.cons (.plain rfl hr hswap) (.toAltStack (by exact hr) rfl))
      (ih (by exact hr) rfl)

/-! ### Slots -/

/-- Reading a slot under some items brings its value to the top; the slot goes if this is the last
read. -/
theorem leads_get (last : Bool) (ha : s.alt = xs ++ v :: rest) :
    ∃ ps, Codes (repeated xs.length [.fromAltStack] ++ [Step.op .fromAltStack] ++
        (if last then [] else [.op .dup, .op .toAltStack]) ++
        repeated xs.length [.swap, .toAltStack]) ps ∧
      Leads valid s ps { s with
        main := v :: s.main, alt := xs ++ (if last then rest else v :: rest) } := by
  have hfetch : Leads valid s
      ((List.replicate xs.length [.opcode .fromAltStack]).flatten ++ [.opcode .fromAltStack])
      { s with main := v :: (xs.reverse ++ s.main), alt := rest } :=
    Leads.append (leads_unload hr ha) (.fromAltStack (by exact hr) rfl)
  have hback (alt : Stack) : Leads valid
      { s with main := v :: (xs.reverse ++ s.main), alt := alt }
      (List.replicate xs.length [.opcode .swap, .opcode .toAltStack]).flatten
      { s with main := v :: s.main, alt := xs ++ alt } := by
    have hreload : Leads valid { s with main := v :: (xs.reverse ++ s.main), alt := alt }
        (List.replicate xs.reverse.length [.opcode .swap, .opcode .toAltStack]).flatten
        { s with main := v :: s.main, alt := xs.reverse.reverse ++ alt } :=
      leads_reload_below (by exact hr) rfl
    rwa [List.length_reverse, List.reverse_reverse] at hreload
  have hcodes := (codes_repeated xs.length [.fromAltStack]).append (codes_ops [.fromAltStack])
  cases last with
  | true =>
    refine ⟨_, (hcodes.append .nil).append (codes_repeated _ _), ?_⟩
    rw [List.append_nil]
    exact hfetch.append (hback rest)
  | false =>
    refine ⟨_, (hcodes.append (codes_ops [.dup, .toAltStack])).append (codes_repeated _ _), ?_⟩
    refine (hfetch.append ?_).append (hback (v :: rest))
    exact Leads.cons (.plain rfl (by exact hr) rfl) (.toAltStack (by exact hr) rfl)

/-- Writing a slot under some items replaces its value by the item on top. -/
theorem leads_set {w : Bytes} (ha : s.alt = xs ++ v :: rest) (hm : s.main = w :: main) :
    ∃ ps, Codes (repeated xs.length [.fromAltStack] ++
        [.op .fromAltStack, .op .drop, .number xs.length, .op .roll, .op .toAltStack] ++
        repeated xs.length [.toAltStack]) ps ∧
      Leads valid s ps { s with main := main, alt := xs ++ w :: rest } := by
  have hget : (xs.reverse ++ w :: main)[xs.length]? = some w := by
    rw [List.getElem?_append_right (by simp)]
    simp
  have herase : (xs.reverse ++ w :: main).eraseIdx xs.length = xs.reverse ++ main := by
    rw [List.eraseIdx_append_of_length_le (by simp)]
    simp
  have hunload : Leads valid s (List.replicate xs.length [.opcode .fromAltStack]).flatten
      { s with main := xs.reverse ++ w :: main, alt := v :: rest } :=
    hm ▸ leads_unload hr ha
  have hroll : Leads valid { s with main := xs.reverse ++ w :: main, alt := rest }
      [numberPiece xs.length, .opcode .roll]
      { s with main := w :: (xs.reverse ++ main), alt := rest } :=
    herase ▸ Leads.roll (by exact hr) hget
  have hback : Leads valid { s with main := xs.reverse ++ main, alt := w :: rest }
      (List.replicate xs.length [.opcode .toAltStack]).flatten
      { s with main := main, alt := xs ++ w :: rest } := by
    have hreload : Leads valid { s with main := xs.reverse ++ main, alt := w :: rest }
        (List.replicate xs.reverse.length [.opcode .toAltStack]).flatten
        { s with main := main, alt := xs.reverse.reverse ++ w :: rest } :=
      leads_reload (by exact hr) rfl
    rwa [List.length_reverse, List.reverse_reverse] at hreload
  have hcodes : Codes [.op .fromAltStack, .op .drop, .number xs.length, .op .roll, .op .toAltStack]
      ([.opcode .fromAltStack, .opcode .drop] ++ [numberPiece xs.length, .opcode .roll] ++
        [.opcode .toAltStack]) :=
    .cons rfl (.cons rfl (.cons (writes_number _) (.cons rfl (.cons rfl .nil))))
  refine ⟨_, ((codes_repeated _ _).append hcodes).append (codes_repeated _ _), ?_⟩
  refine (hunload.append (Leads.append (Leads.append ?_ hroll) ?_)).append hback
  · exact Leads.cons (.fromAltStack (by exact hr) rfl) (.plain rfl (by exact hr) rfl)
  · exact .toAltStack (by exact hr) rfl

/-- An item of the initial stack is moved into a new slot. -/
theorem leads_moveIn {above below : Stack} (hm : s.main = above ++ v :: below) :
    ∃ steps ps, moveIn above.length = .ok steps ∧ Codes steps ps ∧
      Leads valid s ps { s with main := above ++ below, alt := v :: s.alt } := by
  have hget : s.main[above.length]? = some v := by
    rw [hm, List.getElem?_append_right (Nat.le_refl _)]
    simp
  have herase : s.main.eraseIdx above.length = above ++ below := by
    rw [hm, List.eraseIdx_append_of_length_le (Nat.le_refl _)]
    simp
  have hroll : Leads valid s [numberPiece above.length, .opcode .roll]
      { s with main := v :: (above ++ below) } :=
    herase ▸ Leads.roll hr hget
  have hint : Instr.ofInt above.length = .ok (.number above.length) := by
    unfold Instr.ofInt Instr.number ScriptNum.encode
    cases SmallInt.ofInt? above.length with
    | some k => rfl
    | none =>
      rw [if_neg (by omega)]
      rfl
  refine ⟨[.number above.length, .op .roll, .op .toAltStack],
    [numberPiece above.length, .opcode .roll] ++ [.opcode .toAltStack], ?_, ?_, ?_⟩
  · rw [moveIn, hint]
    rfl
  · exact .cons (writes_number _) (.cons rfl (.cons rfl .nil))
  · exact hroll.append (.toAltStack (by exact hr) rfl)

end AltSlots

end NamedStack
