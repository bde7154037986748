import NamedStack.Step

/-!
# Programs that are not resolved yet

References, calls and inner scripts are open: other code may come to stand in their place. Two
programs with the same open instructions are related, whatever becomes of them, if they are related
however the open instructions are filled with code. This is what can be said of a change to a
program that still has references in it.
-/

namespace NamedStack

/-- Whether code may still come to stand in place of an instruction. -/
def Instr.isOpen : Instr → Bool
  | .op _ | .push _ => false
  | _ => true

/-- Opcodes are not open. -/
@[simp]
theorem Instr.isOpen_op (o : Opcode) : (Instr.op o).isOpen = false := rfl

/-- Data is not open. -/
@[simp]
theorem Instr.isOpen_push (data : Bytes) : (Instr.push data).isOpen = false := rfl

/-- The instructions of steps one after another. -/
@[simp]
theorem Step.instrs_append (a b : List Step) : instrs (a ++ b) = instrs a ++ instrs b :=
  List.map_append

namespace Peephole

/-- The open instructions of a program. -/
def openings (ops : List Instr) : List Instr := ops.filter Instr.isOpen

/-- Put code in place of the open instructions of a program, from the left, as far as there is code.
-/
def fill : List Instr → List (List Instr) → List Instr
  | [], _ => []
  | i :: ops, codes =>
    if i.isOpen then
      match codes with
      | [] => i :: fill ops []
      | code :: codes => code ++ fill ops codes
    else i :: fill ops codes

variable {a b : List Instr} {cs ds : List (List Instr)}

/-- What is open in programs one after another. -/
@[simp]
theorem openings_append (a b : List Instr) : openings (a ++ b) = openings a ++ openings b :=
  List.filter_append a b

/-- Nothing is open if no instruction is. -/
theorem openings_eq_nil_iff : openings a = [] ↔ ∀ i ∈ a, i.isOpen = false := by
  simp [openings]

/-- Without fillings a program stays as it is. -/
@[simp]
theorem fill_nil (ops : List Instr) : fill ops [] = ops := by
  induction ops with
  | nil => rfl
  | cons i ops ih => simp [fill, ih]

/-- A program in two parts takes its code in two parts. -/
theorem fill_append (h : cs.length = (openings a).length) :
    fill (a ++ b) (cs ++ ds) = fill a cs ++ fill b ds := by
  induction a generalizing cs with
  | nil =>
    obtain rfl := List.eq_nil_of_length_eq_zero h
    rfl
  | cons i a ih =>
    cases hi : i.isOpen with
    | false =>
      rw [openings, List.filter_cons_of_neg (by simp [hi])] at h
      simp [fill, hi, ih h]
    | true =>
      rw [openings, List.filter_cons_of_pos hi] at h
      cases cs with
      | nil => cases h
      | cons c cs => simp [fill, hi, ih (Nat.succ.inj h)]

/-- Open instructions are replaced by their code. -/
theorem fill_eq_flatten (ha : ∀ i ∈ a, i.isOpen = true) (h : cs.length = a.length) :
    fill a cs = cs.flatten := by
  induction a generalizing cs with
  | nil =>
    obtain rfl := List.eq_nil_of_length_eq_zero h
    rfl
  | cons i a ih =>
    obtain ⟨hi, ha⟩ := List.forall_mem_cons.mp ha
    cases cs with
    | nil => cases h
    | cons c cs => simp [fill, hi, ih ha (Nat.succ.inj h)]

/-- A program is not changed if each open instruction is put in its own place. -/
theorem fill_openings (ops : List Instr) : fill ops ((openings ops).map ([·])) = ops := by
  induction ops with
  | nil => rfl
  | cons i ops ih =>
    cases hi : i.isOpen with
    | false => simpa [fill, openings, hi] using ih
    | true => simpa [fill, openings, hi] using ih

private theorem exists_append {m n : Nat} (h : cs.length = m + n) :
    ∃ as bs, cs = as ++ bs ∧ as.length = m ∧ bs.length = n := by
  refine ⟨cs.take m, cs.drop m, (List.take_append_drop m cs).symm, ?_, ?_⟩
  · rw [List.length_take]
    omega
  · rw [List.length_drop]
    omega

/-! ### Relations between programs -/

/-- A relation between programs, of instructions or of steps, that goes on over any number of
changes. -/
structure Chains {α : Type} (R : List α → List α → Prop) : Prop where
  refl : ∀ ops, R ops ops
  trans : ∀ ⦃a b c⦄, R a b → R b c → R a c

/-- A relation between programs that is also kept by what stands around them. -/
structure Congruent {α : Type} (R : List α → List α → Prop) : Prop extends Chains R where
  append : ∀ ⦃old new⦄, R old new → ∀ front back, R (front ++ old ++ back) (front ++ new ++ back)

/-- A relation of instructions as one of steps. -/
theorem Chains.onInstrs {R : List Instr → List Instr → Prop} (hR : Chains R) :
    Chains fun old new => R (Step.instrs old) (Step.instrs new) where
  refl := fun _ => hR.refl _
  trans := fun _ _ _ h k => hR.trans h k

/-- A congruent relation of instructions as one of steps. -/
theorem Congruent.onInstrs {R : List Instr → List Instr → Prop} (hR : Congruent R) :
    Congruent fun old new => R (Step.instrs old) (Step.instrs new) where
  toChains := hR.toChains.onInstrs
  append := by
    intro old new h front back
    simp only [Step.instrs_append]
    exact hR.append h _ _

/-- Two programs with the same open instructions, related however these are filled. -/
structure Lifted (R : List Instr → List Instr → Prop) (old new : List Instr) : Prop where
  openings_eq : openings new = openings old
  rel : ∀ cs, cs.length = (openings old).length → R (fill old cs) (fill new cs)

namespace Lifted

variable {R S : List Instr → List Instr → Prop} {old new : List Instr}

/-- However they are filled, changes go on. -/
theorem chains (hR : Chains R) : Chains (Lifted R) where
  refl := fun _ => ⟨rfl, fun _ _ => hR.refl _⟩
  trans := fun _ _ _ h k => ⟨k.openings_eq.trans h.openings_eq,
    fun cs hcs => hR.trans (h.rel cs hcs) (k.rel cs (h.openings_eq.symm ▸ hcs))⟩

/-- What stands around two programs is filled alike. -/
theorem congruent (hR : Congruent R) : Congruent (Lifted R) where
  toChains := chains hR.toChains
  append := by
    intro old new h front back
    constructor
    · simp [h.openings_eq]
    · intro cs hcs
      simp only [openings_append, List.length_append] at hcs
      obtain ⟨ds, bs, rfl, hds, hbs⟩ := exists_append hcs
      obtain ⟨as, os, rfl, has, hos⟩ := exists_append hds
      rw [fill_append (by simpa using hds), fill_append has,
        fill_append (by simpa [h.openings_eq] using hds), fill_append has]
      exact hR.append (h.rel os hos) _ _

/-- A weaker relation is lifted too. -/
theorem mono (hRS : ∀ a b, R a b → S a b) (h : Lifted R old new) : Lifted S old new :=
  ⟨h.openings_eq, fun cs hcs => hRS _ _ (h.rel cs hcs)⟩

/-- Programs are related as they are. -/
theorem closed (h : Lifted R old new) : R old new := by
  have hrel := h.rel ((openings old).map ([·])) (List.length_map _)
  rw [fill_openings, ← h.openings_eq, fill_openings] at hrel
  exact hrel

/-- Programs without open instructions. -/
theorem of_code (hold : openings old = []) (hnew : openings new = []) (h : R old new) :
    Lifted R old new := by
  refine ⟨hnew.trans hold.symm, fun cs hcs => ?_⟩
  rw [hold] at hcs
  obtain rfl := List.eq_nil_of_length_eq_zero hcs
  rwa [fill_nil, fill_nil]

end Lifted

/-! ### Replacing open instructions -/

/-- Code for open instructions that stand next to each other. -/
structure Patch where
  /-- How many open instructions stand in front. -/
  place : Nat
  /-- How many open instructions are replaced. -/
  count : Nat
  code : List Instr
  deriving DecidableEq, Repr

/-- Whether a program comes from another one by a patch. -/
def Patch.Applies (p : Patch) (before after : List Instr) : Prop :=
  ∃ front mid back, before = front ++ mid ++ back ∧ after = front ++ p.code ++ back ∧
    (openings front).length = p.place ∧ (∀ i ∈ mid, i.isOpen = true) ∧ mid.length = p.count

private theorem fill_patched {front mid back code : List Instr} {as os bs : List (List Instr)}
    (has : as.length = (openings front).length) (hos : os.length = (openings code).length)
    (hmid : ∀ i ∈ mid, i.isOpen = true) (hpos : 0 < mid.length) :
    fill (front ++ code ++ back) (as ++ os ++ bs) =
      fill (front ++ mid ++ back)
        (as ++ (fill code os :: List.replicate (mid.length - 1) []) ++ bs) := by
  have hopen : openings mid = mid := List.filter_eq_self.mpr hmid
  have hlen : (fill code os :: List.replicate (mid.length - 1) []).length = mid.length := by
    rw [List.length_cons, List.length_replicate]
    omega
  rw [fill_append (by simp [has, hos]), fill_append has,
    fill_append (by rw [List.length_append, openings_append, List.length_append, hopen, has, hlen]),
    fill_append has, fill_eq_flatten hmid hlen]
  simp

/-- Programs that are related however they are filled are so after the same patch. -/
theorem Lifted.patch {R : List Instr → List Instr → Prop} {old new old' new' : List Instr}
    (h : Lifted R old new) {p : Patch} (hp : 0 < p.count) (hold : p.Applies old old')
    (hnew : p.Applies new new') : Lifted R old' new' := by
  obtain ⟨f, m, b, rfl, rfl, hf, hm, hlen⟩ := hold
  obtain ⟨f', m', b', rfl, rfl, hf', hm', hlen'⟩ := hnew
  have hopen : openings m = m := List.filter_eq_self.mpr hm
  have hopen' : openings m' = m' := List.filter_eq_self.mpr hm'
  -- the open instructions of the parts correspond to each other
  obtain ⟨hfront, hback⟩ : openings f' = openings f ∧ openings b' = openings b := by
    have hopenings := h.openings_eq
    simp only [openings_append] at hopenings
    obtain ⟨hparts, hback⟩ := List.append_inj hopenings
      (by simp [hf, hf', hopen, hopen', hlen, hlen'])
    exact ⟨(List.append_inj hparts (hf'.trans hf.symm)).1, hback⟩
  constructor
  · simp only [openings_append, hfront, hback]
  · intro cs hcs
    simp only [openings_append, List.length_append] at hcs
    obtain ⟨ds, bs, rfl, hds, hbs⟩ := exists_append hcs
    obtain ⟨as, os, rfl, has, hos⟩ := exists_append hds
    rw [fill_patched has hos hm (by omega), fill_patched (hfront ▸ has) hos hm' (by omega), hlen,
      hlen']
    apply h.rel
    simp only [openings_append, List.length_append, List.length_cons, List.length_replicate, hopen]
    omega

end Peephole

end NamedStack
