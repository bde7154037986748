import Mathlib
import NamedStack.Failure

/-!
# Sequences by position

Access to a sequence by position. A position may be any integer, and one outside of the sequence is
a fault.
-/

namespace NamedStack.Sequence

variable {α : Type} {l : List α}

/-- The member at a position. -/
def get (l : List α) (i : Int) : Except Fault α :=
  if 0 ≤ i then l[i.toNat]?.elim (.error .outOfRange) .ok else .error .outOfRange

/-- The members from one position up to another. -/
def slice (l : List α) (lo hi : Int) : Except Fault (List α) :=
  if 0 ≤ lo ∧ lo ≤ hi ∧ hi ≤ l.length then .ok ((l.take hi.toNat).drop lo.toNat)
  else .error .outOfRange

/-- An index that has an element. -/
theorem get_eq_ok {i : Int} {a : α} (h : 0 ≤ i) (ha : l[i.toNat]? = some a) : get l i = .ok a := by
  rw [get, if_pos h, ha]
  rfl

/-- An index behind the end. -/
theorem get_eq_error {i : Int} (h : l.length ≤ i) : get l i = .error .outOfRange := by
  rw [get, if_pos (by omega), List.getElem?_eq_none (by omega)]
  rfl

/-- A slice with bounds inside of the list. -/
theorem slice_eq_ok {lo hi : Int} (hlo : 0 ≤ lo) (hle : lo ≤ hi) (hhi : hi ≤ l.length) :
    slice l lo hi = .ok ((l.take hi.toNat).drop lo.toNat) := by
  rw [slice, if_pos ⟨hlo, hle, hhi⟩]

variable {i : Nat}

/-- A position inside of a sequence, with what follows it. -/
theorem exists_get (h : i < l.length) :
    ∃ a rest, l.drop i = a :: rest ∧ get l i = .ok a ∧ l.drop (i + 1) = rest :=
  ⟨l[i], l.drop (i + 1), List.drop_eq_getElem_cons h,
    get_eq_ok (Int.natCast_nonneg i) (List.getElem?_eq_getElem h), rfl⟩

/-- A slice of so many elements. -/
theorem slice_drop {n : Nat} (h : i + n ≤ l.length) :
    slice l i (i + n) = .ok ((l.drop i).take n) := by
  rw [slice_eq_ok (by omega) (by omega) (by omega), ← Nat.cast_add, Int.toNat_natCast,
    Int.toNat_natCast, List.drop_take, Nat.add_sub_cancel_left]

/-- A slice up to the end. -/
theorem slice_toEnd (h : i ≤ l.length) : slice l i l.length = .ok (l.drop i) := by
  rw [slice_eq_ok (by omega) (by omega) (by omega), Int.toNat_natCast, Int.toNat_natCast,
    List.take_length]

/-- The last member. -/
theorem get_last (l : List α) (a : α) : get (l ++ [a]) ((l ++ [a]).length - 1) = .ok a := by
  refine get_eq_ok (by simp) ?_
  simp

/-- All members but the last. -/
theorem slice_front (l : List α) (a : α) : slice (l ++ [a]) 0 ((l ++ [a]).length - 1) = .ok l := by
  rw [slice_eq_ok (by decide) (by simp) (by omega)]
  simp

/-- Work on each member that fails at none of them. -/
theorem mapM_eq_ok {β : Type} {f : α → Except Fault β} {g : α → β} (h : ∀ a ∈ l, f a = .ok (g a)) :
    l.mapM f = .ok (l.map g) := by
  induction l with
  | nil => rfl
  | cons a l ih =>
    obtain ⟨ha, hl⟩ := List.forall_mem_cons.mp h
    rw [List.mapM_cons, ha, ih hl]
    rfl

/-- Work on the members in order fails exactly if it fails at one of them. -/
theorem foldlM_eq_error_iff {β ε : Type} {f : β → α → Except ε β} {b : β} {e : ε} :
    l.foldlM f b = .error e ↔ ∃ before a after b', l = before ++ a :: after ∧
      before.foldlM f b = .ok b' ∧ f b' a = .error e := by
  constructor
  · intro h
    induction l generalizing b with
    | nil => cases h
    | cons a l ih =>
      rw [List.foldlM_cons] at h
      cases hstep : f b a with
      | error e' =>
        rw [hstep] at h
        cases h
        exact ⟨[], a, l, b, rfl, rfl, hstep⟩
      | ok b₁ =>
        rw [hstep] at h
        obtain ⟨before, a', after, b', rfl, hbefore, hfail⟩ := ih h
        refine ⟨a :: before, a', after, b', rfl, ?_, hfail⟩
        rw [List.foldlM_cons, hstep]
        exact hbefore
  · rintro ⟨before, a, after, b', rfl, hbefore, hfail⟩
    rw [List.foldlM_append, hbefore]
    change List.foldlM f b' (a :: after) = _
    rw [List.foldlM_cons, hfail]
    rfl

end NamedStack.Sequence
