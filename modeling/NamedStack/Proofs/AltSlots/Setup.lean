import NamedStack.Proofs.AltSlots.Moves

/-!
# Filling the slots

A routing drawn from an initial stack names some of its items, each with its depth. Sorted by depth
they come in the order in which they were declared, so the setup moves them from the bottom up; an
item that is moved has the same items above it as at the start. Each variable then gets a slot with
an empty value, unless its name has a slot already or the program never assigns it.
-/

namespace NamedStack

/-! ### The order of byte strings -/

namespace Bytes

private theorem le_total (a b : Bytes) : (le a b || le b a) = true := by
  induction a generalizing b with
  | nil => rfl
  | cons x a ih =>
    cases b with
    | nil => rfl
    | cons y b =>
      simp only [le]
      by_cases hxy : x < y
      · simp [hxy]
      · by_cases hyx : y < x
        · simp [hyx]
        · simp only [hxy, hyx, if_false]
          exact ih b

private theorem le_trans (a b c : Bytes) (hab : le a b = true) (hbc : le b c = true) :
    le a c = true := by
  induction a generalizing b c with
  | nil => rfl
  | cons x a ih =>
    cases b with
    | nil => cases hab
    | cons y b =>
      cases c with
      | nil => cases hbc
      | cons z c =>
        simp only [le, UInt8.lt_iff_toNat_lt] at hab hbc ⊢
        by_cases hxz : x.toNat < z.toNat
        · rw [if_pos hxz]
        · rw [if_neg hxz]
          split at hab
          · split at hbc
            · omega
            · split at hbc
              · cases hbc
              · omega
          · split at hab
            · cases hab
            · split at hbc
              · omega
              · split at hbc
                · cases hbc
                · rw [if_neg (by omega)]
                  exact ih b c hab hbc

end Bytes

namespace Routing

/-- Whether an item of the initial stack is moved to the alt stack. -/
def moves (r : Routing) (name : Name) : Bool := r.assumptions.any fun p => p.1 = name

/-- The routing names items of a stack, given bottom first, with their depths there. -/
structure DrawnFrom (names : List Name) (r : Routing) : Prop where
  nodup : (r.assumptions.map (·.1)).Nodup
  depth : ∀ p ∈ r.assumptions, ∃ i : Nat, names[i]? = some p.1 ∧ p.2 = (names.length : Int) - 1 - i

/-- The variables that get a slot, in the order of their first mention. -/
def newVariables (r : Routing) (prog : List Step) : List Name :=
  (r.vars.filter fun x => AltSlots.assigns prog x && !r.moves x).eraseDups

end Routing

namespace AltSlots

open Script (Piece)
open Engine

/-! ### The order of the moves -/

/-- The moved items of a stack, bottom first, with their depths. -/
private def depths (r : Routing) : List Name → List (Name × Int)
  | [] => []
  | n :: rest => if r.moves n then (n, (rest.length : Int)) :: depths r rest else depths r rest

private theorem mem_depths (r : Routing) (names : List Name) (p : Name × Int) :
    p ∈ depths r names ↔
      r.moves p.1 = true ∧ ∃ i : Nat, names[i]? = some p.1 ∧
        p.2 = (names.length : Int) - 1 - i := by
  induction names with
  | nil => simp [depths]
  | cons n rest ih =>
    have hshift : (∃ i : Nat, (n :: rest)[i]? = some p.1 ∧
          p.2 = ((n :: rest).length : Int) - 1 - i) ↔
        (n = p.1 ∧ p.2 = rest.length) ∨
          ∃ i : Nat, rest[i]? = some p.1 ∧ p.2 = (rest.length : Int) - 1 - i := by
      constructor
      · rintro ⟨i, hi, hp⟩
        cases i with
        | zero =>
          refine .inl ⟨Option.some.inj hi, ?_⟩
          rw [hp, List.length_cons]
          omega
        | succ i =>
          refine .inr ⟨i, hi, ?_⟩
          rw [hp, List.length_cons]
          omega
      · rintro (⟨hn, hp⟩ | ⟨i, hi, hp⟩)
        · refine ⟨0, congrArg some hn, ?_⟩
          rw [hp, List.length_cons]
          omega
        · refine ⟨i + 1, hi, ?_⟩
          rw [hp, List.length_cons]
          omega
    rw [hshift, depths]
    split
    · next hm =>
      rw [List.mem_cons, ih]
      constructor
      · rintro (rfl | ⟨hm', hi⟩)
        · exact ⟨hm, .inl ⟨rfl, rfl⟩⟩
        · exact ⟨hm', .inr hi⟩
      · rintro ⟨hm', ⟨rfl, hp⟩ | hi⟩
        · exact .inl (Prod.ext rfl hp)
        · exact .inr ⟨hm', hi⟩
    · next hm =>
      rw [ih]
      constructor
      · rintro ⟨hm', hi⟩
        exact ⟨hm', .inr hi⟩
      · rintro ⟨hm', ⟨rfl, -⟩ | hi⟩
        · exact absurd hm' hm
        · exact ⟨hm', hi⟩

private theorem pairwise_depths (r : Routing) (names : List Name) :
    (depths r names).Pairwise fun a b => a.2 > b.2 := by
  induction names with
  | nil => exact .nil
  | cons n rest ih =>
    rw [depths]
    split
    · refine List.pairwise_cons.mpr ⟨?_, ih⟩
      intro p hp
      obtain ⟨-, i, -, hd⟩ := (mem_depths r rest p).mp hp
      rw [hd]
      dsimp only
      omega
    · exact ih

variable {names : List Name} {r : Routing} {s : State}

private theorem mem_assumptions_iff (hn : names.Nodup) (hr : r.DrawnFrom names) (p : Name × Int) :
    p ∈ r.assumptions ↔ p ∈ depths r names := by
  rw [mem_depths]
  constructor
  · intro hp
    refine ⟨?_, hr.depth p hp⟩
    exact List.any_eq_true.mpr ⟨p, hp, decide_eq_true rfl⟩
  · rintro ⟨hm, i, hi, hd⟩
    obtain ⟨q, hq, hqp⟩ := List.any_eq_true.mp hm
    have hname : q.1 = p.1 := of_decide_eq_true hqp
    obtain ⟨j, hj, hqd⟩ := hr.depth q hq
    rw [hname] at hj
    obtain ⟨hilt, hi⟩ := List.getElem?_eq_some_iff.mp hi
    obtain ⟨hjlt, hj⟩ := List.getElem?_eq_some_iff.mp hj
    have hij : i = j := (hn.getElem_inj_iff).mp (hi.trans hj.symm)
    have hpq : q = p := Prod.ext hname (by rw [hqd, hd, hij])
    exact hpq ▸ hq

private def deeper (a b : Name × Int) : Bool := a.2 > b.2 || a.2 = b.2 && Bytes.le a.1 b.1

private theorem deeper_iff (a b : Name × Int) :
    deeper a b = true ↔ a.2 > b.2 ∨ a.2 = b.2 ∧ Bytes.le a.1 b.1 = true := by
  rw [deeper, Bool.or_eq_true, Bool.and_eq_true, decide_eq_true_eq, decide_eq_true_eq]

private theorem pairwise_byDepth (l : List (Name × Int)) :
    (byDepth l).Pairwise fun a b => deeper a b = true := by
  refine List.pairwise_mergeSort ?_ ?_ l
  · intro a b c hab hbc
    rcases (deeper_iff a b).mp hab with hab | ⟨hab, hab'⟩
    · exact (deeper_iff a c).mpr (.inl (by rcases (deeper_iff b c).mp hbc with h | h <;> omega))
    · rcases (deeper_iff b c).mp hbc with hbc | ⟨hbc, hbc'⟩
      · exact (deeper_iff a c).mpr (.inl (by omega))
      · exact (deeper_iff a c).mpr (.inr ⟨hab.trans hbc, Bytes.le_trans _ _ _ hab' hbc'⟩)
  · intro a b
    rw [Bool.or_eq_true, deeper_iff, deeper_iff]
    have hbytes := (Bool.or_eq_true _ _).mp (Bytes.le_total a.1 b.1)
    by_cases hlt : a.2 > b.2
    · exact .inl (.inl hlt)
    · by_cases hgt : b.2 > a.2
      · exact .inr (.inl hgt)
      · rcases hbytes with h | h
        · exact .inl (.inr ⟨by omega, h⟩)
        · exact .inr (.inr ⟨by omega, h⟩)

private theorem byDepth_eq (hn : names.Nodup) (hr : r.DrawnFrom names) :
    byDepth r.assumptions = depths r names := by
  have hdesc := pairwise_depths r names
  have hperm : (byDepth r.assumptions).Perm (depths r names) := by
    refine (List.mergeSort_perm _ _).trans ?_
    refine (List.perm_ext_iff_of_nodup hr.nodup.of_map ?_).mpr (mem_assumptions_iff hn hr)
    exact hdesc.imp fun hab h => by simp [h] at hab
  refine hperm.eq_of_pairwise ?_ (pairwise_byDepth _)
    (hdesc.imp fun h => (deeper_iff _ _).mpr (.inl h))
  -- two moved items at the same depth are the same item
  intro a b ha hb hab hba
  have hd : a.2 = b.2 := by
    rw [deeper_iff] at hab hba
    omega
  obtain ⟨-, i, hi, hai⟩ := (mem_depths r names a).mp (hperm.mem_iff.mp ha)
  obtain ⟨-, j, hj, hbj⟩ := (mem_depths r names b).mp hb
  have hij : i = j := by omega
  rw [hij] at hi
  exact Prod.ext (Option.some.inj (hi.symm.trans hj)) hd

/-! ### Moving the items -/

variable {valid : Checker}

private theorem addItems_leads (r : Routing) (named : List (Name × Bytes)) (hr : s.running = true)
    {below : Stack} (hm : s.main = (named.map (·.2)).reverse ++ below) (slots : AltSlots)
    (setup : List Step) :
    ∃ steps ps, addItems (depths r (named.map (·.1))) (slots, setup) =
        .ok (slots ++ (named.filter fun p => r.moves p.1).map (·.1), setup ++ steps) ∧
      Codes steps ps ∧
      Leads valid s ps { s with
        main := ((named.filter fun p => !r.moves p.1).map (·.2)).reverse ++ below
        alt := ((named.filter fun p => r.moves p.1).map (·.2)).reverse ++ s.alt } := by
  induction named generalizing s below slots setup with
  | nil =>
    refine ⟨[], [], by simp [depths, addItems], .nil, ?_⟩
    rw [List.map_nil, List.reverse_nil, List.nil_append] at hm
    rw [List.filter_nil, List.filter_nil, List.map_nil, List.reverse_nil, List.nil_append,
      List.nil_append, ← hm]
    exact .nil s
  | cons p rest ih =>
    obtain ⟨n, v⟩ := p
    have hm' : s.main = (rest.map (·.2)).reverse ++ v :: below := by
      rw [hm, List.map_cons, List.reverse_cons, List.append_assoc]
      rfl
    cases hmv : r.moves n with
    | false =>
      obtain ⟨steps, ps, hadd, hcodes, hleads⟩ := ih hr hm' slots setup
      refine ⟨steps, ps, ?_, hcodes, ?_⟩
      · simpa [depths, hmv] using hadd
      · simpa [hmv] using hleads
    | true =>
      obtain ⟨steps, ps, hmove, hcodes, hleads⟩ := leads_moveIn hr hm'
      rw [List.length_reverse, List.length_map] at hmove
      obtain ⟨steps', ps', hadd', hcodes', hleads'⟩ :=
        ih (s := { s with main := (rest.map (·.2)).reverse ++ below, alt := v :: s.alt }) hr rfl
          (slots ++ [n]) (setup ++ steps)
      refine ⟨steps ++ steps', ps ++ ps', ?_, hcodes.append hcodes', ?_⟩
      · simp only [List.map_cons, depths, hmv, if_true, addItems, List.length_map, hmove, hadd']
        simp [hmv]
      · simpa [hmv] using hleads.append hleads'

/-! ### Variables -/

/-- A name is routed if it has a slot. -/
theorem routed_iff (slots : AltSlots) (name : Name) : routed slots name = true ↔ name ∈ slots := by
  rw [routed, slot?, List.findIdx?_isSome, List.any_eq_true]
  simp

private theorem routed_append (slots : AltSlots) (x a : Name) :
    routed (slots ++ [x]) a = (routed slots a || a == x) := by
  rw [Bool.eq_iff_iff, Bool.or_eq_true, routed_iff, routed_iff, List.mem_append,
    List.mem_singleton, beq_iff_eq]

private theorem leads_placeholder (hr : s.running = true) :
    Leads valid s [numberPiece 0, .opcode .toAltStack] { s with alt := [] :: s.alt } := by
  have hpush := isPush_numberPiece 0
  have hzero : ScriptNum.ofInt 0 = [] := ScriptNum.ofInt_value (v := []) rfl
  rw [hzero] at hpush
  exact Leads.cons (.plain hpush.plain hr (hpush.effect valid _)) (.toAltStack (by exact hr) rfl)

private theorem addVariables_leads (prog : List Step) (vars : List Name) (hr : s.running = true)
    (slots : AltSlots) (setup : List Step) :
    ∃ steps ps, addVariables prog vars (slots, setup) =
        (slots ++ (vars.filter fun x => assigns prog x && !routed slots x).eraseDups,
          setup ++ steps) ∧
      Codes steps ps ∧
      Leads valid s ps { s with alt :=
        ((vars.filter fun x => assigns prog x && !routed slots x).eraseDups.map
          fun _ => ([] : Bytes)).reverse ++ s.alt } := by
  induction vars generalizing s slots setup with
  | nil => exact ⟨[], [], by simp [addVariables], .nil, .nil s⟩
  | cons x vars ih =>
    have hnot : (assigns prog x && !routed slots x) = !(routed slots x || !assigns prog x) := by
      cases assigns prog x <;> cases routed slots x <;> rfl
    rw [addVariables]
    split
    · next hskip =>
      obtain ⟨steps, ps, hadd, hcodes, hleads⟩ := ih hr slots setup
      rw [List.filter_cons_of_neg (by rw [hnot, hskip]; decide)]
      exact ⟨steps, ps, hadd, hcodes, hleads⟩
    · next hnew =>
      obtain ⟨steps, ps, hadd, hcodes, hleads⟩ :=
        ih (s := { s with alt := [] :: s.alt }) hr (slots ++ [x])
          (setup ++ [.number 0, .op .toAltStack])
      -- the slot of the variable keeps out its later mentions
      have hlater : (vars.filter fun y => assigns prog y && !routed (slots ++ [x]) y) =
          (vars.filter fun y => assigns prog y && !routed slots y).filter fun y => !y == x := by
        rw [List.filter_filter]
        refine List.filter_congr fun y _ => ?_
        rw [routed_append]
        cases assigns prog y <;> cases routed slots y <;> cases y == x <;> rfl
      rw [List.filter_cons_of_pos (by rw [hnot, Bool.eq_false_iff.mpr hnew]; rfl),
        List.eraseDups_cons, ← hlater]
      have hplace : Codes [.number 0, .op .toAltStack] [numberPiece 0, .opcode .toAltStack] :=
        .cons (writes_number 0) (.cons rfl .nil)
      refine ⟨_, _, ?_, hplace.append hcodes, ?_⟩
      · simpa using hadd
      · simpa using (leads_placeholder hr).append hleads

/-! ### The whole setup -/

/-- The setup of a routing drawn from the initial stack can be computed. It leaves the items that
are not moved in their order, and the moved ones in slots, the placeholders of the variables above.
-/
theorem setup_leads (hn : names.Nodup) {items : List Bytes} (hi : items.length = names.length)
    (hr : r.DrawnFrom names) (prog : List Step) (hrun : s.running = true) {below : Stack}
    (hm : s.main = items.reverse ++ below) :
    ∃ steps ps, setup true prog r =
        .ok (((names.zip items).filter fun p => r.moves p.1).map (·.1) ++ r.newVariables prog,
          steps) ∧
      Codes steps ps ∧
      Leads valid s ps { s with
        main := (((names.zip items).filter fun p => !r.moves p.1).map (·.2)).reverse ++ below
        alt := ((r.newVariables prog).map fun _ => ([] : Bytes)).reverse ++
          (((names.zip items).filter fun p => r.moves p.1).map (·.2)).reverse ++ s.alt } := by
  have hnames : (names.zip items).map (·.1) = names := List.map_fst_zip hi.ge
  have hitems : (names.zip items).map (·.2) = items := List.map_snd_zip hi.le
  rw [← hitems] at hm
  obtain ⟨steps, ps, hadd, hcodes, hleads⟩ := addItems_leads r (names.zip items) hrun hm [] []
  rw [hnames, ← byDepth_eq hn hr, List.nil_append, List.nil_append] at hadd
  obtain ⟨steps', ps', hadd', hcodes', hleads'⟩ := addVariables_leads prog r.vars
    (s := { s with
      main := (((names.zip items).filter fun p => !r.moves p.1).map (·.2)).reverse ++ below
      alt := (((names.zip items).filter fun p => r.moves p.1).map (·.2)).reverse ++ s.alt })
    hrun (((names.zip items).filter fun p => r.moves p.1).map (·.1)) steps
  -- the slots of the moved items are their names
  have hrouted (x : Name) :
      routed (((names.zip items).filter fun p => r.moves p.1).map (·.1)) x = r.moves x := by
    rw [Bool.eq_iff_iff, routed_iff]
    constructor
    · intro hx
      obtain ⟨p, hp, rfl⟩ := List.mem_map.mp hx
      exact (List.mem_filter.mp hp).2
    · intro hx
      obtain ⟨q, hq, hqx⟩ := List.any_eq_true.mp hx
      obtain ⟨i, hqi, -⟩ := hr.depth q hq
      have hmem : x ∈ names := of_decide_eq_true hqx ▸ List.mem_of_getElem? hqi
      rw [← hnames] at hmem
      obtain ⟨p, hp, rfl⟩ := List.mem_map.mp hmem
      exact List.mem_map_of_mem (List.mem_filter.mpr ⟨hp, hx⟩)
  simp only [hrouted] at hadd' hleads'
  refine ⟨steps ++ steps', ps ++ ps', ?_, hcodes.append hcodes', ?_⟩
  · rw [setup, if_pos rfl, hadd]
    exact congrArg Except.ok hadd'
  · rw [List.append_assoc]
    exact hleads.append hleads'

end AltSlots

end NamedStack
