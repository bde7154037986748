import NamedStack.Proofs.Context.Counting
import NamedStack.Proofs.Context.Levels

/-!
# Heights along a program

The height that is followed from the left, back to the start of a conditional for its second arm and
on from the end of the first arm after it, is what the sum over the branches comes to. The arms of a
conditional add what the height grows by in them.
-/

namespace NamedStack.Branch.Scan

variable {s : Scan} {p c : Nat} {cs : List Nat} {b : Branch}

/-- What the arm at the place of a branch's partner adds; nothing if there is none. -/
noncomputable def partnerTotal (s : Scan) (δ : Nat → Int) (b : Branch) : Int :=
  ((b.sibling.bind fun k => s.branches[k]?).map (s.armTotal δ)).getD 0

/-- The level of an open conditional is what the scan says of it. -/
inductive LevelAt (s : Scan) (δ : Nat → Int) (base : Int) (c : Nat) : Level Int → Prop
  | first {b : Branch} (hb : s.branches[c]? = some b) (htrue : b.isTrue = true) :
      LevelAt s δ base c { entry := base + total s.Counts δ 0 b.start }
  | second {b t : Branch} {k x : Nat} (hb : s.branches[c]? = some b) (hfalse : b.isTrue = false)
      (hsib : b.sibling = some k) (ht : s.branches[k]? = some t) (hx : t.stop = some x)
      (hzero : δ x = 0)
      (harm : s.armTotal δ t = total (s.CountsBut k) δ 0 x - total s.Counts δ 0 t.start) :
      LevelAt s δ base c
        { entry := base + total s.Counts δ 0 t.start
          arm := some (base + total (s.CountsBut k) δ 0 x) }

/-- A height agrees with the branches in front of a position, and the arms of each conditional that
ended there are as they should be. -/
structure Agrees (ends : Nat → Int → Int → Prop) (δ : Nat → Int) (base : Int) (p : Nat) (s : Scan)
    (h : Heights) : Prop where
  sound : s.Sound p
  now : h.now = base + total s.Counts δ 0 p
  levels : List.Forall₂ (s.LevelAt δ base) s.opened h.levels
  ended : ∀ (k : Nat) (b : Branch) (e : Nat), s.branches[k]? = some b → b.isTrue = true →
    b.endIf = some e → ends e (s.armTotal δ b) (s.partnerTotal δ b)

variable {δ : Nat → Int} {base : Int}

variable {ls : List (Level Int)} {s' : Scan} {k : Nat} {t : Branch} {l : Level Int}

private theorem levels_congr {hi : Nat} (hchain : Chain s hi cs)
    (hl : List.Forall₂ (s.LevelAt δ base) cs ls) (hkeep : Keeps s s' cs)
    (hdrops : ∀ k i, i < hi → (s'.Drops k i ↔ s.Drops k i))
    (harm : ∀ (k : Nat) (t : Branch), s.branches[k]? = some t → s'.armTotal δ t = s.armTotal δ t) :
    List.Forall₂ (s'.LevelAt δ base) cs ls := by
  induction hl with
  | nil => exact .nil
  | @cons c l cs ls hlevel _ ih =>
    cases hchain with
    | @cons _ _ first _ b hb _ _ _ hle hopen hrest =>
      have hfirst : first ≤ hi := hopen.le_start.trans hle
      obtain ⟨hb', hsib'⟩ := hkeep c (.head _) b hb
      have hcounts {i : Nat} (hi' : i < hi) : s'.Counts i ↔ s.Counts i :=
        forall_congr' fun k => not_congr (hdrops k i hi')
      refine .cons ?_ (ih (hrest.mono hfirst) (fun c hc => hkeep c (.tail _ hc)))
      cases hlevel with
      | first hb₁ htrue =>
        cases hb.symm.trans hb₁
        rw [← total_congr fun i _ hi' => hcounts (Nat.lt_of_lt_of_le hi' hle)]
        exact .first hb' htrue
      | @second b₁ t k x hb₁ hfalse hsib ht hx hzero harm' =>
        cases hb.symm.trans hb₁
        cases hopen with
        | first htrue => cases hfalse.symm.trans htrue
        | second _ hsib₂ ht₂ _ hx₂ _ _ hstart hlex =>
          cases hsib.symm.trans hsib₂
          cases ht.symm.trans ht₂
          cases hx.symm.trans hx₂
          have hstart' : total s'.Counts δ 0 t.start = total s.Counts δ 0 t.start :=
            total_congr fun i _ hi' => hcounts (by omega)
          have harm'' : total (s'.CountsBut k) δ 0 x = total (s.CountsBut k) δ 0 x :=
            total_congr fun i _ hi' => forall_congr' fun j => imp_congr_right fun _ =>
              not_congr (hdrops j i (by omega))
          rw [← hstart', ← harm'']
          refine .second hb' hfalse hsib ((hsib' k hsib).trans ht) hx hzero ?_
          rw [harm k t ht, harm', hstart', harm'']

private theorem armTotal_splits (hb : s.branches[c]? = some b) (hfirst : b.isTrue = true)
    (t : Branch) :
    armTotal { branches := splitAt s.branches c p b, opened := s.branches.length :: cs } δ t =
      s.armTotal δ t :=
  total_congr fun i _ _ => not_congr (inner_splits hb hfirst _ i)

private theorem armTotal_closes (h : Sound s p) (ho : s.opened = c :: cs)
    (hb : s.branches[c]? = some b) (ht : s.branches[k]? = some t) :
    armTotal { branches := closeAt s.branches c p b, opened := cs } δ t = s.armTotal δ t := by
  refine total_congr fun i hlo hhi => not_congr ?_
  rw [inner_closes h ho hb, or_iff_left]
  rintro ⟨hnest, -, hstart, -⟩
  cases hx : t.stop with
  | none =>
    rw [hx] at hhi
    exact absurd hhi (Nat.not_lt.mpr hlo)
  | some x =>
    rw [hx] at hhi
    rcases h.apart k t x c b ht hx (ho ▸ .head _) hb with ⟨-, hlt⟩ | hlt
    · omega
    · exact absurd hhi (by simp only [Option.getD_some]; omega)

private theorem partnerTotal_congr
    (hkeep : ∀ j d, t.sibling = some j → s.branches[j]? = some d → s'.branches[j]? = some d)
    (hlinked : ∀ j, t.sibling = some j → ∃ d, s.branches[j]? = some d)
    (harm : ∀ (k : Nat) (t : Branch), s.branches[k]? = some t → s'.armTotal δ t = s.armTotal δ t) :
    s'.partnerTotal δ t = s.partnerTotal δ t := by
  unfold partnerTotal
  cases hj : t.sibling with
  | none => rfl
  | some j =>
    obtain ⟨d, hd⟩ := hlinked j hj
    simp only [Option.bind_some, hd, hkeep j d hj hd, Option.map_some, harm j d hd]

private theorem total_first_arm {x : Nat} (hc : c ∈ s.opened) (ht : s.branches[k]? = some t)
    (hx : t.stop = some x) (hback : t.sibling = some c) (hzero : δ x = 0) :
    total s.Counts δ t.start (x + 1) = 0 := by
  refine total_eq_zero fun i hlo hhi hcounts => ?_
  by_cases hi : i < x
  · refine absurd ⟨t, ht, ?_, fun _ => ⟨c, hc, hback⟩⟩ (hcounts k)
    exact (contains_iff t i).mpr ⟨x, hx, hlo, hi⟩
  · rw [show i = x by omega, hzero]

variable {ends : Nat → Int → Int → Prop} {h : Heights}

section

variable (ha : Agrees ends δ base p s h)

include ha

private theorem agrees_pass {instr : Instr} (hm : Moves s p instr s) :
    Agrees ends δ base (p + 1) s { h with now := h.now + δ p } where
  sound := ha.sound.step hm
  now := by
    rw [ha.now, total_succ (Nat.zero_le p) ha.sound.counts_here, add_assoc]
  levels := ha.levels
  ended := ha.ended

private theorem agrees_opens {o : Opcode} (ho : o = .opIf ∨ o = .opNotIf) :
    Agrees ends δ base (p + 1) (s.openArm p)
      { now := h.now + δ p, levels := { entry := h.now + δ p } :: h.levels } := by
  have hs := ha.sound
  have hcounts (i : Nat) : (s.openArm p).Counts i ↔ s.Counts i :=
    forall_congr' fun k => not_congr (drops_opens hs k i)
  have hnow : h.now + δ p = base + total (s.openArm p).Counts δ 0 (p + 1) := by
    rw [ha.now, total_congr fun i _ _ => hcounts i, total_succ (Nat.zero_le p) hs.counts_here,
      add_assoc]
  have harm (t : Branch) : (s.openArm p).armTotal δ t = s.armTotal δ t :=
    total_congr fun i _ _ => not_congr (inner_opens _ i)
  have hlook := lookup_open s p
  refine ⟨hs.step (.opens ho), hnow, .cons ?_ ?_, ?_⟩
  · rw [hnow]
    exact .first (b := { isTrue := true, start := p + 1, nest := _, marker := p })
      ((hlook _ _).mpr (.inr ⟨rfl, rfl⟩)) rfl
  · exact levels_congr hs.chain ha.levels (keeps_opens hs) (fun k i _ => drops_opens hs k i)
      fun _ t _ => harm t
  · intro k b e hb htrue he
    rcases (hlook k b).mp hb with hb | ⟨-, rfl⟩
    · rw [harm, partnerTotal_congr (s := s) (fun j d _ hd => (hlook j d).mpr (.inl hd))
        (fun j hj => (hs.linked k b j hb htrue hj).imp fun _ hd => hd.1) fun _ t _ => harm t]
      exact ha.ended k b e hb htrue he
    · cases he

private theorem ended_splits (hb : s.branches[c]? = some b) (hfirst : b.isTrue = true) {e : Nat}
    (ht : s.branches[k]? = some t) (htrue : t.isTrue = true) (he : t.endIf = some e)
    (hs' : s' = { branches := splitAt s.branches c p b, opened := s.branches.length :: cs }) :
    ends e (s'.armTotal δ t) (s'.partnerTotal δ t) := by
  have hs := ha.sound
  have harmTotal (t : Branch) : s'.armTotal δ t = s.armTotal δ t := by
    rw [hs']
    exact armTotal_splits hb hfirst t
  have hkept (j : Nat) (d : Branch) (hj : t.sibling = some j) (hd : s.branches[j]? = some d) :
      s'.branches[j]? = some d := by
    obtain ⟨d', hd', hfalse, -⟩ := hs.linked k t j ht htrue hj
    cases hd.symm.trans hd'
    rw [hs']
    -- the arm that is split is a first one, and the partner is not
    have hjc : j ≠ c := by
      rintro rfl
      cases hb.symm.trans hd
      cases hfirst.symm.trans hfalse
    exact (lookup_split hb j d).mpr (.inl ⟨d, hd, by simp [hjc]⟩)
  rw [harmTotal, partnerTotal_congr hkept
    (fun j hj => (hs.linked k t j ht htrue hj).imp fun _ hd => hd.1) fun _ t _ => harmTotal t]
  exact ha.ended k t e ht htrue he

private theorem agrees_splits (ho : s.opened = c :: cs) (hb : s.branches[c]? = some b)
    (hfirst : b.isTrue = true) (hzero : δ p = 0)
    (hs' : s' = { branches := splitAt s.branches c p b, opened := s.branches.length :: cs }) :
    ∃ entry ls, h.levels = { entry } :: ls ∧ Agrees ends δ base (p + 1) s'
      { now := entry, levels := { entry, arm := some h.now } :: ls } := by
  have hs := ha.sound
  obtain ⟨first, -, hend, -, hle, harm, hrest⟩ := hs.innermost ho hb
  obtain ⟨rfl, -⟩ := harm.of_isTrue hfirst
  have hlevels := ha.levels
  rw [ho] at hlevels
  obtain ⟨l, ls, hl, hls, heq⟩ := List.forall₂_cons_left_iff.mp hlevels
  cases hl with
  | second hb' hfalse =>
    cases hb.symm.trans hb'
    cases hfirst.symm.trans hfalse
  | first hb' htrue =>
    cases hb.symm.trans hb'
    refine ⟨_, ls, heq, ?_⟩
    have hdrops (k i : Nat) : s'.Drops k i ↔ s.Drops k i ∨ k = c ∧ b.start ≤ i ∧ i < p := by
      rw [hs']
      exact drops_splits hs ho hb hfirst k i
    have harmTotal (t : Branch) : s'.armTotal δ t = s.armTotal δ t := by
      rw [hs']
      exact armTotal_splits hb hfirst t
    have hlook := lookup_split (i := p) hb
    rw [← show s'.branches = splitAt s.branches c p b by rw [hs']] at hlook
    have hsplit := (hlook c _).mpr (.inl ⟨b, hb, rfl⟩)
    rw [if_pos rfl, if_pos rfl] at hsplit
    have hnew := (hlook _ _).mpr (.inr ⟨rfl, rfl⟩)
    have hopened : s'.opened = s.branches.length :: cs := by rw [hs']
    -- in front of the conditional nothing changes, and its first arm does not count any more
    have hbefore : total s.Counts δ 0 b.start = total s'.Counts δ 0 b.start := by
      refine total_congr fun i _ hi => forall_congr' fun k => not_congr ?_
      rw [hdrops, or_iff_left]
      omega
    have hinside : total s'.Counts δ b.start (p + 1) = 0 :=
      total_first_arm (t := { b with stop := some p, sibling := some s.branches.length })
        (hopened ▸ List.mem_cons_self) hsplit rfl rfl hzero
    have hbut : total (s'.CountsBut c) δ 0 p = total s.Counts δ 0 p := by
      rw [hs']
      exact total_congr fun i _ _ => countsBut_splits hs ho hb hfirst i
    refine ⟨hs' ▸ hs.step (.splits ho hb hfirst), ?_, ?_, ?_⟩
    · have hadd := total_add (P := s'.Counts) (δ := δ) (Nat.zero_le b.start)
        (Nat.le_succ_of_le hle)
      rw [hinside, add_zero] at hadd
      rw [hbefore, hadd]
    · rw [hopened]
      refine .cons ?_ ?_
      · rw [ha.now, ← hbut, hbefore]
        refine .second (t := { b with stop := some p, sibling := some s.branches.length })
          hnew rfl rfl
          hsplit rfl hzero ?_
        have hadd := total_add (P := s.Counts) (δ := δ) (Nat.zero_le b.start) hle
        rw [hbut, ← hbefore, ← hadd, harmTotal, add_sub_cancel_left]
        exact total_congr fun i hlo _ => (hs.counts_iff_not_inner ho hb hlo).symm
      · refine levels_congr hrest hls (hs' ▸ keeps_splits hs ho hb) (fun k i hi => ?_)
          fun _ t _ => harmTotal t
        rw [hdrops, or_iff_left]
        omega
    · intro k d e hd htrue' he
      rcases (hlook k d).mp hd with ⟨t, ht, rfl⟩ | ⟨-, rfl⟩
      · have hk : k ≠ c := by
          rintro rfl
          cases hb.symm.trans ht
          cases hend.symm.trans he
        simp only [if_neg hk]
        exact ended_splits ha hb hfirst ht htrue' he hs'
      · cases he

private theorem ended_closes (ho : s.opened = c :: cs) (hb : s.branches[c]? = some b) {e : Nat}
    (ht : s.branches[k]? = some t) (htrue : t.isTrue = true) (he : t.endIf = some e)
    (hs' : s' = { branches := closeAt s.branches c p b, opened := cs }) :
    ends e (s'.armTotal δ t) (s'.partnerTotal δ t) := by
  have hs := ha.sound
  obtain ⟨first, hstop, -, -, -, harm, -⟩ := hs.innermost ho hb
  have harmTotal (k : Nat) (t : Branch) (ht : s.branches[k]? = some t) :
      s'.armTotal δ t = s.armTotal δ t := by
    rw [hs']
    exact armTotal_closes hs ho hb ht
  have hkept (j : Nat) (d : Branch) (hj : t.sibling = some j) (hd : s.branches[j]? = some d) :
      s'.branches[j]? = some d := by
    obtain ⟨d', hd', hfalse, hback⟩ := hs.linked k t j ht htrue hj
    cases hd.symm.trans hd'
    rw [hs']
    refine (lookup_close hb (harm.sibling_ne_open hb hstop) j d).mpr ⟨d, hd, ?_⟩
    -- the arm that ends is no arm of a conditional that ended before
    cases harm with
    | first htrue' hnone =>
      have hjc : j ≠ c := by
        rintro rfl
        cases hb.symm.trans hd
        cases hfalse.symm.trans htrue'
      simp [hjc, hnone]
    | second _ hsome ht' htrue' _ hend =>
      have hjc : j ≠ c := by
        rintro rfl
        cases hb.symm.trans hd
        cases hback.symm.trans hsome
        cases ht.symm.trans ht'
        cases hend.symm.trans he
      have hjk : b.sibling ≠ some j := by
        intro hj'
        cases hsome.symm.trans hj'
        cases hd.symm.trans ht'
        cases hfalse.symm.trans htrue'
      simp [hjc, hjk]
  rw [harmTotal k t ht, partnerTotal_congr hkept
    (fun j hj => (hs.linked k t j ht htrue hj).imp fun _ hd => hd.1) harmTotal]
  exact ha.ended k t e ht htrue he

end

private theorem armTotal_closed (hs : s.Sound p) (ho : s.opened = c :: cs)
    (hb : s.branches[c]? = some b)
    (hs' : s' = { branches := closeAt s.branches c p b, opened := cs }) :
    s'.armTotal δ { b with stop := some p, endIf := some p } = total s.Counts δ b.start p := by
  refine total_congr fun i hlo _ => ?_
  rw [hs.counts_iff_not_inner ho hb hlo, hs', inner_closes hs ho hb, or_iff_left]
  exact fun hlt => absurd hlt.1 (Nat.lt_irrefl _)

variable (ha : Agrees ends δ base p s h)

include ha

section

variable (ho : s.opened = c :: cs) (hb : s.branches[c]? = some b) (heq : h.levels = l :: ls)
  (hs' : s' = { branches := closeAt s.branches c p b, opened := cs })

include ho hb heq hs'

private theorem levels_closes : List.Forall₂ (s'.LevelAt δ base) s'.opened ls := by
  have hs := ha.sound
  obtain ⟨first, -, -, -, -, harm, hrest⟩ := hs.innermost ho hb
  have hlevels := ha.levels
  rw [ho, heq] at hlevels
  rw [show s'.opened = cs by rw [hs']]
  refine levels_congr hrest (List.forall₂_cons.mp hlevels).2 (hs' ▸ keeps_closes hs ho hb) ?_
    fun _ t ht => hs' ▸ armTotal_closes hs ho hb ht
  intro k i hi
  have hlt : ¬ b.start ≤ i := Nat.not_le.mpr (Nat.lt_of_lt_of_le hi harm.le_start)
  rw [hs', drops_closes hs ho hb, or_iff_right fun hk => hlt hk.2.2.1, and_iff_right_iff_imp]
  rintro ⟨t, ht, hcont, -⟩ hk
  -- the partner of the arm starts with the conditional
  obtain ⟨x, -, hlo, -⟩ := (contains_iff t i).mp hcont
  cases harm with
  | first _ hnone => cases hk.symm.trans hnone
  | second _ hsome ht' =>
    cases hk.symm.trans hsome
    cases ht.symm.trans ht'
    omega

variable (hzero : δ p = 0)
  (hends : ends p (l.arm.getD h.now - l.entry) ((l.arm.map fun _ => h.now - l.entry).getD 0))

include hzero hends

private theorem agrees_closes_first (hfirst : b.isTrue = true) :
    Agrees ends δ base (p + 1) s' { now := l.arm.getD h.now, levels := ls } := by
  have hs := ha.sound
  obtain ⟨first, hstop, -, -, hle, harm, -⟩ := hs.innermost ho hb
  have hlook := lookup_close (i := p) hb (harm.sibling_ne_open hb hstop)
  rw [← show s'.branches = closeAt s.branches c p b by rw [hs']] at hlook
  obtain ⟨-, hnone⟩ := harm.of_isTrue hfirst
  have hlevels := ha.levels
  rw [ho, heq] at hlevels
  obtain ⟨entry, hentry, rfl⟩ : ∃ entry, entry = base + total s.Counts δ 0 b.start ∧
      l = { entry } := by
    cases (List.forall₂_cons.mp hlevels).1 with
    | first hb' =>
      cases hb.symm.trans hb'
      exact ⟨_, rfl, rfl⟩
    | second hb' hfalse =>
      cases hb.symm.trans hb'
      cases hfirst.symm.trans hfalse
  refine ⟨hs' ▸ hs.step (.closes ho hb), ?_, levels_closes ha ho hb heq hs', ?_⟩
  · -- a first arm that ends still counts
    have hcounts (i : Nat) : s'.Counts i ↔ s.Counts i := by
      refine forall_congr' fun k => not_congr ?_
      rw [hs', drops_closes hs ho hb, hnone, hfirst]
      simp
    rw [total_congr fun i _ _ => hcounts i, total_succ (Nat.zero_le p) hs.counts_here, hzero,
      add_zero]
    exact ha.now
  · intro k d e hd htrue he
    obtain ⟨t, ht, rfl⟩ := (hlook k d).mp hd
    by_cases hk : k = c
    · subst hk
      cases hb.symm.trans ht
      cases (if_pos (.inl rfl)).symm.trans he
      simp only [if_true, true_or] at hd ⊢
      rw [armTotal_closed hs ho hb hs', partnerTotal]
      have hsplit := total_add (P := s.Counts) (δ := δ) (Nat.zero_le b.start) hle
      have hnow := ha.now
      convert hends using 1
      · simp only [Option.getD_none]
        omega
      · simp [hnone]
    · have hkb : b.sibling ≠ some k := by simp [hnone]
      simp only [if_neg hk, if_neg (not_or.mpr ⟨hk, hkb⟩)] at he ⊢
      exact ended_closes ha ho hb ht htrue he hs'

private theorem agrees_closes_second (hsecond : b.isTrue = false) :
    Agrees ends δ base (p + 1) s' { now := l.arm.getD h.now, levels := ls } := by
  have hs := ha.sound
  obtain ⟨first, hstop, -, -, hle, harm, -⟩ := hs.innermost ho hb
  have hlook := lookup_close (i := p) hb (harm.sibling_ne_open hb hstop)
  rw [← show s'.branches = closeAt s.branches c p b by rw [hs']] at hlook
  have hlevels := ha.levels
  rw [ho, heq] at hlevels
  cases harm with
  | first htrue => cases hsecond.symm.trans htrue
  | @second k x t _ hsib ht htrue hx hend hback hstart hlex =>
  obtain ⟨rfl, hzero', hadds⟩ : l =
      { entry := base + total s.Counts δ 0 t.start
        arm := some (base + total (s.CountsBut k) δ 0 x) } ∧ δ x = 0 ∧
      s.armTotal δ t = total (s.CountsBut k) δ 0 x - total s.Counts δ 0 t.start := by
    cases (List.forall₂_cons.mp hlevels).1 with
    | first hb' htrue' =>
      cases hb.symm.trans hb'
      cases hsecond.symm.trans htrue'
    | second hb' _ hsib' ht' hx' hzero' hadds =>
      cases hb.symm.trans hb'
      cases hsib.symm.trans hsib'
      cases ht.symm.trans ht'
      cases hx.symm.trans hx'
      exact ⟨rfl, hzero', hadds⟩
  have hdrops (j i : Nat) : s'.Drops j i ↔
      (j = c ∧ b.start ≤ i ∧ i < p) ∨ (j ≠ k ∧ s.Drops j i) := by
    rw [hs', drops_closes hs ho hb, hsib, hsecond]
    simp [eq_comm]
  refine ⟨hs' ▸ hs.step (.closes ho hb), ?_, levels_closes ha ho hb heq hs', ?_⟩
  · -- the first arm counts again, and the second one does not
    have hbefore : total s'.Counts δ 0 x = total (s.CountsBut k) δ 0 x := by
      refine total_congr fun i _ hi => forall_congr' fun j => ?_
      rw [hdrops, or_iff_right fun hj => by omega, not_and]
    have hafter : total s'.Counts δ x (p + 1) = 0 := by
      refine total_eq_zero fun i hlo hhi hcounts => ?_
      rcases Nat.eq_or_lt_of_le hlo with rfl | hlo
      · exact hzero'
      · by_cases hi : i < p
        · exact absurd ((hdrops c i).mpr (.inl ⟨rfl, by omega, hi⟩)) (hcounts c)
        · rw [show i = p by omega, hzero]
    rw [← total_add (Nat.zero_le x) (show x ≤ p + 1 by omega), hbefore, hafter, add_zero]
    rfl
  · intro k' d e hd htrue' he
    obtain ⟨t', ht', rfl⟩ := (hlook k' d).mp hd
    by_cases hkc : k' = c
    · subst hkc
      cases hb.symm.trans ht'
      cases hsecond.symm.trans htrue'
    by_cases hkk : b.sibling = some k'
    · cases hsib.symm.trans hkk
      cases ht.symm.trans ht'
      cases (if_pos (.inr hsib)).symm.trans he
      have hc' := (hlook c _).mpr ⟨b, hb, rfl⟩
      rw [if_pos rfl, if_pos (.inl rfl)] at hc'
      have hinside : total s.Counts δ t.start b.start = 0 := by
        rw [hstart]
        exact total_first_arm (ho ▸ .head _) ht hx hback hzero'
      have hsplit₁ := total_add (P := s.Counts) (δ := δ) (Nat.zero_le t.start)
        (show t.start ≤ b.start by omega)
      have hsplit₂ := total_add (P := s.Counts) (δ := δ) (Nat.zero_le b.start) hle
      have hnow := ha.now
      convert hends using 1
      · simp only [if_neg hkc]
        change s'.armTotal δ t = _
        rw [hs', armTotal_closes hs ho hb ht, hadds]
        simp only [Option.getD_some]
        omega
      · rw [partnerTotal]
        simp only [hback, Option.bind_some, hc', Option.map_some, Option.getD_some,
          armTotal_closed hs ho hb hs']
        omega
    · simp only [if_neg hkc, if_neg (not_or.mpr ⟨hkc, hkk⟩)] at he ⊢
      exact ended_closes ha ho hb ht' htrue' he hs'

end

/-- Heights agree with a scan after a step if they did before; they go on exactly where it does. -/
theorem Agrees.step (st : Step) (hδ : δ p = st.delta)
    (hzero : st.instr = .op .opElse ∨ st.instr = .op .opEndIf → st.delta = 0)
    (hends : st.instr = .op .opEndIf → ∀ l ls, h.levels = l :: ls →
      ends p (l.arm.getD h.now - l.entry) ((l.arm.map fun _ => h.now - l.entry).getD 0)) :
    match s.step p st.instr, h.step st with
    | .ok s', some h' => Agrees ends δ base (p + 1) s' h'
    | .error _, none => True
    | _, _ => False := by
  obtain ⟨instr, delta, args, multisig, shared⟩ := st
  simp only at hδ hzero hends
  subst hδ
  have hpass (hm : ∀ o, instr = .op o → o.isMarker = false) :
      Agrees ends δ base (p + 1) s { h with now := h.now + δ p } := agrees_pass ha (.pass hm)
  cases instr with
  | op o =>
    cases o with
    | opIf => exact agrees_opens ha (.inl rfl)
    | opNotIf => exact agrees_opens ha (.inr rfl)
    | opElse =>
      have hlevels := ha.levels
      cases ho : s.opened with
      | nil =>
        rw [ho] at hlevels
        simp only [Scan.step, Heights.step, splitArm, ho, List.forall₂_nil_left_iff.mp hlevels]
      | cons c cs =>
        obtain ⟨b, _, hb, -⟩ := ha.sound.chain.mem (ho ▸ List.mem_cons_self)
        by_cases hfirst : b.isTrue = true
        · obtain ⟨entry, ls, heq, hagrees⟩ := agrees_splits ha ho hb hfirst (hzero (.inl rfl)) rfl
          simp only [Scan.step, Heights.step, splitArm, ho, hb, if_pos hfirst, heq]
          exact hagrees
        · rw [ho] at hlevels
          obtain ⟨l, ls, hl, -, heq⟩ := List.forall₂_cons_left_iff.mp hlevels
          cases hl with
          | first hb' htrue =>
            cases hb.symm.trans hb'
            exact absurd htrue hfirst
          | second => simp only [Scan.step, Heights.step, splitArm, ho, hb, if_neg hfirst, heq]
    | opEndIf =>
      have hlevels := ha.levels
      cases ho : s.opened with
      | nil =>
        rw [ho] at hlevels
        simp only [Scan.step, Heights.step, closeArm, ho, List.forall₂_nil_left_iff.mp hlevels]
      | cons c cs =>
        obtain ⟨b, _, hb, -⟩ := ha.sound.chain.mem (ho ▸ List.mem_cons_self)
        rw [ho] at hlevels
        obtain ⟨l, ls, -, -, heq⟩ := List.forall₂_cons_left_iff.mp hlevels
        simp only [Scan.step, Heights.step, closeArm, ho, hb, heq]
        have hends' := hends rfl l ls heq
        rcases Bool.eq_false_or_eq_true b.isTrue with hfirst | hfirst
        · exact agrees_closes_first ha ho hb heq rfl (hzero (.inr rfl)) hends' hfirst
        · exact agrees_closes_second ha ho hb heq rfl (hzero (.inr rfl)) hends' hfirst
    | _ => exact hpass fun o ho => by cases ho; rfl
  | _ => exact hpass nofun

end NamedStack.Branch.Scan
