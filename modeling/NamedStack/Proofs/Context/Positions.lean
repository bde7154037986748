import NamedStack.Proofs.Context.Contents
import NamedStack.Proofs.Context.Heights
import NamedStack.Proofs.Context.Later

/-!
# What a context says at a position

The height in front of a position, as a context computes it from its branches, is the height
followed from the left, and the position lies in no arm exactly if no conditional is open there.
-/

namespace NamedStack

open Branch (Scan)
open Branch.Scan (contains_iff)

/-- The number of items that the step at a position adds. -/
def deltaAt (steps : List Step) (i : Nat) : Int := ((steps[i]?).map (·.delta)).getD 0

/-! ### Heights over a whole program -/

namespace Heights

/-- The first step, and then the rest. -/
theorem run_cons (h : Heights) (s : Step) (rest : List Step) :
    h.run (s :: rest) = (h.step s).bind fun h => h.run rest := rfl

private theorem run_singleton (h : Heights) (s : Step) : h.run [s] = h.step s := by
  rw [run_cons]
  cases h.step s <;> rfl

/-- Steps, and then others. -/
theorem run_append (h : Heights) (front back : List Step) :
    h.run (front ++ back) = (h.run front).bind fun h => h.run back :=
  List.foldlM_append

end Heights

namespace Branch.Scan

variable {ends : Nat → Int → Int → Prop} {δ : Nat → Int} {base : Int} {p : Nat} {s : Scan}
  {h : Heights}

/-- A height agrees at the start. -/
theorem agrees_start (ends : Nat → Int → Int → Prop) (δ : Nat → Int) (base : Int) :
    Agrees ends δ base 0 {} { now := base } where
  sound := sound_nil
  now := by simp [total]
  levels := .nil
  ended := by simp

/-- A scan and the heights of a program go on together. -/
theorem Agrees.run (ha : Agrees ends δ base p s h) (steps : List Step)
    (hδ : ∀ i st, steps[i]? = some st → δ (p + i) = st.delta) (hzero : EndsFree steps)
    (hends : ∀ front st back h₁ l ls, steps = front ++ st :: back → st.instr = .op .opEndIf →
      h.run front = some h₁ → h₁.levels = l :: ls →
        ends (p + front.length) (l.arm.getD h₁.now - l.entry)
          ((l.arm.map fun _ => h₁.now - l.entry).getD 0)) :
    match s.run p (Step.instrs steps), h.run steps with
    | .ok s', some h' => Agrees ends δ base (p + steps.length) s' h'
    | .error _, none => True
    | _, _ => False := by
  induction steps generalizing p s h with
  | nil => exact ha
  | cons st rest ih =>
    have hstep := ha.step st (hδ 0 st rfl) (hzero st (.head _)) fun hinstr l ls hl =>
      hends [] st rest h l ls rfl hinstr rfl hl
    rw [Heights.run_cons, Step.instrs, List.map_cons, Scan.run]
    revert hstep
    cases s.step p st.instr with
    | error e =>
      cases h.step st with
      | none => exact id
      | some h' => exact False.elim
    | ok s' =>
      cases hh : h.step st with
      | none => exact False.elim
      | some h' =>
        intro ha'
        have hrest :=
          ih ha' (fun i st' hi => by rw [← hδ (i + 1) st' hi, Nat.add_assoc, Nat.add_comm 1])
          (fun st' hst' => hzero st' (.tail _ hst')) fun front st' back h₁ l ls heq hinstr
            hrun hl => by
            have := hends (st :: front) st' back h₁ l ls (by rw [heq]; rfl) hinstr
              (by rw [Heights.run_cons, hh]; exact hrun) hl
            rwa [List.length_cons, Nat.add_comm front.length, ← Nat.add_assoc] at this
        rw [List.length_cons, Nat.add_comm rest.length, ← Nat.add_assoc]
        exact hrest

/-- What came of the arms that a scan knew in front of a position, once all arms have ended. Those
that were open contain the position, or are first arms that end there and whose partner comes after
it; those that were over are as they were, and no other one reaches up to the position. -/
structure Final (s sf : Scan) (i : Nat) : Prop where
  opened : ∀ (k : Nat) (b : Branch), s.branches[k]? = some b → b.stop = none →
    ∃ b' : Branch, sf.branches[k]? = some b' ∧ b'.isTrue = b.isTrue ∧
      (b'.contains i = true ∨ b'.isTrue = true ∧
        ∀ m t, b'.sibling = some m → sf.branches[m]? = some t → ¬ t.contains i = true)
  stopped : ∀ (k : Nat) (b : Branch) (x : Nat), s.branches[k]? = some b → b.stop = some x →
    ∃ b' : Branch, sf.branches[k]? = some b' ∧ ¬ b'.contains i = true ∧
      (∀ j, b'.contains j = b.contains j) ∧ b'.isTrue = b.isTrue ∧ b'.sibling = b.sibling
  new : ∀ (k : Nat) (b' : Branch) (j : Nat), s.branches[k]? = none → sf.branches[k]? = some b' →
    j ≤ i → ¬ b'.contains j = true

section

variable {sf : Scan} {i n : Nat}

private theorem Sound.start_le (hs : Sound s i) {k : Nat} {b : Branch}
    (hb : s.branches[k]? = some b) (hstop : b.stop = none) : b.start ≤ i := by
  obtain ⟨_, _, hb₀, -, -, -, hle, -⟩ := hs.chain.mem (hs.unstopped k b hb hstop)
  cases hb.symm.trans hb₀
  exact hle

private theorem Later.contains (hf : Sound sf n) (hopen : sf.opened = []) (hl : Later (i + 1) s sf)
    {k : Nat} {b : Branch} (hb : s.branches[k]? = some b) (hstop : b.stop = none)
    (hle : b.start ≤ i) :
    ∃ b' : Branch, sf.branches[k]? = some b' ∧ b'.isTrue = b.isTrue ∧ b'.nest = b.nest ∧
      b'.contains i = true := by
  obtain ⟨b', hb', htrue, hstart, hnest, -, hlate⟩ := hl.kept k b hb
  cases hx : b'.stop with
  | none =>
    have hmem := hf.unstopped k b' hb' hx
    rw [hopen] at hmem
    cases hmem
  | some x =>
    refine ⟨b', hb', htrue, hnest, (contains_iff b' i).mpr ⟨x, hx, ?_, hlate hstop x hx⟩⟩
    rw [hstart]
    exact hle

private theorem Moves.final {u : Scan} {instr : Instr} (hs : Sound s i) (hm : Moves s i instr u)
    (hl : Later (i + 1) u sf) (hf : Sound sf n) (hopen : sf.opened = [])
    (hsecond : instr = .op .opEndIf → ∀ b ∈ sf.branches, b.isTrue = false → b.stop ≠ some i) :
    Final s sf i := by
  have hnew {k : Nat} {b' : Branch} {j : Nat} (hnone : s.branches[k]? = none)
      (hb' : sf.branches[k]? = some b') (hj : j ≤ i) : ¬ b'.contains j = true := by
    intro hcont
    obtain ⟨x, -, hlo, -⟩ := (contains_iff b' j).mp hcont
    cases hu : u.branches[k]? with
    | none =>
      have := hl.new k b' hu hb'
      omega
    | some d =>
      obtain ⟨_, hd, -, hstart, -⟩ := hl.kept k d hu
      cases hd.symm.trans hb'
      have := hm.start_of_new hnone hu
      omega
  constructor
  · intro k b hb hstop
    rcases hm.open_cases hs hb hstop with hu | ⟨d, hd, hx, htrue, hsib, hend⟩
    · obtain ⟨b', hb', htrue, -, hcont⟩ := hl.contains hf hopen hu hstop (hs.start_le hb hstop)
      exact ⟨b', hb', htrue, .inl hcont⟩
    · obtain ⟨b', hb', htrue', -, -, hkept, -⟩ := hl.kept k d hd
      obtain ⟨hx', hsib'⟩ := hkept i hx
      cases hfirst : d.isTrue with
      | false =>
        have hne := hsecond (hend hfirst) b' (List.mem_of_getElem? hb') (htrue'.trans hfirst)
        exact absurd hx' hne
      | true =>
        refine ⟨b', hb', htrue'.trans htrue, .inr ⟨htrue'.trans hfirst, ?_⟩⟩
        intro m t hpartner ht
        rw [hsib'] at hpartner
        exact hnew (hsib hfirst m hpartner) ht (Nat.le_refl i)
  · intro k b x hb hx
    obtain ⟨b', hb', htrue, hstart, -, hkept, -⟩ :=
      ((Later.of_moves hs hm (Nat.le_refl i)).trans (hl.mono (Nat.le_succ i))).kept k b hb
    obtain ⟨hx', hsib⟩ := hkept x hx
    refine ⟨b', hb', ?_, fun j => ?_, htrue, hsib⟩
    · rw [contains_iff]
      rintro ⟨y, hy, -, hlt⟩
      cases hx'.symm.trans hy
      have := hs.stopped k b x hb hx
      omega
    · simp only [Branch.contains, hx, hx', hstart]
  · exact fun k b' j hnone hb' hj => hnew hnone hb' hj

private theorem Sound.final (hs : Sound s i) (hopen : s.opened = []) : Final s s i := by
  constructor
  · intro k b hb hstop
    have hmem := hs.unstopped k b hb hstop
    rw [hopen] at hmem
    cases hmem
  · intro k b x hb hx
    refine ⟨b, hb, ?_, fun _ => rfl, rfl, rfl⟩
    rw [contains_iff]
    rintro ⟨y, hy, -, hlt⟩
    cases hx.symm.trans hy
    have := hs.stopped k b x hb hx
    omega
  · intro k b' j hnone hb'
    cases hnone.symm.trans hb'

end

end Branch.Scan

/-- The branches of a program are those that a scan leaves when no arm is open any more. -/
theorem Branch.ofInstrs_eq_ok_iff (ops : List Instr) (bs : List Branch) :
    Branch.ofInstrs ops = .ok bs ↔
      ∃ s : Scan, Scan.run {} 0 ops = .ok s ∧ s.opened = [] ∧ s.branches = bs := by
  unfold Branch.ofInstrs
  cases hr : Scan.run {} 0 ops with
  | error e => simp [bind, Except.bind]
  | ok s =>
    cases ho : s.opened with
    | nil => simp [bind, Except.bind, ho, pure, Except.pure]
    | cons c cs => simp [bind, Except.bind, ho]

namespace Context

variable {ctx : Context}

private theorem counts_eq_true_iff (ctx : Context) (j i : Nat) :
    ctx.counts j i = true ↔ ∀ (k : Nat) (b : Branch), ctx.branches[k]? = some b →
      b.contains j = true → ¬ b.contains i = true →
        b.isTrue = true ∧ ∀ m t, b.sibling = some m → ctx.branches[m]? = some t →
          ¬ t.contains i = true := by
  have hpartner (b : Branch) :
      (b.sibling >>= (ctx.branches[·]?)).any (fun t => t.contains i) = false ↔
        ∀ m t, b.sibling = some m → ctx.branches[m]? = some t → ¬ t.contains i = true := by
    cases b.sibling with
    | none => simp
    | some m =>
      rw [show (some m >>= (ctx.branches[·]?)) = ctx.branches[m]? from rfl,
        Option.any_eq_false_iff_get]
      constructor
      · intro h m' t hm ht hcont
        cases hm
        simp [ht, hcont] at h
      · intro h hsome
        obtain ⟨t, ht⟩ := Option.isSome_iff_exists.mp hsome
        have := h m t rfl ht
        simpa [ht] using this
  unfold counts
  rw [List.all_eq_true]
  constructor
  · intro h k b hb hj hi
    have hb' := h b (List.mem_of_getElem? hb)
    rw [hj, Bool.eq_false_of_not_eq_true hi, Bool.not_true, Bool.false_or, Bool.false_or,
      Bool.and_eq_true, Bool.not_eq_true', hpartner] at hb'
    exact hb'
  · intro h b hb
    obtain ⟨k, hk⟩ := List.mem_iff_getElem?.mp hb
    by_cases hj : b.contains j = true
    · by_cases hi : b.contains i = true
      · simp [hi]
      · obtain ⟨htrue, hsib⟩ := h k b hk hj hi
        rw [htrue, (hpartner b).mpr hsib]
        simp
    · simp [hj]

variable {i : Nat} {st : Step} {h : Heights} {base : Int}

private theorem counts_iff {s sf : Scan} {j : Nat} (hs : s.Sound i) (hf : Scan.Final s sf i)
    (hbr : ctx.branches = sf.branches) (hj : j < i) : ctx.counts j i = true ↔ s.Counts j := by
  rw [counts_eq_true_iff, hbr]
  constructor
  · rintro h k ⟨b, hb, hcont, hsib⟩
    obtain ⟨x, hx, -⟩ := (contains_iff b j).mp hcont
    obtain ⟨b', hb', hi, hsame, htrue, hsib'⟩ := hf.stopped k b x hb hx
    obtain ⟨htrue', hpartner⟩ := h k b' hb' ((hsame j).trans hcont) hi
    obtain ⟨m, hm, hsib⟩ := hsib (htrue ▸ htrue')
    obtain ⟨t, _, ht, hstop, -⟩ := hs.chain.mem hm
    obtain ⟨t', ht', hsame', hcont' | ⟨hfirst, -⟩⟩ := hf.opened m t ht hstop
    · exact hpartner m t' (hsib'.trans hsib) ht' hcont'
    · -- the partner of a first arm is a second one
      obtain ⟨d, hd, hfalse, -⟩ := hs.linked k b m hb (htrue ▸ htrue') hsib
      cases ht.symm.trans hd
      cases hfalse.symm.trans (hsame'.symm.trans hfirst)
  · intro h k b' hb' hcont hi
    cases hb : s.branches[k]? with
    | none => exact absurd hcont (hf.new k b' j hb hb' (Nat.le_of_lt hj))
    | some b =>
      cases hx : b.stop with
      | none =>
        obtain ⟨d, hd, -, hcases⟩ := hf.opened k b hb hx
        cases hb'.symm.trans hd
        exact hcases.resolve_left hi
      | some x =>
        obtain ⟨d, hd, -, hsame, htrue, hsib⟩ := hf.stopped k b x hb hx
        cases hb'.symm.trans hd
        have hdrop : ¬ (b.isTrue = true → ∃ m ∈ s.opened, b.sibling = some m) :=
          fun hsib => h k ⟨b, hb, (hsame j).symm.trans hcont, hsib⟩
        rw [Classical.not_imp] at hdrop
        refine ⟨htrue.trans hdrop.1, fun m t' hm ht' hcont' => hdrop.2 ⟨m, ?_, hsib ▸ hm⟩⟩
        -- a partner that contains the position was open there
        cases ht : s.branches[m]? with
        | none => exact absurd hcont' (hf.new m t' i ht ht' (Nat.le_refl i))
        | some t =>
          cases hy : t.stop with
          | none => exact hs.unstopped m t ht hy
          | some y =>
            obtain ⟨d, hd, hnot, -⟩ := hf.stopped m t y ht hy
            cases ht'.symm.trans hd
            exact absurd hcont' hnot

private theorem deltaAt_take (steps : List Step) (i : Nat) {j : Nat}
    (hj : (steps.take i)[j]? = some st) : deltaAt steps (0 + j) = st.delta := by
  rw [List.getElem?_take] at hj
  split at hj
  · rw [Nat.zero_add, deltaAt, hj]
    rfl
  · cases hj

/-- The steps that a test admits add up to a total over their positions. -/
theorem foldr_eq_total (f : Nat → Bool) {δ : Nat → Int} (steps : List Step) (n : Nat)
    (hδ : ∀ i st, steps[i]? = some st → δ (n + i) = st.delta) :
    ((steps.zipIdx n).filterMap fun p => if f p.2 then some p.1.delta else none).foldr (· + ·) 0 =
      total (fun i => f i = true) δ n (n + steps.length) := by
  induction steps generalizing n with
  | nil => simp [total]
  | cons st rest ih =>
    have hrest :=
      ih (n + 1) fun i st' hi => by rw [← hδ (i + 1) st' hi, Nat.add_assoc, Nat.add_comm 1]
    have hhead : δ n = st.delta := hδ 0 st rfl
    rw [total, List.length_cons, Finset.sum_eq_sum_Ico_succ_bot (by omega),
      show n + (rest.length + 1) = n + 1 + rest.length by omega, List.zipIdx_cons]
    by_cases hf : f n = true
    · rw [List.filterMap_cons_some (b := st.delta) (by simp [hf]), List.foldr_cons, hrest,
        if_pos hf, hhead]
      rfl
    · rw [List.filterMap_cons_none (by simp [hf]), hrest, if_neg hf, zero_add]
      rfl

private theorem foldl_max_eq_zero_iff (bs : List Branch) (n : Nat) :
    bs.foldl (fun n b => max n b.nest) n = 0 ↔ n = 0 ∧ ∀ b ∈ bs, b.nest = 0 := by
  induction bs generalizing n with
  | nil => simp
  | cons b bs ih =>
    rw [List.foldl_cons, ih, List.forall_mem_cons, Nat.max_eq_zero_iff, and_assoc]

variable (hbr : Branch.ofInstrs (Step.instrs ctx.steps) = .ok ctx.branches)
  (hzero : EndsFree ctx.steps)

include hbr hzero

private theorem exists_scans (base : Int) (hi : i ≤ ctx.steps.length) :
    ∃ (h : Heights) (s sf : Scan), Heights.run { now := base } (ctx.steps.take i) = some h ∧
      Scan.Agrees (fun _ _ _ => True) (deltaAt ctx.steps) base i s h ∧ sf.Sound ctx.steps.length ∧
      sf.opened = [] ∧ ctx.branches = sf.branches ∧
      (i = ctx.steps.length ∧ s = sf ∨ ∃ st u, ctx.steps[i]? = some st ∧
        Scan.Moves s i st.instr u ∧ Scan.Later (i + 1) u sf) := by
  obtain ⟨sf, hsf, hopen, hbs⟩ := (Branch.ofInstrs_eq_ok_iff _ _).mp hbr
  have hlen : (ctx.steps.take i).length = i := List.length_take_of_le hi
  have hsplit : Step.instrs ctx.steps = Step.instrs (ctx.steps.take i) ++
      Step.instrs (ctx.steps.drop i) := by
    rw [Step.instrs, Step.instrs, Step.instrs, ← List.map_append, List.take_append_drop]
  have hsound := (Scan.sound_nil.run hsf).1
  rw [Step.instrs, List.length_map, Nat.zero_add] at hsound
  rw [hsplit] at hsf
  obtain ⟨s, hs, hrest⟩ := (Scan.run_append_iff _ _ _ _ _).mp hsf
  rw [Step.instrs, List.length_map, hlen, Nat.zero_add] at hrest
  have hagrees := (Scan.agrees_start (fun _ _ _ => True) (deltaAt ctx.steps) base).run
    (ctx.steps.take i) (fun _ _ => deltaAt_take _ i)
    (fun st hst => hzero st (List.mem_of_mem_take hst)) (fun _ _ _ _ _ _ _ _ _ _ => trivial)
  rw [hs, hlen, Nat.zero_add] at hagrees
  cases hrun : Heights.run { now := base } (ctx.steps.take i) with
  | none =>
    rw [hrun] at hagrees
    exact hagrees.elim
  | some h =>
    rw [hrun] at hagrees
    refine ⟨h, s, sf, rfl, hagrees, hsound, hopen, hbs.symm, ?_⟩
    rcases Nat.eq_or_lt_of_le hi with rfl | hlt
    · rw [List.drop_length] at hrest
      cases hrest
      exact .inl ⟨rfl, rfl⟩
    · rw [List.drop_eq_getElem_cons hlt, Step.instrs, List.map_cons, Scan.run_cons_iff] at hrest
      obtain ⟨u, hu, hrest⟩ := hrest
      have hmoves := Scan.moves_of_step hu
      exact .inr ⟨_, u, List.getElem?_eq_getElem hlt, hmoves,
        ((hagrees.sound.step hmoves).run hrest).2⟩

/-- A program with branches can be followed from the left. -/
theorem exists_heights (base : Int) (hi : i ≤ ctx.steps.length) :
    ∃ h, Heights.run { now := base } (ctx.steps.take i) = some h := by
  obtain ⟨h, -, -, hrun, -⟩ := exists_scans hbr hzero base hi
  exact ⟨h, hrun⟩

/-- What every step keeps, as the heights are followed from the left, holds in front of every
position. -/
theorem heights_induction (base : Int) {P : Nat → Heights → Prop} (hstart : P 0 { now := base })
    (hstep : ∀ (i : Nat) (s : Step) (h h' : Heights), ctx.steps[i]? = some s →
      Heights.run { now := base } (ctx.steps.take i) = some h → h.Moves s h' → P i h →
        P (i + 1) h') (hi : i ≤ ctx.steps.length) :
    ∃ h, Heights.run { now := base } (ctx.steps.take i) = some h ∧ P i h := by
  induction i with
  | zero => exact ⟨_, rfl, hstart⟩
  | succ i ih =>
    obtain ⟨h, hrun, hP⟩ := ih (Nat.le_of_succ_le hi)
    obtain ⟨h', hrun'⟩ := exists_heights hbr hzero base hi
    have hget : ctx.steps[i]? = some ctx.steps[i] := List.getElem?_eq_getElem hi
    have hmoves : h.Moves ctx.steps[i] h' := by
      apply Heights.moves_of_step
      rw [List.take_succ_eq_append_getElem hi, Heights.run_append, hrun] at hrun'
      exact (Heights.run_singleton h _).symm.trans hrun'
    exact ⟨h', hrun', hstep i _ h h' hget hrun hmoves hP⟩

/-- The height of a context is the height followed from the left, except in front of the end of a
second arm. -/
theorem heightAt_eq (hi : i ≤ ctx.steps.length)
    (hend : ∀ st, ctx.steps[i]? = some st → st.instr = .op .opEndIf →
      ∀ b ∈ ctx.branches, b.isTrue = false → b.stop ≠ some i)
    (hrun : Heights.run { now := ctx.stack.length } (ctx.steps.take i) = some h) :
    ctx.heightAt i = h.now := by
  obtain ⟨h', s, sf, hrun', hagrees, hsound, hopen, hbs, hrest⟩ :=
    exists_scans hbr hzero ctx.stack.length hi
  cases hrun.symm.trans hrun'
  have hfinal : Scan.Final s sf i := by
    rcases hrest with ⟨-, rfl⟩ | ⟨st, u, hst, hmoves, hlater⟩
    · exact hagrees.sound.final hopen
    · refine hmoves.final hagrees.sound hlater hsound hopen fun hinstr => ?_
      rw [← hbs]
      exact hend st hst hinstr
  have hlen : (ctx.steps.take i).length = i := List.length_take_of_le hi
  rw [heightAt, hagrees.now, foldr_eq_total (δ := deltaAt ctx.steps) (fun j => ctx.counts j i) _ 0
    (fun _ _ => deltaAt_take _ i), hlen, Nat.zero_add]
  apply congrArg
  apply total_congr
  intro j _ hj
  exact counts_iff hagrees.sound hfinal hbs hj

private theorem exists_final
    (hst : ctx.steps[i]? = some st) (helse : st.instr ≠ .op .opElse)
    (hend : st.instr ≠ .op .opEndIf)
    (hrun : Heights.run { now := base } (ctx.steps.take i) = some h) :
    ∃ s sf : Scan, s.Sound i ∧ (h.levels = [] ↔ s.opened = []) ∧ sf.Sound ctx.steps.length ∧
      sf.opened = [] ∧ ctx.branches = sf.branches ∧ Scan.Later (i + 1) s sf ∧
        Scan.Final s sf i := by
  obtain ⟨hi, -⟩ := List.getElem?_eq_some_iff.mp hst
  obtain ⟨h', s, sf, hrun', hagrees, hsound, hopen, hbs, hrest⟩ := exists_scans hbr hzero base hi.le
  cases hrun.symm.trans hrun'
  refine ⟨s, sf, hagrees.sound, ?_, hsound, hopen, hbs, ?_⟩
  · rw [← List.length_eq_zero_iff, ← List.length_eq_zero_iff, hagrees.levels.length_eq]
  · rcases hrest with ⟨rfl, -⟩ | ⟨st', u, hst', hmoves, hlater⟩
    · exact absurd hi (Nat.lt_irrefl _)
    · cases hst.symm.trans hst'
      exact ⟨(Scan.Later.of_no_end hmoves helse hend).trans hlater,
        hmoves.final hagrees.sound hlater hsound hopen fun hinstr => absurd hinstr hend⟩

/-- A step that ends no arm lies in no arm if no conditional is open there. -/
theorem not_contains_of_levels (hst : ctx.steps[i]? = some st) (helse : st.instr ≠ .op .opElse)
    (hend : st.instr ≠ .op .opEndIf)
    (hrun : Heights.run { now := base } (ctx.steps.take i) = some h) (hlevels : h.levels = []) :
    ∀ b ∈ ctx.branches, ¬ b.contains i = true := by
  obtain ⟨s, sf, hs, hopened, -, -, hbs, -, hfinal⟩ := exists_final hbr hzero hst helse hend hrun
  intro b' hb' hcont
  rw [hbs] at hb'
  obtain ⟨k, hk⟩ := List.mem_iff_getElem?.mp hb'
  cases hb : s.branches[k]? with
  | none => exact hfinal.new k b' i hb hk (Nat.le_refl i) hcont
  | some b =>
    cases hx : b.stop with
    | none =>
      have hmem := hs.unstopped k b hb hx
      rw [hopened.mp hlevels] at hmem
      cases hmem
    | some x =>
      obtain ⟨d, hd, hnot, -⟩ := hfinal.stopped k b x hb hx
      cases hk.symm.trans hd
      exact hnot hcont

/-- A step that ends no arm lies in no arm exactly if no conditional is open there. -/
theorem nestLevel_eq_zero_iff (hst : ctx.steps[i]? = some st) (helse : st.instr ≠ .op .opElse)
    (hend : st.instr ≠ .op .opEndIf)
    (hrun : Heights.run { now := base } (ctx.steps.take i) = some h) :
    ctx.nestLevel i = 0 ↔ h.levels = [] := by
  rw [nestLevel, Branch.nestLevel, foldl_max_eq_zero_iff]
  simp only [List.mem_filter, true_and, and_imp]
  constructor
  · intro hall
    obtain ⟨s, sf, hs, hopened, hsound, hopen, hbs, hlater, -⟩ :=
      exists_final hbr hzero hst helse hend hrun
    rw [hopened]
    cases ho : s.opened with
    | nil => rfl
    | cons c cs =>
      have hchain := hs.chain
      rw [ho] at hchain
      cases hchain with
      | cons hb hstop _ hnest hle =>
        obtain ⟨b', hb', -, hnest', hcont⟩ := hlater.contains hsound hopen hb hstop hle
        have := hall b' (hbs ▸ List.mem_of_getElem? hb') hcont
        omega
  · intro hlevels b' hb' hcont
    exact absurd hcont (not_contains_of_levels hbr hzero hst helse hend hrun hlevels b' hb')

end Context

end NamedStack
