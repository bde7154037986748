import NamedStack.Proofs.Context.Weaving

/-!
# The tree of arms

Once no conditional is open, all arms of a program form a tree: two of them lie apart or one inside
of the other, the arms of a conditional name each other, and the arms around a position are one of
each nesting.
-/

namespace NamedStack

namespace Branch

namespace Scan

variable {s s' : Scan} {p : Nat} {instr : Instr}

/-- All that holds of a scan in front of a position of a program. -/
structure Woven (ops : List Instr) (s : Scan) (p : Nat) : Prop where
  sound : Sound s p
  ranged : Ranged s
  nested : Nested s
  partnered : Partnered ops s
  markers : s.branches.map (fun b => (b.marker, b.isTrue)) = markers (ops.take p)

private theorem woven_nil (ops : List Instr) : Woven ops {} 0 := by
  refine ⟨sound_nil, ⟨?_, ?_, ?_⟩, ?_, ⟨?_, ?_, ?_, ?_⟩, rfl⟩ <;> simp [Nested]

private theorem Woven.step {ops : List Instr} (h : Woven ops s p) (hp : ops[p]? = some instr)
    (hm : Moves s p instr s') : Woven ops s' (p + 1) where
  sound := h.sound.step hm
  ranged := h.ranged.step h.sound hm
  nested := h.nested.step h.sound hm
  partnered := h.partnered.step h.sound hm hp
  markers := by
    obtain ⟨hlt, hget⟩ := List.getElem?_eq_some_iff.mp hp
    rw [hm.map_marker h.sound, h.markers, List.take_add_one, hp, Option.toList_some, markers_concat,
      List.length_take_of_le hlt.le]

private theorem Woven.run {ops rest : List Instr} (h : Woven ops s p) (hrest : ops.drop p = rest)
    (hr : s.run p rest = .ok s') : Woven ops s' (p + rest.length) := by
  induction rest generalizing s p with
  | nil =>
    cases hr
    exact h
  | cons instr rest ih =>
    obtain ⟨u, hu, hr⟩ := (run_cons_iff s s' p instr rest).mp hr
    have hp : ops[p]? = some instr := by
      rw [← Nat.add_zero p, ← List.getElem?_drop, hrest]
      rfl
    have hdrop : ops.drop (p + 1) = rest := by
      rw [← List.drop_drop, hrest, List.drop_one, List.tail_cons]
    have := ih (h.step hp (moves_of_step hu)) hdrop hr
    rwa [List.length_cons, Nat.add_comm rest.length, ← Nat.add_assoc]

end Scan

/-- The branches of a program as a tree. -/
structure Tree (ops : List Instr) (bs : List Branch) : Prop where
  /-- Each marker that opens an arm has its branch, in the order of the program. -/
  markers : bs.map (fun b => (b.marker, b.isTrue)) = Scan.markers ops
  /-- An arm starts behind its marker, and has an end in front of that of its conditional. -/
  closed : ∀ (k : Nat) (b : Branch), bs[k]? = some b → b.start = b.marker + 1 ∧
    ∃ x e, b.stop = some x ∧ b.endIf = some e ∧ b.start ≤ x ∧ x ≤ e ∧ ops[e]? = some (.op .opEndIf)
  /-- A second arm has a partner. -/
  second : ∀ (k : Nat) (b : Branch), bs[k]? = some b → b.isTrue = false → b.sibling.isSome = true
  /-- Partners are one first and one second arm of the same conditional, which name each other. -/
  partner : ∀ (k : Nat) (b : Branch) (j : Nat), bs[k]? = some b → b.sibling = some j →
    ∃ b' : Branch, bs[j]? = some b' ∧ b'.sibling = some k ∧ b'.isTrue = !b.isTrue ∧
      b'.nest = b.nest ∧ b'.endIf = b.endIf ∧
      (b.isTrue = true → ∃ x, b.stop = some x ∧ b'.start = x + 1)
  /-- Two arms lie apart, or the one with the deeper nesting lies inside of the other. -/
  laminar : ∀ (j k : Nat) (b b' : Branch) (x x' : Nat), j ≠ k → bs[j]? = some b →
    bs[k]? = some b' → b.stop = some x → b'.stop = some x' → Laminar b x b' x'
  /-- An arm that is not one of an outermost conditional lies inside of another one. -/
  nested : ∀ (k : Nat) (b : Branch), bs[k]? = some b → 1 ≤ b.nest ∧
    (1 < b.nest → ∃ (j : Nat) (b' : Branch), bs[j]? = some b' ∧ b'.nest + 1 = b.nest ∧
      ∀ i, b.contains i = true → b'.contains i = true)

private theorem tree_ofInstrs {ops : List Instr} {bs : List Branch} (h : ofInstrs ops = .ok bs) :
    Tree ops bs := by
  obtain ⟨s, hrun, hopened, rfl⟩ := (ofInstrs_eq_ok_iff ops bs).mp h
  have hs := (Scan.woven_nil ops).run List.drop_zero hrun
  rw [Nat.zero_add] at hs
  have hover (k : Nat) (b : Branch) (hb : s.branches[k]? = some b) : ∃ x, b.stop = some x := by
    cases hx : b.stop with
    | some x => exact ⟨x, rfl⟩
    | none =>
      have hmem := hs.sound.unstopped k b hb hx
      rw [hopened] at hmem
      cases hmem
  constructor
  · rw [hs.markers, List.take_length]
  · intro k b hb
    obtain ⟨x, hx⟩ := hover k b hb
    refine ⟨hs.ranged.marked k b hb, ?_⟩
    cases he : b.endIf with
    | none =>
      obtain ⟨j, hj, -⟩ := hs.partnered.half k b x hb hx he
      rw [hopened] at hj
      cases hj
    | some e =>
      obtain ⟨hend, y, hy, hle⟩ := hs.partnered.closed k b e hb he
      cases hx.symm.trans hy
      exact ⟨x, e, hx, rfl, hs.ranged.ordered k b x hb hx, hle, hend⟩
  · exact hs.partnered.second
  · intro k b j hb hj
    obtain ⟨b', hb', hback, hside, hnest, hend, hstop⟩ := hs.partnered.partner k b j hb hj
    refine ⟨b', hb', hback, hside, hnest, hend, fun hfirst => ⟨_, hstop hfirst, ?_⟩⟩
    exact hs.ranged.marked j b' hb'
  · exact hs.ranged.laminar
  · intro k b hb
    refine ⟨(hs.nested k b hb).1, fun hdeep => ?_⟩
    obtain ⟨j, b', hb', hnest, hstart, hstop⟩ := (hs.nested k b hb).2 hdeep
    refine ⟨j, b', hb', hnest, fun i hi => ?_⟩
    obtain ⟨y, hy⟩ := hover j b' hb'
    obtain ⟨x, hx, hle⟩ := hstop y hy
    obtain ⟨_, hx', hlo, hhi⟩ := (Scan.contains_iff b i).mp hi
    cases hx.symm.trans hx'
    exact (Scan.contains_iff b' i).mpr ⟨y, hy, hstart.trans hlo, hhi.trans_le hle⟩

/-! ### Arms around a position -/

private theorem eq_range' {l : List Nat} {a : Nat} (hlt : l.Pairwise (· < ·)) (hge : ∀ n ∈ l, a ≤ n)
    (hdown : ∀ n, n + 1 ∈ l → a ≤ n → n ∈ l) : l = List.range' a l.length := by
  induction l generalizing a with
  | nil => rfl
  | cons m l ih =>
    obtain ⟨hmin, hlt⟩ := List.pairwise_cons.mp hlt
    obtain ⟨ham, hge⟩ := List.forall_mem_cons.mp hge
    have hm : m = a := by
      by_contra hne
      obtain ⟨n, rfl⟩ : ∃ n, m = n + 1 := ⟨m - 1, by omega⟩
      rcases List.mem_cons.mp (hdown n List.mem_cons_self (by omega)) with hn | hn
      · omega
      · have := hmin n hn
        omega
    subst hm
    rw [List.length_cons, List.range'_succ]
    congr 1
    refine ih hlt (fun n hn => hmin n hn) fun n hn hle => ?_
    exact (List.mem_cons.mp (hdown n (List.mem_cons_of_mem _ hn) (by omega))).resolve_left
      (by omega)

namespace Tree

variable {ops : List Instr} {bs : List Branch}

private theorem pairwise_start (h : Tree ops bs) : bs.Pairwise fun b b' => b.start < b'.start := by
  have hmarkers : (Scan.markers ops).Pairwise fun m m' => m.1 < m'.1 := by
    refine List.Pairwise.filterMap _ (fun p p' hlt m hm m' hm' => ?_)
      (List.pairwise_iff_getElem.mpr fun j k hj hk hlt => ?_ :
        ops.zipIdx.Pairwise fun p p' => p.2 < p'.2)
    · obtain ⟨_, -, rfl⟩ := Option.map_eq_some_iff.mp hm
      obtain ⟨_, -, rfl⟩ := Option.map_eq_some_iff.mp hm'
      exact hlt
    · simpa using hlt
  rw [← h.markers, List.pairwise_map] at hmarkers
  refine hmarkers.imp_of_mem fun {b b'} hb hb' hlt => ?_
  obtain ⟨k, hk⟩ := List.mem_iff_getElem?.mp hb
  obtain ⟨k', hk'⟩ := List.mem_iff_getElem?.mp hb'
  rw [(h.closed k b hk).1, (h.closed k' b' hk').1]
  exact Nat.succ_lt_succ hlt

/-- Of two arms around a position the one that opens later has the deeper nesting. -/
theorem pairwise_nest (h : Tree ops bs) (i : Nat) :
    (bs.filter (·.contains i)).Pairwise fun b b' => b.nest < b'.nest := by
  rw [List.pairwise_filter, List.pairwise_iff_getElem]
  intro j k hj hk hlt hi hi'
  have hb := List.getElem?_eq_getElem hj
  have hb' := List.getElem?_eq_getElem hk
  obtain ⟨x, hx, hlo, hhi⟩ := (Scan.contains_iff _ _).mp hi
  obtain ⟨x', hx', hlo', hhi'⟩ := (Scan.contains_iff _ _).mp hi'
  have hstart := List.pairwise_iff_getElem.mp h.pairwise_start j k hj hk hlt
  have hlaminar := h.laminar j k _ _ x x' hlt.ne hb hb' hx hx'
  unfold Laminar at hlaminar
  omega

/-- The arms around a position are one of each nesting, the outermost first. -/
theorem map_nest (h : Tree ops bs) (i : Nat) :
    (bs.filter (·.contains i)).map (·.nest) =
      List.range' 1 (bs.filter (·.contains i)).length := by
  have hrange := eq_range' (a := 1) (List.pairwise_map.mpr (h.pairwise_nest i)) ?_ ?_
  · rwa [List.length_map] at hrange
  · intro n hn
    obtain ⟨b, hb, rfl⟩ := List.mem_map.mp hn
    obtain ⟨k, hk⟩ := List.mem_iff_getElem?.mp (List.mem_of_mem_filter hb)
    exact (h.nested k b hk).1
  · intro n hn hle
    obtain ⟨b, hb, hnest⟩ := List.mem_map.mp hn
    obtain ⟨hmem, hi⟩ := List.mem_filter.mp hb
    obtain ⟨k, hk⟩ := List.mem_iff_getElem?.mp hmem
    obtain ⟨j, b', hb', hnest', hinside⟩ := (h.nested k b hk).2 (by omega)
    exact List.mem_map.mpr
      ⟨b', List.mem_filter.mpr ⟨List.mem_of_getElem? hb', hinside i hi⟩, by omega⟩

private theorem foldl_max_range' (n : Nat) : (List.range' 1 n).foldl max 0 = n := by
  induction n with
  | zero => rfl
  | succ n ih =>
    rw [List.range'_concat, List.foldl_append, ih]
    simp only [List.foldl_cons, List.foldl_nil]
    omega

private theorem nestLevel_eq (h : Tree ops bs) (i : Nat) :
    nestLevel bs i = (bs.filter (·.contains i)).length := by
  have hfold := foldl_max_range' (bs.filter (·.contains i)).length
  rw [← h.map_nest, List.foldl_map] at hfold
  exact hfold

private theorem mem_containing {i k : Nat} :
    k ∈ containing bs i ↔ ∃ b, bs[k]? = some b ∧ b.contains i = true := by
  simp [containing, List.mem_zipIdx_iff_getElem?]

private theorem filterMap_containing (bs : List Branch) (i : Nat) :
    (containing bs i).filterMap (fun k => (bs[k]?).map (·.nest)) =
      (bs.filter (·.contains i)).map (·.nest) := by
  have harms : (bs.zipIdx.filter fun p => p.1.contains i).map (·.1) = bs.filter (·.contains i) := by
    conv_rhs => rw [← List.zipIdx_map_fst 0 bs, List.filter_map]
    rfl
  rw [containing, List.filterMap_map, ← harms, List.map_map, ← List.filterMap_eq_map]
  apply List.filterMap_congr
  intro p hp
  have hget := List.mem_zipIdx_iff_getElem?.mp (List.mem_of_mem_filter hp)
  simp [hget]

/-- No two arms around a position are those of one conditional. -/
theorem areSiblings_eq_false (h : Tree ops bs) {i j k : Nat} (hj : j ∈ containing bs i)
    (hk : k ∈ containing bs i) : areSiblings bs j k = false := by
  obtain ⟨b, hb, hi⟩ := mem_containing.mp hj
  obtain ⟨b', hb', hi'⟩ := mem_containing.mp hk
  rw [Bool.eq_false_iff]
  intro hsib
  simp only [areSiblings, hb, hb', Bool.and_eq_true, bne_iff_ne, beq_iff_eq] at hsib
  obtain ⟨⟨hne, hsib⟩, -⟩ := hsib
  obtain ⟨b₀, hb₀, -, -, hnest, -⟩ := h.partner j b k hb hsib
  cases hb'.symm.trans hb₀
  obtain ⟨x, hx, hlo, hhi⟩ := (Scan.contains_iff b i).mp hi
  obtain ⟨x', hx', hlo', hhi'⟩ := (Scan.contains_iff b' i).mp hi'
  have hlaminar := h.laminar j k b b' x x' hne hb hb' hx hx'
  unfold Laminar at hlaminar
  omega

end Tree

end Branch

namespace Context

/-- The branches of a program that has a context are the tree of its arms, and the arms around a
position are one of each nesting up to that of the position, from the outside in, of which no two
are the arms of one conditional. -/
theorem branches_form_tree {t : Table} {o : Options} {steps : List Step} {ctx : Context}
    (h : Context.of t o steps = .ok ctx) :
    Branch.Tree (Step.instrs steps) ctx.branches ∧
      ∀ i, (Branch.containing ctx.branches i).filterMap (fun k => (ctx.branches[k]?).map (·.nest)) =
          List.range' 1 (ctx.nestLevel i) ∧
        ∀ j ∈ Branch.containing ctx.branches i, ∀ k ∈ Branch.containing ctx.branches i,
          Branch.areSiblings ctx.branches j k = false := by
  obtain ⟨branches, hbr, rfl⟩ := of_cases h
  have htree := Branch.tree_ofInstrs hbr
  refine ⟨htree, fun i => ⟨?_, fun j hj k hk => htree.areSiblings_eq_false hj hk⟩⟩
  rw [Branch.Tree.filterMap_containing, htree.map_nest, nestLevel, htree.nestLevel_eq]

/-- A conditional with two arms in the first arm of another one. -/
def splitInFirstArm : Program where
  ops := [.push [7], .op .opIf, .push [8], .op .opIf, .op .opElse, .push [9], .op .opEndIf,
    .op .opElse, .push [5], .op .opEndIf]

/-- A conditional with two arms inside of a first arm. -/
theorem branches_form_tree_split_in_first_arm :
    ∃ ctx, Context.of (Table.ofProgram splitInFirstArm) {} (Step.ofList splitInFirstArm.ops) =
        .ok ctx ∧ Branch.containing ctx.branches 5 = [0, 2] ∧
      Branch.Tree splitInFirstArm.ops ctx.branches ∧
      [0, 2].filterMap (fun k => (ctx.branches[k]?).map (·.nest)) = [1, 2] ∧
      Branch.areSiblings ctx.branches 1 2 = true ∧ Branch.areSiblings ctx.branches 0 2 = false := by
  obtain ⟨ctx, hctx⟩ : ∃ ctx, Context.of (Table.ofProgram splitInFirstArm) {}
      (Step.ofList splitInFirstArm.ops) = .ok ctx := ⟨_, rfl⟩
  have htest : (Context.of (Table.ofProgram splitInFirstArm) {}
      (Step.ofList splitInFirstArm.ops)).toOption.map (fun ctx =>
        (Branch.containing ctx.branches 5, ctx.nestLevel 5, Branch.areSiblings ctx.branches 1 2)) =
      some ([0, 2], 2, true) := by cbv
  rw [hctx] at htest
  simp only [Except.toOption, Option.map_some, Option.some.injEq, Prod.mk.injEq] at htest
  obtain ⟨hcontaining, hlevel, hsiblings⟩ := htest
  obtain ⟨htree, hpositions⟩ := branches_form_tree hctx
  obtain ⟨hnests, hapart⟩ := hpositions 5
  rw [hcontaining] at hnests hapart
  rw [hlevel] at hnests
  refine ⟨ctx, hctx, hcontaining, ?_, hnests, hsiblings, hapart 0 (by decide) 2 (by decide)⟩
  rwa [Step.instrs_ofList] at htree

end Context

end NamedStack
