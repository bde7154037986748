import Mathlib
import NamedStack.Context.Branch

/-!
# What a scan for branches keeps

In front of each position the branches seen so far are in order. The open ones form a chain from the
inside out; the two arms of a conditional know each other; and an arm that is over lies either
inside of an open one, with a deeper nesting, or in front of it. All of this is kept by every step.
-/

namespace NamedStack.Branch.Scan

/-! ### The steps of a scan -/

/-- The branches after the arm at a place was split. -/
def splitAt (l : List Branch) (c i : Nat) (b : Branch) : List Branch :=
  l.set c { b with stop := some i, sibling := some l.length } ++
    [{ isTrue := false, start := i + 1, nest := b.nest, sibling := some c, marker := i }]

/-- The branches after the arm at a place was closed. -/
def closeAt (l : List Branch) (c i : Nat) (b : Branch) : List Branch :=
  match b.sibling with
  | some k => (l.set c { b with stop := some i, endIf := some i }).modify k
      fun t => { t with endIf := some i }
  | none => l.set c { b with stop := some i, endIf := some i }

/-- Ending an arm keeps the number of arms. -/
theorem length_closeAt (l : List Branch) (c i : Nat) (b : Branch) :
    (closeAt l c i b).length = l.length := by
  unfold closeAt
  cases b.sibling with
  | none => exact List.length_set
  | some k => rw [List.length_modify, List.length_set]

/-- What a step of a scan does. -/
inductive Moves (s : Scan) (i : Nat) : Instr → Scan → Prop
  | pass {instr : Instr} (h : ∀ o, instr = .op o → o.isMarker = false) : Moves s i instr s
  | opens {o : Opcode} (h : o = .opIf ∨ o = .opNotIf) : Moves s i (.op o) (s.openArm i)
  | splits {c : Nat} {cs : List Nat} {b : Branch} (ho : s.opened = c :: cs)
      (hb : s.branches[c]? = some b) (hfirst : b.isTrue = true) :
      Moves s i (.op .opElse)
        { branches := splitAt s.branches c i b, opened := s.branches.length :: cs }
  | closes {c : Nat} {cs : List Nat} {b : Branch} (ho : s.opened = c :: cs)
      (hb : s.branches[c]? = some b) :
      Moves s i (.op .opEndIf) { branches := closeAt s.branches c i b, opened := cs }

variable {i c first hi p : Nat} {s s' : Scan} {b : Branch} {cs : List Nat} {l : List Branch}

variable {instr : Instr} {b' : Branch} {c' : Nat}

/-- Each step is one of the moves. -/
theorem moves_of_step (h : s.step i instr = .ok s') : Moves s i instr s' := by
  unfold step at h
  split at h
  · cases h
    exact .opens (.inl rfl)
  · cases h
    exact .opens (.inr rfl)
  · unfold splitArm at h
    cases ho : s.opened with
    | nil => simp [ho] at h
    | cons c cs =>
      cases hb : s.branches[c]? with
      | none => simp [ho, hb] at h
      | some b =>
        by_cases hfirst : b.isTrue = true
        · simp only [ho, hb, if_pos hfirst] at h
          cases h
          exact .splits ho hb hfirst
        · simp [ho, hb, hfirst] at h
  · unfold closeArm at h
    cases ho : s.opened with
    | nil => simp [ho] at h
    | cons c cs =>
      cases hb : s.branches[c]? with
      | none => simp [ho, hb] at h
      | some b =>
        simp only [ho, hb] at h
        cases h
        exact .closes ho hb
  · cases h
    refine .pass fun o ho => ?_
    subst ho
    cases o <;> first | rfl | simp_all

/-! ### The chain of open arms -/

/-- An open arm, with the position at which the first arm of its conditional starts. -/
inductive OpenArm (s : Scan) (c : Nat) (b : Branch) : Nat → Prop
  | first (htrue : b.isTrue = true) (hsib : b.sibling = none) : OpenArm s c b b.start
  | second {k x : Nat} {t : Branch} (hfalse : b.isTrue = false) (hsib : b.sibling = some k)
      (ht : s.branches[k]? = some t) (htrue : t.isTrue = true) (hstop : t.stop = some x)
      (hend : t.endIf = none) (hback : t.sibling = some c) (hstart : b.start = x + 1)
      (hle : t.start ≤ x) : OpenArm s c b t.start

/-- The open arms from the inside out: each conditional starts behind the start of the open arm of
the next one. -/
inductive Chain (s : Scan) : Nat → List Nat → Prop
  | nil {hi : Nat} : Chain s hi []
  | cons {hi c first : Nat} {cs : List Nat} {b : Branch} (hb : s.branches[c]? = some b)
      (hstop : b.stop = none) (hend : b.endIf = none) (hnest : b.nest = cs.length + 1)
      (hle : b.start ≤ hi) (harm : OpenArm s c b first) (hrest : Chain s first cs) :
      Chain s hi (c :: cs)

/-- A conditional starts no later than its open arm. -/
theorem OpenArm.le_start (h : OpenArm s c b first) : first ≤ b.start := by
  cases h with
  | first => exact Nat.le_refl _
  | second _ _ _ _ _ _ _ hstart hle => omega

/-- An open first arm starts its conditional and has no partner. -/
theorem OpenArm.of_isTrue (h : OpenArm s c b first) (htrue : b.isTrue = true) :
    first = b.start ∧ b.sibling = none := by
  cases h with
  | first _ hsib => exact ⟨rfl, hsib⟩
  | second hfalse => cases htrue.symm.trans hfalse

/-- A chain goes on for later positions. -/
theorem Chain.mono {hi' : Nat} (h : Chain s hi cs) (hle : hi ≤ hi') : Chain s hi' cs := by
  cases h with
  | nil => exact .nil
  | cons hb hstop hend hnest hle' harm hrest =>
    exact .cons hb hstop hend hnest (hle'.trans hle) harm hrest

/-- What is known of each member of a chain. -/
theorem Chain.mem (h : Chain s hi cs) (hc : c ∈ cs) :
    ∃ b first, s.branches[c]? = some b ∧ b.stop = none ∧ b.endIf = none ∧ b.nest ≤ cs.length ∧
      b.start ≤ hi ∧ OpenArm s c b first := by
  induction h with
  | nil => cases hc
  | cons hb hstop hend hnest hle harm _ ih =>
    rcases List.mem_cons.mp hc with rfl | hc
    · exact ⟨_, _, hb, hstop, hend, hnest.le, hle, harm⟩
    · obtain ⟨b, first, hb, hstop, hend, hnest, hle', harm'⟩ := ih hc
      exact ⟨b, first, hb, hstop, hend, Nat.le_succ_of_le hnest,
        (hle'.trans harm.le_start).trans hle, harm'⟩

/-- Whether a scan has the same open arms at places, with the same partners, as another one. -/
def Keeps (s s' : Scan) (cs : List Nat) : Prop :=
  ∀ c ∈ cs, ∀ b, s.branches[c]? = some b →
    s'.branches[c]? = some b ∧ ∀ k, b.sibling = some k → s'.branches[k]? = s.branches[k]?

private theorem Chain.congr (h : Chain s hi cs) (hkeep : Keeps s s' cs) : Chain s' hi cs := by
  induction h with
  | nil => exact .nil
  | @cons hi c first cs b hb hstop hend hnest hle harm _ ih =>
    obtain ⟨hb', hsib'⟩ := hkeep c (.head _) b hb
    refine .cons hb' hstop hend hnest hle ?_ (ih fun c hc => hkeep c (.tail _ hc))
    cases harm with
    | first htrue hsib => exact .first htrue hsib
    | second hfalse hsib ht htrue hstop hend hback hstart hle =>
      exact .second hfalse hsib ((hsib' _ hsib).trans ht) htrue hstop hend hback hstart hle

/-- The innermost open arm is no other open one, and no first arm of another open conditional. -/
theorem Chain.apart_of_mem (h : Chain s hi (c :: cs)) (hc' : c' ∈ cs) (hb : s.branches[c]? = some b)
    (hb' : s.branches[c']? = some b') :
    c' ≠ c ∧ ∀ k, b'.sibling = some k → k ≠ c ∧ b.sibling ≠ some k := by
  cases h with
  | cons hb₀ hstop hend hnest hle harm hrest =>
    cases hb.symm.trans hb₀
    obtain ⟨b₁, first', hb₁, hstop', -, hnest', -, harm'⟩ := hrest.mem hc'
    cases hb'.symm.trans hb₁
    have hne : c' ≠ c := by
      rintro rfl
      cases hb.symm.trans hb'
      omega
    refine ⟨hne, fun k hk => ?_⟩
    cases harm' with
    | first _ hsib => cases hk.symm.trans hsib
    | second _ hsib ht _ hover _ hback =>
      cases hk.symm.trans hsib
      constructor
      · rintro rfl
        cases hb.symm.trans ht
        cases hstop.symm.trans hover
      · intro hsib₀
        cases harm with
        | first _ hnone => cases hsib₀.symm.trans hnone
        | second _ hsib₁ ht₁ _ _ _ hback₁ =>
          cases hsib₀.symm.trans hsib₁
          cases ht.symm.trans ht₁
          cases hback.symm.trans hback₁
          exact hne rfl

/-! ### What every step keeps -/

/-- What holds of a scan in front of a position. -/
structure Sound (s : Scan) (p : Nat) : Prop where
  chain : Chain s p s.opened
  stopped : ∀ (k : Nat) (b : Branch) (x : Nat), s.branches[k]? = some b → b.stop = some x → x < p
  unstopped : ∀ (k : Nat) (b : Branch), s.branches[k]? = some b → b.stop = none → k ∈ s.opened
  linked : ∀ (k : Nat) (b : Branch) (j : Nat), s.branches[k]? = some b → b.isTrue = true →
    b.sibling = some j →
      ∃ b' : Branch, s.branches[j]? = some b' ∧ b'.isTrue = false ∧ b'.sibling = some k
  apart : ∀ (k : Nat) (b : Branch) (x c : Nat) (b' : Branch), s.branches[k]? = some b →
    b.stop = some x → c ∈ s.opened → s.branches[c]? = some b' →
      (b'.start ≤ b.start ∧ b'.nest < b.nest) ∨ x < b'.start

/-- The empty scan is sound. -/
theorem sound_nil : Sound {} 0 := by
  refine ⟨.nil, ?_, ?_, ?_, ?_⟩ <;> simp

/-- What is known of the innermost open arm. -/
theorem Sound.innermost (h : Sound s p) (ho : s.opened = c :: cs) (hb : s.branches[c]? = some b) :
    ∃ first, b.stop = none ∧ b.endIf = none ∧ b.nest = cs.length + 1 ∧ b.start ≤ p ∧
      OpenArm s c b first ∧ Chain s first cs := by
  have hchain := h.chain
  rw [ho] at hchain
  cases hchain with
  | cons hb' hstop hend hnest hle harm hrest =>
    cases hb.symm.trans hb'
    exact ⟨_, hstop, hend, hnest, hle, harm, hrest⟩

/-- The branches after one more. -/
theorem lookup_append (l : List Branch) (n : Branch) (k : Nat) (d : Branch) :
    (l ++ [n])[k]? = some d ↔ l[k]? = some d ∨ k = l.length ∧ d = n := by
  rcases Nat.lt_trichotomy k l.length with hk | rfl | hk
  · rw [List.getElem?_append_left hk]
    simp [Nat.ne_of_lt hk]
  · simp [eq_comm]
  · have hlen : (l ++ [n]).length ≤ k := by simpa using hk
    simp [List.getElem?_eq_none (Nat.le_of_lt hk), List.getElem?_eq_none hlen, Nat.ne_of_gt hk]

/-- The branches after an arm was opened: there is one more. -/
theorem lookup_open (s : Scan) (p k : Nat) (d : Branch) :
    (s.openArm p).branches[k]? = some d ↔ s.branches[k]? = some d ∨ k = s.branches.length ∧
      d = { isTrue := true, start := p + 1, nest := s.opened.length + 1, marker := p } :=
  lookup_append ..

/-- The branches after an arm was split: it has ended, and there is one more. -/
theorem lookup_split (hb : l[c]? = some b) (k : Nat)
    (d : Branch) :
    (splitAt l c i b)[k]? = some d ↔
      (∃ t, l[k]? = some t ∧
        d = { t with
          stop := if k = c then some i else t.stop
          sibling := if k = c then some l.length else t.sibling }) ∨
      k = l.length ∧
        d =
          { isTrue := false, start := i + 1, nest := b.nest, sibling := some c, marker := i } := by
  obtain ⟨hc, rfl⟩ := List.getElem?_eq_some_iff.mp hb
  rw [splitAt, lookup_append, List.length_set, List.getElem?_set]
  by_cases hk : c = k
  · subst hk
    simp [hc, Nat.ne_of_lt hc, eq_comm]
  · simp [hk, Ne.symm hk]

/-- The branches after an arm was closed: it has ended, and so has its conditional. -/
theorem lookup_close (hb : l[c]? = some b) (hsib : b.sibling ≠ some c) (k : Nat) (d : Branch) :
    (closeAt l c i b)[k]? = some d ↔
      ∃ t, l[k]? = some t ∧
        d = { t with
          stop := if k = c then some i else t.stop
          endIf := if k = c ∨ b.sibling = some k then some i else t.endIf } := by
  obtain ⟨hc, rfl⟩ := List.getElem?_eq_some_iff.mp hb
  unfold closeAt
  cases hj : l[c].sibling with
  | none =>
    by_cases hk : k = c
    · subst hk
      simp [hc, hj, eq_comm]
    · simp [List.getElem?_set_ne (Ne.symm hk), hk]
  | some j =>
    have hne : j ≠ c := fun h => hsib (hj.trans (congrArg some h))
    by_cases hk : k = c
    · subst hk
      simp [hc, hj, hne, eq_comm]
    · by_cases hjk : j = k
      · subst hjk
        simp [List.getElem?_set_ne (Ne.symm hk), hk, eq_comm]
      · simp [List.getElem?_set_ne (Ne.symm hk), hk, hjk]

/-- The partner of an open arm is not open. -/
theorem OpenArm.sibling_ne_open (h : OpenArm s c b first) (hb' : s.branches[c']? = some b')
    (hstop : b'.stop = none) : b.sibling ≠ some c' := by
  intro hc
  cases h with
  | first _ hsib => cases hc.symm.trans hsib
  | second _ hsib ht _ hover =>
    cases hc.symm.trans hsib
    cases hb'.symm.trans ht
    cases hstop.symm.trans hover

private theorem Sound.keeps_of (h : Sound s p) (hsub : cs ⊆ s.opened)
    (hkeep : ∀ c ∈ cs, ∀ b, s.branches[c]? = some b → ∀ k, k = c ∨ b.sibling = some k →
      ∀ t, s.branches[k]? = some t → s'.branches[k]? = some t) : Keeps s s' cs := by
  intro c hc b hb
  refine ⟨hkeep c hc b hb c (.inl rfl) b hb, fun k hk => ?_⟩
  obtain ⟨b', _, hb', -, -, -, -, harm⟩ := h.chain.mem (hsub hc)
  cases hb.symm.trans hb'
  cases harm with
  | first _ hsib => cases hk.symm.trans hsib
  | second _ hsib ht =>
    cases hk.symm.trans hsib
    exact (hkeep c hc b hb _ (.inr hk) _ ht).trans ht.symm

private theorem Sound.keeps_around (h : Sound s p) (ho : s.opened = c :: cs)
    (hb : s.branches[c]? = some b) (hkeep : ∀ k t, k ≠ c → b.sibling ≠ some k →
      s.branches[k]? = some t → s'.branches[k]? = some t) : Keeps s s' cs := by
  have hchain := h.chain
  rw [ho] at hchain
  obtain ⟨_, -, -, -, -, harm, hrest⟩ := h.innermost ho hb
  refine h.keeps_of (ho ▸ List.subset_cons_self c cs) fun c' hc' b' hb' k hk t ht => ?_
  obtain ⟨hne, hsib⟩ := hchain.apart_of_mem hc' hb hb'
  rcases hk with rfl | hk
  · obtain ⟨b₁, _, hb₁, hstop₁, -⟩ := hrest.mem hc'
    cases hb'.symm.trans hb₁
    exact hkeep k t hne (harm.sibling_ne_open hb' hstop₁) ht
  · exact hkeep k t (hsib k hk).1 (hsib k hk).2 ht

/-- Opening an arm keeps those that are open. -/
theorem keeps_opens (h : Sound s p) : Keeps s (s.openArm p) s.opened :=
  h.keeps_of (fun _ => id) fun _ _ _ _ k _ t ht => (lookup_append _ _ k t).mpr (.inl ht)

/-- Going on to a second arm keeps the arms around it. -/
theorem keeps_splits (h : Sound s p) (ho : s.opened = c :: cs) (hb : s.branches[c]? = some b) :
    Keeps s { branches := splitAt s.branches c p b, opened := s.branches.length :: cs } cs :=
  h.keeps_around ho hb fun k t hk _ ht =>
    (lookup_split hb k t).mpr (.inl ⟨t, ht, by simp [hk]⟩)

/-- Closing a conditional keeps the arms around it. -/
theorem keeps_closes (h : Sound s p) (ho : s.opened = c :: cs) (hb : s.branches[c]? = some b) :
    Keeps s { branches := closeAt s.branches c p b, opened := cs } cs := by
  obtain ⟨_, hstop, -, -, -, harm, -⟩ := h.innermost ho hb
  exact h.keeps_around ho hb fun k t hk hsib ht =>
    (lookup_close hb (harm.sibling_ne_open hb hstop) k t).mpr ⟨t, ht, by simp [hk, hsib]⟩

private theorem sound_openArm (h : Sound s p) : Sound (s.openArm p) (p + 1) := by
  have hlook := lookup_open s p
  have hold {k : Nat} {d : Branch} (hd : s.branches[k]? = some d) :
      (s.openArm p).branches[k]? = some d := (hlook k d).mpr (.inl hd)
  refine ⟨?_, ?_, ?_, ?_, ?_⟩
  · refine .cons ((hlook _ _).mpr (.inr ⟨rfl, rfl⟩)) rfl rfl rfl (Nat.le_refl _) (.first rfl rfl) ?_
    exact (h.chain.mono (Nat.le_succ p)).congr (keeps_opens h)
  · intro k b x hb hx
    rcases (hlook k b).mp hb with hb | ⟨-, rfl⟩
    · exact Nat.lt_succ_of_lt (h.stopped k b x hb hx)
    · cases hx
  · intro k b hb hx
    rcases (hlook k b).mp hb with hb | ⟨rfl, -⟩
    · exact .tail _ (h.unstopped k b hb hx)
    · exact .head _
  · intro k b j hb htrue hj
    rcases (hlook k b).mp hb with hb | ⟨-, rfl⟩
    · obtain ⟨b', hb', hrest⟩ := h.linked k b j hb htrue hj
      exact ⟨b', hold hb', hrest⟩
    · cases hj
  · intro k b x c b' hb hx hc hb'
    rcases (hlook k b).mp hb with hb | ⟨-, rfl⟩
    · have hxp := h.stopped k b x hb hx
      rcases (hlook c b').mp hb' with hb' | ⟨rfl, rfl⟩
      · rcases List.mem_cons.mp hc with rfl | hc
        · simp at hb'
        · exact h.apart k b x c b' hb hx hc hb'
      · exact .inr (Nat.lt_succ_of_lt hxp)
    · cases hx

private theorem sound_splits (h : Sound s p) (ho : s.opened = c :: cs)
    (hb : s.branches[c]? = some b) (hfirst : b.isTrue = true) :
    Sound { branches := splitAt s.branches c p b, opened := s.branches.length :: cs } (p + 1) := by
  have hlook := lookup_split (i := p) hb
  have hkeep {k : Nat} {t : Branch} (hk : k ≠ c) (ht : s.branches[k]? = some t) :
      (splitAt s.branches c p b)[k]? = some t := (hlook k t).mpr (.inl ⟨t, ht, by simp [hk]⟩)
  have hsplit := (hlook c _).mpr (.inl ⟨b, hb, rfl⟩)
  rw [if_pos rfl, if_pos rfl] at hsplit
  have hnew := (hlook _ _).mpr (.inr ⟨rfl, rfl⟩)
  obtain ⟨first, -, hend, hnest, hle, harm, hrest⟩ := h.innermost ho hb
  obtain ⟨rfl, -⟩ := harm.of_isTrue hfirst
  have hover {k x : Nat} {d : Branch} (hd : (splitAt s.branches c p b)[k]? = some d)
      (hx : d.stop = some x) : x < p + 1 := by
    rcases (hlook k d).mp hd with ⟨t, ht, rfl⟩ | ⟨-, rfl⟩
    · by_cases hk : k = c
      · cases (if_pos hk).symm.trans hx
        exact Nat.lt_succ_self p
      · exact Nat.lt_succ_of_lt (h.stopped k t x ht ((if_neg hk).symm.trans hx))
    · cases hx
  refine ⟨?_, fun _ _ _ hd hx => hover hd hx, ?_, ?_, ?_⟩
  · -- the new arm is the innermost one, and starts behind the first arm of its conditional
    refine .cons hnew rfl rfl hnest (Nat.le_refl _)
      (.second rfl rfl hsplit hfirst rfl hend rfl rfl hle) ?_
    exact hrest.congr (keeps_splits h ho hb)
  · intro k d hd hx
    rcases (hlook k d).mp hd with ⟨t, ht, rfl⟩ | ⟨rfl, -⟩
    · by_cases hk : k = c
      · cases (if_pos hk).symm.trans hx
      · have hmem := h.unstopped k t ht ((if_neg hk).symm.trans hx)
        rw [ho] at hmem
        exact .tail _ ((List.mem_cons.mp hmem).resolve_left hk)
    · exact .head _
  · intro k d j hd htrue hj
    rcases (hlook k d).mp hd with ⟨t, ht, rfl⟩ | ⟨-, rfl⟩
    · by_cases hk : k = c
      · cases (if_pos hk).symm.trans hj
        exact ⟨_, hnew, rfl, by rw [hk]⟩
      · obtain ⟨d', hd', hfalse, hback⟩ := h.linked k t j ht htrue ((if_neg hk).symm.trans hj)
        have hjc : j ≠ c := by
          rintro rfl
          cases hb.symm.trans hd'
          cases hfirst.symm.trans hfalse
        exact ⟨d', hkeep hjc hd', hfalse, hback⟩
    · cases htrue
  · intro k d x c' d' hd hx hc' hd'
    rcases List.mem_cons.mp hc' with rfl | hc'
    · -- whatever is over ends in front of the new arm
      cases hnew.symm.trans hd'
      exact .inr (hover hd hx)
    · obtain ⟨b₁, _, hb₁, -, -, hnest₁, hle₁, -⟩ := hrest.mem hc'
      cases (keeps_splits h ho hb c' hc' b₁ hb₁).1.symm.trans hd'
      rcases (hlook k d).mp hd with ⟨t, ht, rfl⟩ | ⟨-, rfl⟩
      · by_cases hk : k = c
        · subst hk
          cases hb.symm.trans ht
          exact .inl ⟨hle₁, by simp only; omega⟩
        · exact h.apart k t x c' _ ht ((if_neg hk).symm.trans hx) (ho ▸ .tail _ hc') hb₁
      · cases hx

private theorem sound_closes (h : Sound s p) (ho : s.opened = c :: cs)
    (hb : s.branches[c]? = some b) :
    Sound { branches := closeAt s.branches c p b, opened := cs } (p + 1) := by
  obtain ⟨first, hstop, -, hnest, hle, harm, hrest⟩ := h.innermost ho hb
  have hlook := lookup_close (i := p) hb (harm.sibling_ne_open hb hstop)
  refine ⟨?_, ?_, ?_, ?_, ?_⟩
  · have hle' : first ≤ p + 1 := (harm.le_start.trans hle).trans (Nat.le_succ p)
    exact (hrest.mono hle').congr (keeps_closes h ho hb)
  · intro k d x hd hx
    obtain ⟨t, ht, rfl⟩ := (hlook k d).mp hd
    by_cases hk : k = c
    · cases (if_pos hk).symm.trans hx
      exact Nat.lt_succ_self p
    · exact Nat.lt_succ_of_lt (h.stopped k t x ht ((if_neg hk).symm.trans hx))
  · intro k d hd hx
    obtain ⟨t, ht, rfl⟩ := (hlook k d).mp hd
    by_cases hk : k = c
    · cases (if_pos hk).symm.trans hx
    · have hmem := h.unstopped k t ht ((if_neg hk).symm.trans hx)
      rw [ho] at hmem
      exact (List.mem_cons.mp hmem).resolve_left hk
  · intro k d j hd htrue hj
    obtain ⟨t, ht, rfl⟩ := (hlook k d).mp hd
    obtain ⟨d', hd', hfalse, hback⟩ := h.linked k t j ht htrue hj
    exact ⟨_, (hlook j _).mpr ⟨d', hd', rfl⟩, hfalse, hback⟩
  · intro k d x c' d' hd hx hc' hd'
    obtain ⟨b₁, _, hb₁, hstop₁, -, hnest₁, hle₁, -⟩ := hrest.mem hc'
    cases (keeps_closes h ho hb c' hc' b₁ hb₁).1.symm.trans hd'
    obtain ⟨t, ht, rfl⟩ := (hlook k d).mp hd
    by_cases hk : k = c
    · subst hk
      cases hb.symm.trans ht
      exact .inl ⟨hle₁.trans harm.le_start, by simp only; omega⟩
    · exact h.apart k t x c' _ ht ((if_neg hk).symm.trans hx) (ho ▸ .tail _ hc') hb₁

/-- An open arm is not one that is over. -/
theorem ne_of_stop {k x : Nat} {t : Branch} (hb : l[c]? = some b) (hstop : b.stop = none)
    (ht : l[k]? = some t) (hx : t.stop = some x) : k ≠ c := by
  rintro rfl
  cases hb.symm.trans ht
  cases hstop.symm.trans hx

/-- Every step keeps what holds of a scan. -/
theorem Sound.step (h : Sound s p) (hm : Moves s p instr s') : Sound s' (p + 1) := by
  cases hm with
  | pass =>
    refine ⟨h.chain.mono (Nat.le_succ p), ?_, h.unstopped, h.linked, h.apart⟩
    exact fun k b x hb hx => Nat.lt_succ_of_lt (h.stopped k b x hb hx)
  | opens => exact sound_openArm h
  | splits ho hb hfirst => exact sound_splits h ho hb hfirst
  | closes ho hb => exact sound_closes h ho hb

end NamedStack.Branch.Scan
