import NamedStack.Proofs.Source.Descent

/-!
# Texts that are no programs

Every text is read as a program or refused with a problem, unless reading comes to a token that is
the least integer of 64 bits.
-/

namespace NamedStack.Source

namespace Reader

variable {r r' : Reader} {tok : Bytes} {f : Fault}

private theorem call_ne_fault (r : Reader) (form : Form) : r.call form ≠ .error (.fault f) := by
  intro h
  unfold call at h
  split at h
  · split at h <;> cases h
  · cases h

private theorem declare_ne_fault (r : Reader) (form : Form) :
    r.declare form ≠ .error (.fault f) := by
  intro h
  unfold declare at h
  split at h
  · cases h
  · split at h
    · cases h
    · split at h <;> cases h

private theorem atom_of_single (h : plain.single r tok = .error (.fault f)) :
    atom tok = .error (.fault f) := by
  unfold plain.single at h
  cases hatom : atom tok with
  | ok i =>
    rw [hatom] at h
    cases h
  | error e =>
    rw [hatom] at h
    cases h
    rfl

private theorem atom_of_other (h : plain.other r tok = .error (.fault f)) :
    atom tok = .error (.fault f) := by
  unfold plain.other at h
  split at h
  · cases h
  split at h
  · cases h
  split at h
  · cases h
  split at h
  · split at h
    · exact absurd h (call_ne_fault _ _)
    split at h
    · split at h
      · exact absurd h (declare_ne_fault _ _)
      · cases h
    · exact atom_of_single h
  · exact atom_of_single h

private theorem atom_of_plain (h : r.plain tok = .error (.fault f)) :
    atom tok = .error (.fault f) := by
  unfold plain at h
  split at h
  · split at h
    · cases h
    · exact atom_of_other h
  · exact atom_of_other h

private theorem plain_of_atom (h : atom tok = .error (.fault f)) :
    r.plain tok = .error (.fault f) := by
  obtain ⟨⟨digits, rfl⟩, hform⟩ := exists_sign_of_least (atom_eq_fault_iff.mp h).2
  have hne {s : Bytes} (hs : s.head? ≠ some 45) : 45 :: digits ≠ s := by
    rintro rfl
    exact hs rfl
  have hother : plain.other r (45 :: digits) = .error (.fault f) := by
    rw [plain.other, if_neg (not_or.mpr ⟨hne (by decide), hne (by decide)⟩),
      if_neg (hne (by decide)), if_neg (hne (by decide)), hform]
    change plain.single r _ = _
    rw [plain.single, h]
    rfl
  have hclose (o : Open) : o.close.head? ≠ some 45 := by
    cases o <;> (rw [Open.close]; decide)
  rw [plain]
  split
  · next o _ _ _ =>
    rw [if_neg (hne (hclose o))]
    exact hother
  · exact hother

private theorem settle_ne_fault (r : Reader) : r.settle ≠ .error (.fault f) := by
  intro h
  unfold settle at h
  split at h <;> cases h

/-- Reading a token is a fault exactly if the token is one by itself and what waited for a brace is
settled before it. -/
theorem read_eq_fault_iff :
    r.read tok = .error (.fault f) ↔
      atom tok = .error (.fault f) ∧ ∃ r', r.settle = .ok r' := by
  constructor
  · intro h
    unfold read at h
    split at h
    · split at h
      · next hw => exact ⟨atom_of_plain h, r, by rw [settle, hw]⟩
      · cases h
      · cases h
    · cases hsettle : r.settle with
      | ok r' =>
        rw [hsettle] at h
        exact ⟨atom_of_plain h, r', rfl⟩
      | error e =>
        rw [hsettle] at h
        cases h
        exact absurd hsettle (settle_ne_fault r)
  · rintro ⟨hatom, r', hsettle⟩
    have hbrace : tok ≠ text "\x7b" := by
      rintro rfl
      cases hatom
    rw [read, if_neg hbrace, hsettle]
    exact plain_of_atom hatom

private theorem finish_ne_fault (r : Reader) : r.finish ≠ .error (.fault f) := by
  intro h
  unfold finish at h
  cases hsettle : r.settle with
  | error e =>
    rw [hsettle] at h
    cases h
    exact settle_ne_fault r hsettle
  | ok r' =>
    rw [hsettle] at h
    dsimp only [bind, Except.bind] at h
    split at h <;> cases h

end Reader

private theorem ofTokens_eq_fault_iff {toks : List Bytes} {f : Fault} :
    Program.ofTokens toks = .error (.fault f) ↔ ∃ before tok after r,
      toks = before ++ tok :: after ∧ before.foldlM Reader.read {} = .ok r ∧
        r.read tok = .error (.fault f) := by
  rw [Program.ofTokens, ← Sequence.foldlM_eq_error_iff]
  cases toks.foldlM Reader.read {} with
  | error e =>
    constructor
    · intro h
      cases h
      rfl
    · intro h
      cases h
      rfl
  | ok r =>
    constructor
    · exact fun h => absurd h (Reader.finish_ne_fault r)
    · intro h
      cases h

/-- Whether reading a text comes to a token that is the least integer of 64 bits: all tokens before
it are read, and what they leave waiting for a brace can do without one. -/
def ReachesLeast (src : Bytes) : Prop :=
  ∃ before tok after r r', Lexer.tokens src = .ok (before ++ tok :: after) ∧
    before.foldlM Reader.read {} = .ok r ∧ r.settle = .ok r' ∧
    Text.readInt tok = .ok (-9223372036854775808)

private theorem parse_eq_fault_iff (src : Bytes) (f : Fault) :
    Program.parse src = .error (.fault f) ↔ f = .outOfRange ∧ ReachesLeast src := by
  rw [Program.parse]
  cases htoks : Lexer.tokens src with
  | error c =>
    constructor
    · intro h
      cases h
    · rintro ⟨-, before, tok, after, r, r', htoks', -⟩
      rw [htoks] at htoks'
      cases htoks'
  | ok toks =>
    refine ofTokens_eq_fault_iff.trans ⟨?_, ?_⟩
    · rintro ⟨before, tok, after, r, rfl, hbefore, hread⟩
      obtain ⟨hatom, r', hsettle⟩ := Reader.read_eq_fault_iff.mp hread
      obtain ⟨rfl, hleast⟩ := atom_eq_fault_iff.mp hatom
      exact ⟨rfl, before, tok, after, r, r', htoks, hbefore, hsettle, hleast⟩
    · rintro ⟨rfl, before, tok, after, r, r', htoks', hbefore, hsettle, hleast⟩
      obtain rfl := Except.ok.inj (htoks.symm.trans htoks')
      exact ⟨before, tok, after, r, rfl, hbefore,
        Reader.read_eq_fault_iff.mpr ⟨atom_eq_fault_iff.mpr ⟨rfl, hleast⟩, r', hsettle⟩⟩

/-- Reading a text by position and by descent is a fault exactly if it comes to the least integer;
any other text is read as a program or refused with a problem, as the reader does it. In every
window the first token is found by position, and reading goes on behind it. -/
theorem parse_fault_iff_reachesLeast (src : Bytes) :
    (ReachesLeast src → Positional.parse src = .error (.fault .outOfRange)) ∧
    (¬ReachesLeast src → (∃ p, Positional.parse src = .ok p) ∨
      ∃ q, Positional.parse src = .error (.problem q)) ∧
    Positional.parse src = Program.parse src ∧
    ∀ window atEnd,
      Lexer.Positional.split window atEnd = .ok (Lexer.split window atEnd) ∧
        (Lexer.split window atEnd).Advances window atEnd := by
  rw [Positional.parse_eq]
  refine ⟨fun h => (parse_eq_fault_iff src _).mpr ⟨rfl, h⟩, fun hnot => ?_, rfl, fun window atEnd =>
    ⟨Lexer.Positional.split_eq window atEnd, Lexer.split_advances window atEnd⟩⟩
  cases hparse : Program.parse src with
  | ok p => exact .inl ⟨p, rfl⟩
  | error e =>
    cases e with
    | problem q => exact .inr ⟨q, rfl⟩
    | fault f => exact absurd ((parse_eq_fault_iff src f).mp hparse).2 hnot

/-- The least integer in an argument of a call, behind a comment, a quoted string and a form. -/
def leastSource : Bytes :=
  text "# -9223372036854775808\nstack(a, b) '\\'[' [ call(f) \x7b -9223372036854775808 \x7d"

/-- The least integer in the place of a function's body. -/
def unreachedSource : Bytes := text "func( f , g ) -9223372036854775808"

/-- A source that reaches the least integer, and one that does not. -/
theorem parse_fault_iff_reachesLeast_nested :
    Positional.parse leastSource = .error (.fault .outOfRange) ∧
      ¬ReachesLeast unreachedSource ∧
        ∃ q, Positional.parse unreachedSource = .error (.problem q) := by
  have hreached : ReachesLeast leastSource := by
    refine ⟨[text "stack(a, b)", text "'\\'['", text "[", text "call(f)", text "\x7b"],
      text "-9223372036854775808", [text "\x7d"], _, _, ?_, rfl, rfl, by decide⟩
    decide +kernel
  have hparse : Program.parse unreachedSource =
      fail (.malformed (.noBody (text "f"))) := rfl
  obtain ⟨hfault, -, hsame, -⟩ := parse_fault_iff_reachesLeast unreachedSource
  refine ⟨(parse_fault_iff_reachesLeast leastSource).1 hreached, fun hreaches => ?_, _,
    hsame.trans hparse⟩
  rw [hsame, hparse] at hfault
  cases hfault hreaches

end NamedStack.Source
