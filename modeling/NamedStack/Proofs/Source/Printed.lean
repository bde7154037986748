import NamedStack.Proofs.Source.WellNamed

/-!
# Programs read back from their written form

The tokens of a program whose names are valid are read as the same program, whatever was read before
them, and its written form is these tokens with blanks between them. So reading what was printed
gives the program back.
-/

namespace NamedStack

open Engine (bind_eq_ok_iff)

namespace Source.Reader

variable {r r₀ r' : Reader}

private theorem waiting_of_settle (h : r.settle = .ok r₀) : r₀.waiting = .nothing := by
  unfold settle at h
  split at h
  · next hw =>
    cases h
    exact hw
  · cases h
    rfl
  · cases h

private theorem settle_of_waiting (h : r.waiting = .nothing) : r.settle = .ok r := by
  rw [settle, h]

variable {tok : Bytes} {ts : List Bytes} {ops : List Instr}

private theorem read_of_settle (htok : tok ≠ text "\x7b") (h : r.settle = .ok r₀) :
    r.read tok = r₀.plain tok := by
  rw [read, if_neg htok, h]
  rfl

private theorem foldlM_cons_of_ok (h : r.read tok = .ok r') (ts : List Bytes) :
    (tok :: ts).foldlM read r = ts.foldlM read r' := by
  rw [List.foldlM_cons, h]
  rfl

private theorem foldlM_append_of_ok (h : ts.foldlM read r = .ok r') (us : List Bytes) :
    (ts ++ us).foldlM read r = us.foldlM read r' := by
  rw [List.foldlM_append, h]
  rfl

/-- Whether tokens are read as instructions, whatever was read before them. -/
def Adds (toks : List Bytes) (ops : List Instr) : Prop :=
  ∀ r r₀ : Reader, r.settle = .ok r₀ → ∃ r', toks.foldlM read r = .ok r' ∧
    r'.settle = .ok { r₀ with ops := ops.reverse ++ r₀.ops }

private theorem Adds.nil : Adds [] [] := fun r _ h => ⟨r, rfl, h⟩

private theorem Adds.append {us : List Bytes} {ops' : List Instr} (h : Adds ts ops)
    (k : Adds us ops') : Adds (ts ++ us) (ops ++ ops') := by
  intro r r₀ hr
  obtain ⟨s, hs, hsettle⟩ := h r r₀ hr
  obtain ⟨t, ht, htsettle⟩ := k s _ hsettle
  refine ⟨t, ?_, ?_⟩
  · rw [foldlM_append_of_ok hs, ht]
  · rw [htsettle, List.reverse_append, List.append_assoc]

private theorem ne_bracket (h : ∀ c ∈ tok.head?, Lexer.isBracket c = false) :
    tok ≠ text "[" ∧ tok ≠ text "]" ∧ tok ≠ text "\x7b" ∧ tok ≠ text "\x7d" := by
  refine ⟨?_, ?_, ?_, ?_⟩
  all_goals
    rintro rfl
    exact absurd (h _ rfl) (by decide)

private theorem plain_eq_other (hinner : tok ≠ text "]") (hbrace : tok ≠ text "\x7d") :
    r.plain tok = plain.other r tok := by
  unfold plain
  split
  · next o _ _ _ =>
    have hclose : tok ≠ o.close := by
      cases o with
      | inner => exact hinner
      | argument | body => exact hbrace
    rw [if_neg hclose]
  · rfl

private theorem Adds.single {i : Instr} (h : ReadsAs tok i) : Adds [tok] [i] := by
  intro r r₀ hr
  obtain ⟨hopen, hclose, hbrace, hend⟩ := ne_bracket h.bracket
  have hwaiting := waiting_of_settle hr
  have hsingle : plain.single r₀ tok = .ok { r₀ with ops := i :: r₀.ops } := by
    rw [plain.single, h.atom]
    rfl
  have hread : r.read tok = .ok { r₀ with ops := i :: r₀.ops } := by
    rw [read_of_settle hbrace hr, plain_eq_other hclose hend, plain.other,
      if_neg (not_or.mpr ⟨hclose, hend⟩), if_neg hbrace, if_neg hopen]
    cases hf : Form.ofToken? tok with
    | none => exact hsingle
    | some f =>
      obtain ⟨hcall, hfunc, hstack⟩ := h.keyword f hf
      simp only [if_neg hcall, if_neg (not_or.mpr ⟨hfunc, hstack⟩)]
      exact hsingle
  refine ⟨{ r₀ with ops := i :: r₀.ops }, ?_, settle_of_waiting hwaiting⟩
  rw [foldlM_cons_of_ok hread]
  rfl

private theorem read_enclosed (h : Adds ts ops) (o : Open) (r : Reader) :
    (ts ++ [o.close]).foldlM read (r.enter o) =
      .ok ({ r.enter o with ops := ops.reverse }.leave o r.ops r.opened) := by
  obtain ⟨s, hs, hsettle⟩ := h (r.enter o) (r.enter o) (settle_of_waiting rfl)
  have hbraces : text "\x7d" ≠ text "\x7b" := by decide
  have hclose : o.close ≠ text "\x7b" := by
    cases o with
    | inner => decide
    | argument | body => exact hbraces
  have hread : s.read o.close =
      .ok ({ r.enter o with ops := ops.reverse }.leave o r.ops r.opened) := by
    rw [read_of_settle hclose hsettle]
    simp only [enter, List.append_nil]
    rw [plain]
    simp
  rw [foldlM_append_of_ok hs, foldlM_cons_of_ok hread]
  rfl

private theorem Adds.inner (h : Adds (Instr.listTokens ops) ops) :
    Adds (Instr.inner ops).tokens [.inner ops] := by
  intro r r₀ hr
  have hwaiting := waiting_of_settle hr
  have hread : r.read (text "[") = .ok (r₀.enter .inner) := by
    rw [read_of_settle (by decide) hr, plain_eq_other (by decide) (by decide), plain.other,
      if_neg (by decide), if_neg (by decide), if_pos rfl]
  refine ⟨{ r₀ with ops := .inner ops :: r₀.ops }, ?_, settle_of_waiting hwaiting⟩
  rw [Instr.tokens, List.cons_append, foldlM_cons_of_ok hread]
  refine (read_enclosed h .inner r₀).trans ?_
  simp [leave, enter, hwaiting]

private theorem read_blocks {blocks : List (List Instr)}
    (h : ∀ ops ∈ blocks, Adds (Instr.listTokens ops) ops) (n : Name) (before : List (List Instr))
    (r : Reader) :
    (Instr.blockTokens blocks).foldlM read { r with waiting := .call n before } =
      .ok { r with waiting := .call n (before ++ blocks) } := by
  induction blocks generalizing before with
  | nil =>
    rw [Instr.blockTokens, List.append_nil]
    rfl
  | cons ops blocks ih =>
    obtain ⟨hops, hrest⟩ := List.forall_mem_cons.mp h
    have hsplit : Instr.blockTokens (ops :: blocks) = text "\x7b" ::
        ((Instr.listTokens ops ++ [(Open.argument n before).close]) ++
          Instr.blockTokens blocks) := by
      rw [Instr.blockTokens, List.append_assoc]
      rfl
    have hread : Reader.read { r with waiting := .call n before } (text "\x7b") =
        .ok (r.enter (.argument n before)) := by
      rw [Reader.read, if_pos rfl]
      rfl
    have hblock := read_enclosed hops (.argument n before) r
    have hleave : ({ r.enter (.argument n before) with ops := ops.reverse } : Reader).leave
        (.argument n before) r.ops r.opened = { r with waiting := .call n (before ++ [ops]) } := by
      simp [leave, enter]
    rw [hleave] at hblock
    rw [hsplit, foldlM_cons_of_ok hread, foldlM_append_of_ok hblock, ih hrest, List.append_assoc,
      List.singleton_append]

private theorem other_form {kw : String} (hkw : Name.isValid (text kw) = true) {names : List Name}
    (h : ∀ n ∈ names, Name.isValid n = true) (hr : r.settle = .ok r₀) :
    r.read (Instr.form kw (Name.commaList names)) =
      if text kw = text "call" then r₀.call { keyword := text kw, args := names }
      else if text kw = text "func" ∨ text kw = text "stack" then
        if r₀.opened.isEmpty then r₀.declare { keyword := text kw, args := names }
        else fail (.malformed (.notAtTop (text kw)))
      else plain.single r₀ (Instr.form kw (Name.commaList names)) := by
  obtain ⟨hopen, hclose, hbrace, hend⟩ := ne_bracket (head_form hkw (Name.commaList names))
  rw [read_of_settle hbrace hr, plain_eq_other hclose hend, plain.other,
    if_neg (not_or.mpr ⟨hclose, hend⟩), if_neg hbrace, if_neg hopen, ofToken?_form hkw h]

private theorem Adds.call {n : Name} (hn : Name.isValid n = true) {args : List (List Instr)}
    (h : ∀ ops ∈ args, Adds (Instr.listTokens ops) ops) :
    Adds (Instr.call n args).tokens [.call n args] := by
  intro r r₀ hr
  have hwaiting := waiting_of_settle hr
  have hnames : ∀ m ∈ [n], Name.isValid m = true := by simpa using hn
  have hread : r.read (Instr.form "call" n) = .ok { r₀ with waiting := .call n [] } := by
    refine (other_form (by decide) hnames hr).trans ?_
    rw [if_pos rfl, Reader.call]
    simp only [hn, if_true]
  refine ⟨{ r₀ with waiting := .call n args }, ?_, ?_⟩
  · rw [Instr.tokens, foldlM_cons_of_ok hread]
    exact read_blocks h n [] r₀
  · rw [settle, ← hwaiting]
    rfl

private theorem Adds.list (h : ∀ i ∈ ops, Adds i.tokens [i]) : Adds (Instr.listTokens ops) ops := by
  induction ops with
  | nil => exact .nil
  | cons i ops ih =>
    obtain ⟨hi, hrest⟩ := List.forall_mem_cons.mp h
    exact hi.append (ih hrest)

end Source.Reader

namespace Instr

open Source Reader

/-- An instruction with valid names is read back from its tokens. -/
theorem WellNamed.adds {i : Instr} (h : i.WellNamed) : Adds i.tokens [i] := by
  induction h with
  | op o => exact .single (.op o)
  | push data => exact .single (.push data)
  | assume h => exact .single (.assume h)
  | assign h => exact .single (.assign h)
  | var h => exact .single (.var h)
  | call h _ ih => exact .call h fun ops hops => .list (ih ops hops)
  | inner _ ih => exact .inner (.list ih)

private theorem isToken_list {ops : List Instr}
    (h : ∀ i ∈ ops, ∀ t ∈ i.tokens, Lexer.IsToken t) : ∀ t ∈ listTokens ops, Lexer.IsToken t := by
  rw [listTokens_eq]
  intro t ht
  obtain ⟨i, hi, ht⟩ := List.mem_flatMap.mp ht
  exact h i hi t ht

private theorem isToken_blocks {blocks : List (List Instr)}
    (h : ∀ ops ∈ blocks, ∀ t ∈ listTokens ops, Lexer.IsToken t) :
    ∀ t ∈ blockTokens blocks, Lexer.IsToken t := by
  induction blocks with
  | nil => exact nofun
  | cons ops blocks ih =>
    obtain ⟨hops, hrest⟩ := List.forall_mem_cons.mp h
    rw [blockTokens, List.cons_append]
    refine List.forall_mem_cons.mpr ⟨.bracket rfl, fun t ht => ?_⟩
    rcases List.mem_append.mp ht with ht | ht
    · exact hops t ht
    · exact List.forall_mem_cons.mpr ⟨.bracket rfl, ih hrest⟩ t ht

/-- An instruction with valid names is written as tokens. -/
theorem WellNamed.isToken {i : Instr} (h : i.WellNamed) : ∀ t ∈ i.tokens, Lexer.IsToken t := by
  induction h with
  | op o => exact List.forall_mem_singleton.mpr (ReadsAs.op o).token
  | push data => exact List.forall_mem_singleton.mpr (ReadsAs.push data).token
  | assume h => exact List.forall_mem_singleton.mpr (ReadsAs.assume h).token
  | assign h => exact List.forall_mem_singleton.mpr (ReadsAs.assign h).token
  | var h => exact List.forall_mem_singleton.mpr (ReadsAs.var h).token
  | @call n args h _ ih =>
    rw [tokens]
    have hnames : ∀ m ∈ [n], Name.isValid m = true := List.forall_mem_singleton.mpr h
    exact List.forall_mem_cons.mpr ⟨isToken_form (by decide) hnames,
      isToken_blocks fun ops hops => isToken_list (ih ops hops)⟩
  | inner _ ih =>
    rw [tokens, List.cons_append]
    refine List.forall_mem_cons.mpr ⟨.bracket rfl, fun t ht => ?_⟩
    rcases List.mem_append.mp ht with ht | ht
    · exact isToken_list ih t ht
    · rw [List.mem_singleton.mp ht]
      exact .bracket rfl

/-- Programs with valid names that are written alike are the same. -/
theorem eq_of_renderList_eq {a b : List Instr} (ha : ∀ i ∈ a, i.WellNamed)
    (hb : ∀ i ∈ b, i.WellNamed) (h : renderList a = renderList b) : a = b := by
  have hspaced (ops : List Instr) : Lexer.Spaced (listTokens ops) (renderList ops) := .join rfl _
  have htokens : listTokens a = listTokens b :=
    (hspaced a).unique (h ▸ hspaced b) (isToken_list fun i hi => (ha i hi).isToken)
      (isToken_list fun i hi => (hb i hi).isToken)
  -- the same tokens are read as both programs
  obtain ⟨r, hr, hsettle⟩ := Adds.list (fun i hi => (ha i hi).adds) {} {} rfl
  obtain ⟨r', hr', hsettle'⟩ := Adds.list (fun i hi => (hb i hi).adds) {} {} rfl
  rw [htokens, hr'] at hr
  cases hr
  rw [hsettle] at hsettle'
  have hops := congrArg Reader.ops (Except.ok.inj hsettle')
  simpa using hops

end Instr

namespace Source.Reader

variable {r r₀ : Reader}

private theorem read_function {f : Function} (hf : f.WellNamed) (hr : r.settle = .ok r₀)
    (htop : r₀.opened = []) :
    f.tokens.foldlM read r = .ok { r₀ with functions := r₀.functions ++ [f] } := by
  have hwaiting := waiting_of_settle hr
  have hall : (f.name :: f.params).all Name.isValid = true := List.all_eq_true.mpr hf.names
  have hread : r.read (Instr.form "func" (Name.commaList (f.name :: f.params))) =
      .ok { r₀ with waiting := .function f.name f.params } := by
    have hempty : r₀.opened.isEmpty = true := List.isEmpty_iff.mpr htop
    rw [other_form (by decide) hf.names hr, if_neg (by decide), if_pos (by decide), if_pos hempty,
      declare, hall]
    rfl
  have hopen : Reader.read { r₀ with waiting := .function f.name f.params } (text "\x7b") =
      .ok (r₀.enter (.body f.name f.params)) := by
    rw [Reader.read, if_pos rfl]
    rfl
  have hbody := read_enclosed (Adds.list fun i hi => (hf.body i hi).adds) (.body f.name f.params) r₀
  have hblock : Instr.blockTokens [f.body] =
      text "\x7b" :: (Instr.listTokens f.body ++ [(Open.body f.name f.params).close]) := by
    rw [Instr.blockTokens, Instr.blockTokens]
    rfl
  rw [Function.tokens, foldlM_cons_of_ok hread, hblock, foldlM_cons_of_ok hopen, hbody]
  simp [leave, enter, hwaiting]

private theorem read_functions {fs : List Function} (hfs : ∀ f ∈ fs, f.WellNamed)
    (hwaiting : r.waiting = .nothing) (htop : r.opened = []) :
    (fs.map Function.tokens).flatten.foldlM read r =
      .ok { r with functions := r.functions ++ fs } := by
  induction fs generalizing r with
  | nil =>
    rw [List.append_nil]
    rfl
  | cons f fs ih =>
    obtain ⟨hf, hrest⟩ := List.forall_mem_cons.mp hfs
    rw [List.map_cons, List.flatten_cons,
      foldlM_append_of_ok (read_function hf (settle_of_waiting hwaiting) htop)]
    refine (ih (r := { r with functions := r.functions ++ [f] }) hrest hwaiting htop).trans ?_
    rw [List.append_assoc, List.singleton_append]

private theorem read_stack {names : List Name} (h : ∀ n ∈ names, Name.isValid n = true) :
    read {} (Instr.form "stack" (Name.commaList names)) = .ok { stack := names } := by
  have hall : names.all Name.isValid = true := List.all_eq_true.mpr h
  have hempty : ({} : Reader).opened.isEmpty = true := rfl
  rw [other_form (by decide) h (settle_of_waiting rfl), if_neg (by decide), if_pos (by decide),
    if_pos hempty, declare, hall]
  rfl

end Source.Reader

namespace Program

open Source Reader

/-- The tokens of the written form, line by line. -/
def tokenLines (p : Program) : List (List Bytes) :=
  (if p.stack.isEmpty then [] else [[Instr.form "stack" (Name.commaList p.stack)]]) ++
    p.functions.map Function.tokens ++
    (if p.ops.isEmpty then [] else [Instr.listTokens p.ops])

/-- The tokens of the written form. -/
def tokens (p : Program) : List Bytes := p.tokenLines.flatten

private theorem lines_eq (p : Program) : p.lines = p.tokenLines.map (Bytes.join (text " ")) := by
  have hstack : (if p.stack.isEmpty then [] else [Instr.form "stack" (Name.commaList p.stack)]) =
      (if p.stack.isEmpty then [] else [[Instr.form "stack" (Name.commaList p.stack)]]).map
        (Bytes.join (text " ")) := by
    split <;> rfl
  have hops : (if p.ops.isEmpty then [] else [Instr.renderList p.ops]) =
      (if p.ops.isEmpty then [] else [Instr.listTokens p.ops]).map (Bytes.join (text " ")) := by
    split <;> rfl
  rw [lines, tokenLines, List.map_append, List.map_append, List.map_map, hstack, hops]
  rfl

private theorem listTokens_ne_nil {ops : List Instr} (h : ops ≠ []) :
    Instr.listTokens ops ≠ [] := by
  obtain ⟨i, rest, rfl⟩ := List.exists_cons_of_ne_nil h
  cases i with
  | call | inner => simp [Instr.listTokens, Instr.tokens]
  | _ => exact List.cons_ne_nil _ _

/-- The written form has the tokens with blanks between them. -/
theorem spaced_render (p : Program) : Lexer.Spaced p.tokens p.render := by
  rw [render, lines_eq]
  apply Lexer.Spaced.lines
  intro ts hts
  simp only [tokenLines, List.mem_append, List.mem_map] at hts
  rcases hts with (hts | ⟨f, -, rfl⟩) | hts
  · split at hts
    · cases hts
    · rw [List.mem_singleton.mp hts]
      exact List.cons_ne_nil _ _
  · exact List.cons_ne_nil _ _
  · split at hts
    · cases hts
    · next hops =>
      rw [List.mem_singleton.mp hts]
      exact listTokens_ne_nil (by simpa using hops)

private theorem isToken_of_mem_tokens {p : Program} (hp : p.WellNamed) :
    ∀ t ∈ p.tokens, Lexer.IsToken t := by
  intro t ht
  obtain ⟨ts, hts, ht⟩ := List.mem_flatten.mp ht
  simp only [tokenLines, List.mem_append, List.mem_map] at hts
  rcases hts with (hts | ⟨f, hf, rfl⟩) | hts
  · split at hts
    · cases hts
    · rw [List.mem_singleton.mp hts] at ht
      rw [List.mem_singleton.mp ht]
      exact isToken_form (by decide) hp.stack
  · have hf := hp.functions f hf
    rcases List.mem_cons.mp ht with rfl | ht
    · exact isToken_form (by decide) hf.names
    · refine Instr.isToken_blocks (fun ops hops => ?_) t ht
      rw [List.mem_singleton.mp hops]
      exact Instr.isToken_list fun i hi => (hf.body i hi).isToken
  · split at hts
    · cases hts
    · rw [List.mem_singleton.mp hts] at ht
      exact Instr.isToken_list (fun i hi => (hp.ops i hi).isToken) t ht

private theorem ofTokens_tokens {p : Program} (hp : p.WellNamed) : ofTokens p.tokens = .ok p := by
  have hstack : (if p.stack.isEmpty then []
      else [[Instr.form "stack" (Name.commaList p.stack)]]).flatten.foldlM read {} =
        .ok ({ stack := p.stack } : Reader) := by
    split
    · next h =>
      rw [List.isEmpty_iff.mp h]
      rfl
    · exact (foldlM_cons_of_ok (read_stack hp.stack) []).trans rfl
  have hops : Adds (if p.ops.isEmpty then [] else [Instr.listTokens p.ops]).flatten p.ops := by
    split
    · next h =>
      rw [List.isEmpty_iff.mp h]
      exact .nil
    · rw [List.flatten_singleton]
      exact .list fun i hi => (hp.ops i hi).adds
  obtain ⟨r, hr, hsettle⟩ := hops { stack := p.stack, functions := p.functions } _ rfl
  have hread : p.tokens.foldlM read {} = .ok r := by
    rw [tokens, tokenLines, List.flatten_append, List.flatten_append, List.append_assoc,
      foldlM_append_of_ok hstack, foldlM_append_of_ok (read_functions hp.functions rfl rfl)]
    exact hr
  rw [ofTokens, hread]
  change r.finish = _
  rw [finish, hsettle, List.append_nil]
  change Except.ok ({ p with ops := p.ops.reverse.reverse } : Program) = _
  rw [List.reverse_reverse]

/-- Reading the written form of a program that was read gives the program back, if no token of it is
too long to be read. -/
theorem parse_render {src : Bytes} {p : Program} (h : parse src = .ok p)
    (hlen : ∀ t ∈ p.tokens, t.length ≤ 65535) : parse p.render = .ok p := by
  have hp := wellNamed_of_parse h
  have htokens : Lexer.tokens p.render = .ok p.tokens :=
    Lexer.tokens_spaced p.spaced_render fun t ht =>
      ⟨isToken_of_mem_tokens hp t ht, Nat.lt_succ_of_le (hlen t ht)⟩
  rw [parse, htokens]
  exact ofTokens_tokens hp

/-- A text with a comment, blanks of all kinds, a quoted string and nested constructs. -/
def untidySource : Bytes :=
  text "# sums\nfunc(f,x)\x7bvar(x) -1\x7d\tstack( a ,b )\n" ++
    text "[call(f)\x7b 7 \x7d\x7b'ok'\x7d\x7b\x7d] call(f) nop2"

/-- The program of that text. -/
def untidyProgram : Program where
  stack := [[97], [98]]
  functions := [{ name := [102], params := [[120]], body := [.var [120], .op .minusOne] }]
  ops := [.inner [.call [102] [[.op (.small ⟨7, by decide⟩)], [.push [111, 107]], []]],
    .call [102] [], .op .checkLockTimeVerify]

/-- A source with blanks and comments. -/
theorem parse_render_untidy :
    parse untidySource = .ok untidyProgram ∧
    (∀ t ∈ untidyProgram.tokens, t.length ≤ 65535) ∧
    untidyProgram.render = text "stack(a, b)\nfunc(f, x) \x7b var(x) OP_1NEGATE \x7d\n" ++
      text "[ call(f) \x7b OP_7 \x7d \x7b 0x6f6b \x7d \x7b \x7d ] call(f) OP_CHECKLOCKTIMEVERIFY" ∧
    parse untidyProgram.render = .ok untidyProgram := by
  have hparse : parse untidySource = .ok untidyProgram := by rfl
  have hlen : ∀ t ∈ untidyProgram.tokens, t.length ≤ 65535 := by decide +kernel
  exact ⟨hparse, hlen, by rfl, parse_render hparse hlen⟩

end Program

end NamedStack
