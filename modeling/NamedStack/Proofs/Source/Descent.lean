import NamedStack.Proofs.Source.Literals

/-!
# Programs by position

Reading a program once more, by descent: the tokens are reached by position, and a construct that is
open is a call that has not come back. A position outside of the tokens is a fault, and so is a
descent that does not come back after as many steps as there are tokens. However brackets and braces
are nested, the descent reads what the reader reads, which holds the open constructs itself.
-/

namespace NamedStack

namespace Source

namespace Positional

open Sequence (get slice)

/-- A position in the tokens, with what was declared before it. -/
structure Cursor where
  pos : Nat := 0
  stack : List Name := []
  functions : List Function := []

/-- The cursor one token further. -/
def Cursor.next (p : Cursor) : Cursor := { p with pos := p.pos + 1 }

/-- The token at a cursor; empty at the end of the text. -/
def peek (toks : List Bytes) (p : Cursor) : Except Failure Bytes :=
  if p.pos < toks.length then (get toks p.pos).mapError .fault else .ok []

/-- A way to read what stands between braces. -/
abbrev Block := Cursor → Except Failure (List Instr × Cursor)

/-- The name of a call. -/
def callee (f : Form) : Except Failure Name :=
  if f.args.length ≠ 1 then fail (.badToken (Instr.form "call" (Name.commaList f.args)))
  else do
    let name ← (get f.args 0).mapError .fault
    if Name.isValid name then return name
    else fail (.badToken (Instr.form "call" (Name.commaList f.args)))

/-- Read the arguments of a call, behind those read so far. -/
def arguments (block : Block) (toks : List Bytes) :
    Nat → List (List Instr) → Cursor → Except Failure (List (List Instr) × Cursor)
  | 0, _, _ => .error (.fault .endless)
  | fuel + 1, args, p => do
    let tok ← peek toks p
    if tok = text "\x7b" then
      let r ← block p.next
      arguments block toks fuel (args ++ [r.1]) r.2
    else return (args, p)

/-- Read a declaration, which adds no instruction. -/
def declare (block : Block) (toks : List Bytes) (f : Form) (p : Cursor) :
    Except Failure (List Instr × Cursor) :=
  if !f.args.all Name.isValid then
    fail (.badToken (f.keyword ++ text "(" ++ Name.commaList f.args ++ text ")"))
  else if f.keyword = text "stack" then .ok ([], { p with stack := p.stack ++ f.args })
  else if f.args.length = 0 then fail (.malformed .unnamedFunction)
  else do
    let tok ← peek toks p
    let name ← (get f.args 0).mapError .fault
    if tok = text "\x7b" then
      let r ← block p.next
      let params ← (slice f.args 1 f.args.length).mapError .fault
      return ([], { r.2 with functions := r.2.functions ++ [{ name, params, body := r.1 }] })
    else fail (.malformed (.noBody name))

/-- Read what a token that is no bracket or brace stands for, with what belongs to it. -/
def item (block : Block) (toks : List Bytes) (fuel : Nat) (top : Bool) (tok : Bytes)
    (p : Cursor) : Except Failure (List Instr × Cursor) := do
  match ← (form? tok).mapError .fault with
  | some f =>
    if f.keyword = text "call" then
      let name ← callee f
      let r ← arguments block toks fuel [] p
      return ([.call name r.1], r.2)
    else if f.keyword = text "func" ∨ f.keyword = text "stack" then
      if top then declare block toks f p else fail (.malformed (.notAtTop f.keyword))
    else single
  | none => single
where
  /-- Read a token that is an instruction by itself. -/
  single : Except Failure (List Instr × Cursor) := do
    let i ← atom tok
    return ([i], p)

/-- Read instructions up to a closing token, or to the end of the text if that token is empty. -/
def sequence (toks : List Bytes) :
    Nat → Bytes → Bool → List Instr → Cursor → Except Failure (List Instr × Cursor)
  | 0, _, _, _, _ => .error (.fault .endless)
  | fuel + 1, close, top, ops, p =>
    if p.pos < toks.length then do
      let tok ← (get toks p.pos).mapError .fault
      if tok = close then return (ops, p.next)
      else if tok = text "]" ∨ tok = text "\x7d" then fail (.malformed (.unexpected tok))
      else if tok = text "\x7b" then fail (.malformed .strayBrace)
      else if tok = text "[" then
        let r ← sequence toks fuel (text "]") false [] p.next
        sequence toks fuel close top (ops ++ [.inner r.1]) r.2
      else
        let r ← item (sequence toks fuel (text "\x7d") false []) toks fuel top tok p.next
        sequence toks fuel close top (ops ++ r.1) r.2
    else if close = [] then .ok (ops, p)
    else fail (.malformed (.missing close))

/-- Read a program. -/
def parse (src : Bytes) : Except Failure Program := do
  let toks ← Lexer.Positional.tokens src
  let r ← sequence toks (toks.length + 1) [] true [] {}
  return { stack := r.2.stack, functions := r.2.functions, ops := r.1 }

/-! ### The rest of a text -/

/-- The program that a reader gives when it reads the rest of the tokens. -/
def complete (r : Reader) (toks : List Bytes) : Except Failure Program := do
  (← toks.foldlM Reader.read r).finish

/-- The reader at a cursor. -/
def Cursor.reader (p : Cursor) (opened : List (Open × List Instr)) (ops : List Instr)
    (waiting : Waiting) : Reader :=
  { stack := p.stack, functions := p.functions, opened, ops := ops.reverse, waiting }

private theorem complete_cons (r : Reader) (tok : Bytes) (toks : List Bytes) :
    complete r (tok :: toks) = r.read tok >>= fun r' => complete r' toks := by
  rw [complete, List.foldlM_cons]
  cases r.read tok <;> rfl

private theorem read_of_nothing {r : Reader} (h : r.waiting = .nothing) (tok : Bytes) :
    r.read tok = r.plain tok := by
  rw [Reader.read, Reader.settle, h]
  split_ifs <;> rfl

private theorem complete_of_settle (r : Reader) {toks : List Bytes}
    (h : toks.head? ≠ some (text "\x7b")) :
    complete r toks = r.settle >>= fun r' => complete r' toks := by
  cases toks with
  | nil =>
    change r.finish = r.settle >>= Reader.finish
    rw [Reader.finish]
    cases hw : r.waiting with
    | nothing =>
      have hsettle : r.settle = .ok r := by rw [Reader.settle, hw]
      rw [hsettle]
      change _ = r.finish
      rw [Reader.finish, hsettle]
    | call name args =>
      rw [Reader.settle, hw]
      rfl
    | function name params =>
      rw [Reader.settle, hw]
      rfl
  | cons tok toks =>
    have htok : tok ≠ text "\x7b" := fun heq => h (congrArg some heq)
    have hplain : r.read tok = r.settle >>= fun r' => r'.read tok := by
      rw [Reader.read, if_neg htok, Reader.settle]
      cases hw : r.waiting with
      | nothing => exact (read_of_nothing hw tok).symm
      | call name args => exact (read_of_nothing rfl tok).symm
      | function name params => rfl
    rw [complete_cons, hplain]
    cases r.settle with
    | error e => rfl
    | ok r' => exact (complete_cons r' tok toks).symm

private theorem peek_cases (toks : List Bytes) (p : Cursor) :
    (peek toks p = .ok (text "\x7b") ∧ p.pos < toks.length ∧
      toks.drop p.pos = text "\x7b" :: toks.drop p.next.pos) ∨
    ∃ tok, peek toks p = .ok tok ∧ tok ≠ text "\x7b" ∧
      (toks.drop p.pos).head? ≠ some (text "\x7b") := by
  rw [peek]
  by_cases hlt : p.pos < toks.length
  · obtain ⟨tok, rest, hdrop, hget, rfl⟩ := Sequence.exists_get hlt
    rw [if_pos hlt, hget, hdrop]
    by_cases htok : tok = text "\x7b"
    · subst htok
      exact .inl ⟨rfl, hlt, rfl⟩
    · exact .inr ⟨tok, rfl, htok, fun heq => htok (Option.some.inj heq)⟩
  · rw [if_neg hlt, List.drop_eq_nil_of_le (by omega)]
    exact .inr ⟨[], rfl, by decide, by simp⟩

/-! ### Agreement -/

/-- Reading a part from a position agrees with reading all of the rest: if the part fails, the rest
fails alike, and otherwise the rest goes on behind the part. -/
inductive Agrees {β : Type} (rest : Except Failure Program) (start : Nat)
    (next : β → Cursor → Except Failure Program) : Except Failure (β × Cursor) → Prop
  | failed {e : Failure} (h : rest = .error e) : Agrees rest start next (.error e)
  | done {b : β} {p : Cursor} (hpos : start ≤ p.pos) (h : rest = next b p) :
      Agrees rest start next (.ok (b, p))

variable {rest : Except Failure Program} {start start' : Nat} {β : Type}
  {opened : List (Open × List Instr)} {ops : List Instr} {tok : Bytes}

private theorem Agrees.mono {next : β → Cursor → Except Failure Program}
    {x : Except Failure (β × Cursor)} (h : Agrees rest start next x) (hle : start' ≤ start) :
    Agrees rest start' next x := by
  cases h with
  | failed h => exact .failed h
  | done hpos h => exact .done (hle.trans hpos) h

/-- Reading goes on behind a part. -/
theorem Agrees.bind {γ : Type} {next : β → Cursor → Except Failure Program}
    {next' : γ → Cursor → Except Failure Program} {x : Except Failure (β × Cursor)}
    {f : β × Cursor → Except Failure (γ × Cursor)} (hx : Agrees rest start next x)
    (hle : start' ≤ start) (hf : ∀ b p, start ≤ p.pos → Agrees (next b p) p.pos next' (f (b, p))) :
    Agrees rest start' next' (x >>= f) := by
  cases hx with
  | failed h => exact .failed h
  | done hpos h =>
    rw [h]
    exact (hf _ _ hpos).mono (hle.trans hpos)

private theorem Agrees.bind_eq {next : β → Cursor → Except Failure Program}
    {x : Except Failure (β × Cursor)} (h : Agrees rest start next x) :
    (x >>= fun r => next r.1 r.2) = rest := by
  cases h with
  | failed h => exact h.symm
  | done hpos h => exact h.symm

/-- The token that closes the innermost construct; empty if there is none. -/
def closing : List (Open × List Instr) → Bytes
  | [] => []
  | (o, _) :: _ => o.close

/-- How the rest is read behind the innermost construct, given its content. -/
def behind (toks : List Bytes) (opened : List (Open × List Instr)) (ops : List Instr)
    (p : Cursor) : Except Failure Program :=
  match opened with
  | [] => .ok { stack := p.stack, functions := p.functions, ops }
  | (o, before) :: outer =>
    complete ((p.reader opened ops .nothing).leave o before outer) (toks.drop p.pos)

/-- Whether braces are read as the reader reads them, wherever enough steps are left. -/
def ReadsBraces (toks : List Bytes) (fuel : Nat) (block : Block) : Prop :=
  ∀ (o : Open) (before : List Instr) (outer : List (Open × List Instr)) (p : Cursor),
    o.close = text "\x7d" → toks.length - p.pos < fuel →
      Agrees (complete (p.reader ((o, before) :: outer) [] .nothing) (toks.drop p.pos)) p.pos
        (behind toks ((o, before) :: outer)) (block p)

private theorem leave_argument (p : Cursor) (opened outer : List (Open × List Instr))
    (content ops : List Instr) (name : Name) (args : List (List Instr)) :
    (p.reader opened content .nothing).leave (.argument name args) ops.reverse outer =
      p.reader outer ops (.call name (args ++ [content])) := by
  simp [Reader.leave, Cursor.reader]

private theorem leave_inner (p : Cursor) (opened outer : List (Open × List Instr))
    (content ops : List Instr) :
    (p.reader opened content .nothing).leave .inner ops.reverse outer =
      p.reader outer (ops ++ [.inner content]) .nothing := by
  simp [Reader.leave, Cursor.reader]

variable {toks : List Bytes} {fuel : Nat} {block : Block}

private theorem arguments_agrees (hblock : ReadsBraces toks fuel block) {name : Name} {k : Nat}
    (args : List (List Instr)) (p : Cursor) (hk : toks.length - p.pos < k) (hle : k ≤ fuel) :
    Agrees (complete (p.reader opened ops (.call name args)) (toks.drop p.pos)) p.pos
      (fun args' p' => complete (p'.reader opened (ops ++ [.call name args']) .nothing)
        (toks.drop p'.pos))
      (arguments block toks k args p) := by
  induction k generalizing args p with
  | zero => omega
  | succ k ih =>
    rw [arguments]
    rcases peek_cases toks p with ⟨hpeek, hlt, hdrop⟩ | ⟨tok, hpeek, htok, hhead⟩
    · have hnext : p.next.pos = p.pos + 1 := rfl
      have harg := hblock (.argument name args) ops.reverse opened p.next rfl (by omega)
      rw [hpeek, hdrop, complete_cons]
      refine harg.bind (by omega) fun arg p' hpos => ?_
      rw [behind, leave_argument]
      exact ih (args ++ [arg]) p' (by omega) (by omega)
    · rw [hpeek, complete_of_settle _ hhead]
      change Agrees _ _ _ (if tok = _ then _ else _)
      rw [if_neg htok]
      refine .done (Nat.le_refl _) ?_
      change complete _ _ = complete _ _
      simp [Cursor.reader]

private theorem declare_agrees (hblock : ReadsBraces toks fuel block) (f : Form) (p : Cursor)
    (hfuel : toks.length - p.pos < fuel) :
    Agrees ((p.reader [] ops .nothing).declare f >>= fun r => complete r (toks.drop p.pos)) p.pos
      (fun new p' => complete (p'.reader [] (ops ++ new) .nothing) (toks.drop p'.pos))
      (declare block toks f p) := by
  obtain ⟨keyword, args⟩ := f
  rw [declare, Reader.declare]
  dsimp only
  split_ifs with hnames hstack hempty
  · exact .failed rfl
  · refine .done (Nat.le_refl _) ?_
    rw [List.append_nil]
    rfl
  · obtain rfl := List.eq_nil_of_length_eq_zero hempty
    exact .failed rfl
  · obtain ⟨name, params, rfl⟩ :=
      List.exists_cons_of_ne_nil (fun h => hempty (congrArg List.length h))
    change Agrees (complete (p.reader [] ops (.function name params)) _) _ _ _
    rcases peek_cases toks p with ⟨hpeek, hlt, hdrop⟩ | ⟨tok, hpeek, htok, hhead⟩
    · have hnext : p.next.pos = p.pos + 1 := rfl
      have hbody := hblock (.body name params) ops.reverse [] p.next rfl (by omega)
      have hparams : slice (name :: params) 1 (name :: params).length = .ok params :=
        Sequence.slice_toEnd (i := 1) (Nat.succ_le_succ (Nat.zero_le _))
      rw [hpeek, hdrop, complete_cons, hparams]
      refine hbody.bind (by omega) fun body p' hpos => .done (Nat.le_refl _) ?_
      rw [behind, Reader.leave, Cursor.reader, List.reverse_reverse, List.append_nil]
      rfl
    · rw [hpeek, complete_of_settle _ hhead]
      change Agrees _ _ _ (if tok = _ then _ else _)
      rw [if_neg htok]
      exact .failed rfl

private theorem call_eq (r : Reader) (f : Form) :
    r.call f = callee f >>= fun name => .ok { r with waiting := .call name [] } := by
  obtain ⟨keyword, args⟩ := f
  rcases args with _ | ⟨name, _ | ⟨_, _⟩⟩
  · rfl
  · change (if Name.isValid name then _ else _) = (if Name.isValid name then _ else _) >>= _
    split_ifs <;> rfl
  · rfl

private theorem single_agrees (p : Cursor) (htok : Lexer.Lexed tok) :
    Agrees (Reader.plain.single (p.reader opened ops .nothing) tok >>= fun r =>
        complete r (toks.drop p.pos)) p.pos
      (fun new p' => complete (p'.reader opened (ops ++ new) .nothing) (toks.drop p'.pos))
      (item.single tok p) := by
  rw [Reader.plain.single, item.single, atom_eq htok]
  cases Source.atom tok with
  | error e => exact .failed rfl
  | ok i =>
    refine .done (Nat.le_refl _) ?_
    simp only [Cursor.reader, List.reverse_append]
    rfl

private theorem item_agrees (hblock : ReadsBraces toks fuel block)
    (p : Cursor)
    (hfuel : toks.length - p.pos < fuel) (htok : Lexer.Lexed tok)
    (hclose : ¬(tok = text "]" ∨ tok = text "\x7d")) (hbrace : tok ≠ text "\x7b")
    (hinner : tok ≠ text "[") :
    Agrees (Reader.plain.other (p.reader opened ops .nothing) tok >>= fun r =>
        complete r (toks.drop p.pos)) p.pos
      (fun new p' => complete (p'.reader opened (ops ++ new) .nothing) (toks.drop p'.pos))
      (item block toks fuel opened.isEmpty tok p) := by
  rw [Reader.plain.other, if_neg hclose, if_neg hbrace, if_neg hinner, item, form?_eq]
  cases Form.ofToken? tok with
  | none => exact single_agrees p htok
  | some f =>
    change Agrees ((if f.keyword = text "call" then _ else if _ ∨ _ then _ else _) >>= _) _ _
      (if f.keyword = text "call" then _ else if _ ∨ _ then _ else _)
    by_cases hcall : f.keyword = text "call"
    · rw [if_pos hcall, if_pos hcall, call_eq]
      cases callee f with
      | error e => exact .failed rfl
      | ok name =>
        refine (arguments_agrees hblock [] p hfuel (Nat.le_refl _)).bind (Nat.le_refl _)
          fun args p' _ => ?_
        exact .done (Nat.le_refl _) rfl
    rw [if_neg hcall, if_neg hcall]
    by_cases hdecl : f.keyword = text "func" ∨ f.keyword = text "stack"
    · rw [if_pos hdecl, if_pos hdecl]
      cases opened with
      | nil => exact declare_agrees hblock f p hfuel
      | cons o opened => exact .failed rfl
    · rw [if_neg hdecl, if_neg hdecl]
      exact single_agrees p htok

private theorem plain_closing (p : Cursor) (o : Open × List Instr)
    (outer : List (Open × List Instr)) (ops : List Instr) :
    (p.reader (o :: outer) ops .nothing).plain (closing (o :: outer)) =
      .ok ((p.reader (o :: outer) ops .nothing).leave o.1 o.2 outer) :=
  if_pos rfl

private theorem plain_of_ne {p : Cursor} (h : tok ≠ closing opened) :
    (p.reader opened ops .nothing).plain tok =
      Reader.plain.other (p.reader opened ops .nothing) tok := by
  cases opened with
  | nil => rfl
  | cons o opened => exact if_neg h

/-- Instructions are read up to the token that closes the innermost construct. -/
theorem sequence_agrees (htoks : ∀ tok ∈ toks, Lexer.Lexed tok)
    (opened : List (Open × List Instr)) (ops : List Instr) (p : Cursor)
    (hfuel : toks.length - p.pos < fuel) :
    Agrees (complete (p.reader opened ops .nothing) (toks.drop p.pos)) p.pos (behind toks opened)
      (sequence toks fuel (closing opened) opened.isEmpty ops p) := by
  -- By induction on the steps left, for every stack of open constructs: what a call is entered with
  -- is one more construct, and coming back from it is leaving that construct.
  induction fuel generalizing opened ops p with
  | zero => omega
  | succ fuel ih =>
    rw [sequence]
    by_cases hlt : p.pos < toks.length
    · obtain ⟨tok, rest, hdrop, hget, rfl⟩ := Sequence.exists_get hlt
      have htok : Lexer.Lexed tok :=
        htoks tok (List.mem_of_mem_drop (hdrop ▸ List.mem_cons_self))
      rw [if_pos hlt, hget, hdrop, complete_cons, read_of_nothing rfl]
      change Agrees _ _ _ (if tok = closing opened then _ else if _ ∨ _ then _ else if _ then _ else
        if _ then _ else _)
      by_cases hclosing : tok = closing opened
      · rw [if_pos hclosing]
        refine .done (Nat.le_succ _) ?_
        cases opened with
        | nil => exact absurd hclosing htok.ne_nil
        | cons o outer =>
          rw [hclosing, plain_closing]
          rfl
      rw [if_neg hclosing, plain_of_ne hclosing]
      have hnext : p.next.pos = p.pos + 1 := rfl
      by_cases hclose : tok = text "]" ∨ tok = text "\x7d"
      · rw [if_pos hclose, Reader.plain.other, if_pos hclose]
        exact .failed rfl
      by_cases hbrace : tok = text "\x7b"
      · rw [if_neg hclose, if_pos hbrace, Reader.plain.other, if_neg hclose, if_pos hbrace]
        exact .failed rfl
      rw [if_neg hclose, if_neg hbrace]
      by_cases hinner : tok = text "["
      · rw [if_pos hinner, Reader.plain.other, if_neg hclose, if_neg hbrace, if_pos hinner]
        refine (ih ((.inner, ops.reverse) :: opened) [] p.next (by omega)).bind (by omega)
          fun body p' hpos => ?_
        rw [behind, leave_inner]
        exact ih opened (ops ++ [.inner body]) p' (by omega)
      · rw [if_neg hinner]
        have hblock : ReadsBraces toks fuel (sequence toks fuel (text "\x7d") false []) := by
          intro o before outer q hclose hq
          rw [← hclose]
          exact ih ((o, before) :: outer) [] q hq
        refine (item_agrees hblock p.next (by omega) htok hclose hbrace hinner).bind (by omega)
          fun new p' hpos => ?_
        exact ih opened (ops ++ new) p' (by omega)
    · rw [if_neg hlt, List.drop_eq_nil_of_le (by omega)]
      cases opened with
      | nil =>
        refine .done (Nat.le_refl _) ?_
        change Except.ok (Program.mk p.stack p.functions ops.reverse.reverse) = _
        rw [List.reverse_reverse]
        rfl
      | cons o outer =>
        have hclose : o.1.close ≠ [] := by
          cases o.1 <;> exact List.cons_ne_nil _ _
        rw [closing, if_neg hclose]
        exact .failed rfl

/-- By descent, a text is read as by the reader. -/
theorem parse_eq (src : Bytes) : parse src = Program.parse src := by
  rw [parse, Lexer.Positional.tokens_eq, Program.parse]
  cases htoks : Lexer.tokens src with
  | error c => rfl
  | ok toks =>
    exact (sequence_agrees (Lexer.lexed_of_mem_tokens htoks) [] [] {} (Nat.lt_succ_self _)).bind_eq

end Positional

end Source

end NamedStack
