import NamedStack.Proofs.Script.Tokens
import NamedStack.Proofs.Source.Tokens
import NamedStack.Source.Parser

/-!
# Single tokens

What an instruction or the head of a declaration is written as is one token, and reading that token
gives the instruction or the head back: a keyword with names in parentheses, data in hexadecimal, or
the name of an opcode.
-/

namespace NamedStack

namespace Name

variable {c : UInt8}

private theorem isNameByte_of_first (h : isNameByte true c = true) : isNameByte false c = true := by
  simp only [isNameByte, Bool.or_eq_true, Bool.and_eq_true] at h ⊢
  rcases h with h | ⟨⟨h, -⟩, -⟩
  · exact .inl h
  · cases h

/-- A name has some byte, and all of its bytes may stand in a name. -/
theorem of_isValid {n : Name} (h : isValid n = true) :
    n ≠ [] ∧ ∀ c ∈ n, isNameByte false c = true := by
  cases n with
  | nil => cases h
  | cons c rest =>
    simp only [isValid, Bool.and_eq_true, List.all_eq_true] at h
    exact ⟨List.cons_ne_nil _ _, List.forall_mem_cons.mpr ⟨isNameByte_of_first h.1, h.2⟩⟩

/-- The bytes that are special in a list of names or around it. -/
theorem special_of_isNameByte (h : isNameByte false c = true) :
    c ≠ 35 ∧ c ≠ 39 ∧ c ≠ 40 ∧ c ≠ 41 ∧ c ≠ 44 ∧ Lexer.isBlank c = false ∧
      Lexer.isBracket c = false := by
  refine ⟨?_, ?_, ?_, ?_, ?_, ?_, ?_⟩
  iterate 5
    rintro rfl
    cases h
  all_goals
    revert c
    decide +kernel

end Name

/-! ### White space -/

namespace Text

variable {b : Bytes}

private theorem dropFronts_eq_self {fronts : List Bytes}
    (hf : ∀ f ∈ fronts, f.head?.any (fun c => !Name.isNameByte false c) = true)
    (hb : ∀ c ∈ b.head?, Name.isNameByte false c = true) (n : Nat) : dropFronts fronts n b = b := by
  cases n with
  | zero => rfl
  | succ n =>
    have hnone : fronts.find? (·.isPrefixOf b) = none := by
      rw [List.find?_eq_none]
      intro f hmem hfront
      have hany := hf f hmem
      cases f with
      | nil => cases hany
      | cons c f =>
        obtain ⟨rest, rfl⟩ := List.isPrefixOf_iff_prefix.mp hfront
        have hc : Name.isNameByte false c = true := hb c rfl
        simp [hc] at hany
    rw [dropFronts, hnone]

private theorem blanks_foreign :
    ∀ f ∈ blanks, f.head?.any (fun c => !Name.isNameByte false c) = true := by decide

private theorem blanks_reverse_foreign :
    ∀ f ∈ blanks.map List.reverse, f.head?.any (fun c => !Name.isNameByte false c) = true := by
  decide

/-- Whether a text starts and ends with bytes of names. -/
def Tight (b : Bytes) : Prop :=
  (∀ c ∈ b.head?, Name.isNameByte false c = true) ∧ ∀ c ∈ b.getLast?, Name.isNameByte false c = true

private theorem trim_tight (h : Tight b) : trim b = b := by
  have hlast : ∀ c ∈ b.reverse.head?, Name.isNameByte false c = true := by
    rw [List.head?_reverse]
    exact h.2
  simp only [trim]
  rw [dropFronts_eq_self blanks_foreign h.1, dropFronts_eq_self blanks_reverse_foreign hlast,
    List.reverse_reverse]

/-- A space in front is dropped. -/
theorem trim_space (h : Tight b) : trim (32 :: b) = b := by
  have hfront : dropFronts blanks (32 :: b).length (32 :: b) = dropFronts blanks b.length b := rfl
  have hsame : trim (32 :: b) = trim b := by
    simp only [trim]
    rw [hfront]
  rw [hsame, trim_tight h]

end Text

/-! ### Lists of names -/

namespace Bytes

variable {b : Bytes} {sep : UInt8}

private theorem splitOn_of_not_mem (h : sep ∉ b) : splitOn sep b = [b] := by
  induction b with
  | nil => rfl
  | cons c b ih =>
    rw [List.mem_cons, not_or] at h
    obtain ⟨hc, hb⟩ := h
    rw [splitOn, if_neg (Ne.symm hc), ih hb]

private theorem splitOn_append (h : sep ∉ b) (rest : Bytes) :
    splitOn sep (b ++ sep :: rest) = b :: splitOn sep rest := by
  induction b with
  | nil => rw [List.nil_append, splitOn, if_pos rfl]
  | cons c b ih =>
    rw [List.mem_cons, not_or] at h
    obtain ⟨hc, hb⟩ := h
    rw [List.cons_append, splitOn, if_neg (Ne.symm hc), ih hb]

end Bytes

namespace Name

variable {names : List Name}

private theorem commaList_cons_cons (a b : Name) (rest : List Name) :
    commaList (a :: b :: rest) = a ++ 44 :: 32 :: commaList (b :: rest) := by
  have hsep : text ", " = [44, 32] := by decide
  rw [commaList, Bytes.join, hsep, List.append_assoc]
  · rfl
  · exact List.cons_ne_nil _ _

private theorem tight_of_isValid {n : Name} (h : isValid n = true) : Text.Tight n :=
  ⟨fun c hc => (of_isValid h).2 c (List.mem_of_mem_head? hc),
    fun c hc => (of_isValid h).2 c (List.mem_of_mem_getLast? hc)⟩

/-- What stands between the parentheses of a form: bytes of names, commas and spaces. -/
theorem mem_commaList (h : ∀ n ∈ names, isValid n = true) {c : UInt8} (hc : c ∈ commaList names) :
    isNameByte false c = true ∨ c = 44 ∨ c = 32 := by
  induction names with
  | nil => cases hc
  | cons a names ih =>
    obtain ⟨ha, hrest⟩ := List.forall_mem_cons.mp h
    cases names with
    | nil => exact .inl ((of_isValid ha).2 c hc)
    | cons b names =>
      rw [commaList_cons_cons] at hc
      rcases List.mem_append.mp hc with hc | hc
      · exact .inl ((of_isValid ha).2 c hc)
      · rcases List.mem_cons.mp hc with hc | hc
        · exact .inr (.inl hc)
        · rcases List.mem_cons.mp hc with hc | hc
          · exact .inr (.inr hc)
          · exact ih hrest hc

variable {a : Name}

private theorem commaList_ne_nil (ha : isValid a = true) (rest : List Name) :
    commaList (a :: rest) ≠ [] := by
  cases rest with
  | nil => exact (of_isValid ha).1
  | cons b rest =>
    rw [commaList_cons_cons]
    exact List.append_ne_nil_of_left_ne_nil (of_isValid ha).1 _

private theorem commaList_tight (h : ∀ n ∈ names, isValid n = true) :
    Text.Tight (commaList names) := by
  induction names with
  | nil => exact ⟨nofun, nofun⟩
  | cons a names ih =>
    obtain ⟨ha, hrest⟩ := List.forall_mem_cons.mp h
    cases names with
    | nil => exact tight_of_isValid ha
    | cons b names =>
      have hb := hrest b List.mem_cons_self
      have hne : commaList (b :: names) ≠ [] := commaList_ne_nil hb names
      rw [commaList_cons_cons]
      constructor
      · rw [List.head?_append_of_ne_nil _ (of_isValid ha).1]
        exact (tight_of_isValid ha).1
      · have hsplit : a ++ 44 :: 32 :: commaList (b :: names) =
            (a ++ [44, 32]) ++ commaList (b :: names) := by simp
        rw [hsplit, List.getLast?_append_of_ne_nil _ hne]
        exact (ih hrest).2

private theorem trim_commaList (h : ∀ n ∈ names, isValid n = true) :
    Text.trim (commaList names) = commaList names :=
  Text.trim_tight (commaList_tight h)

private theorem splitOn_commaList (h : ∀ n ∈ a :: names, isValid n = true) :
    Bytes.splitOn 44 (commaList (a :: names)) = a :: names.map (32 :: ·) := by
  have hcomma {n : Name} (hn : isValid n = true) : (44 : UInt8) ∉ n :=
    fun hc => (special_of_isNameByte ((of_isValid hn).2 44 hc)).2.2.2.2.1 rfl
  induction names generalizing a with
  | nil => exact Bytes.splitOn_of_not_mem (hcomma (h a List.mem_cons_self))
  | cons b names ih =>
    obtain ⟨ha, hrest⟩ := List.forall_mem_cons.mp h
    rw [commaList_cons_cons, Bytes.splitOn_append (hcomma ha), Bytes.splitOn, if_neg (by decide),
      ih hrest]
    rfl

private theorem map_trim_splitOn (h : ∀ n ∈ a :: names, isValid n = true) :
    (Bytes.splitOn 44 (commaList (a :: names))).map Text.trim = a :: names := by
  obtain ⟨ha, hrest⟩ := List.forall_mem_cons.mp h
  rw [splitOn_commaList h, List.map_cons, Text.trim_tight (tight_of_isValid ha), List.map_map]
  congr 1
  have hid : ∀ n ∈ names, (Text.trim ∘ (32 :: ·)) n = n :=
    fun n hn => Text.trim_space (tight_of_isValid (hrest n hn))
  rw [List.map_congr_left hid, List.map_id']

end Name

/-! ### Forms -/

namespace Source

private theorem takeWhile_form {kw inside : Bytes} (hkw : (40 : UInt8) ∉ kw) :
    (kw ++ 40 :: inside).takeWhile (· ≠ 40) = kw := by
  rw [List.takeWhile_append_of_pos, List.takeWhile_cons_of_neg, List.append_nil]
  · simp
  · intro c hc
    simpa using fun he : c = 40 => hkw (he ▸ hc)

variable {b : Bytes} {kw : String} {n : Name}

private theorem not_mem_of_nameBytes (h : ∀ c ∈ b, Name.isNameByte false c = true) :
    (40 : UInt8) ∉ b :=
  fun hc => (Name.special_of_isNameByte (h 40 hc)).2.2.1 rfl

private theorem form_eq (kw : String) (inside : Bytes) :
    Instr.form kw inside = text kw ++ 40 :: (inside ++ [41]) := by
  have hopen : text "(" = [40] := by decide
  have hclose : text ")" = [41] := by decide
  simp [Instr.form, hopen, hclose]

variable {names : List Name}

/-- A keyword with names in parentheses is read back. -/
theorem ofToken?_form (hkw : Name.isValid (text kw) = true)
    (h : ∀ n ∈ names, Name.isValid n = true) :
    Form.ofToken? (Instr.form kw (Name.commaList names)) =
      some { keyword := text kw, args := names } := by
  obtain ⟨hne, hbytes⟩ := Name.of_isValid hkw
  rw [form_eq, Form.ofToken?, takeWhile_form (not_mem_of_nameBytes hbytes)]
  have hinside :
      ((text kw ++ 40 :: (Name.commaList names ++ [41])).drop ((text kw).length + 1)).dropLast
      = Name.commaList names := by
    rw [List.drop_append, List.drop_of_length_le (Nat.le_succ _), Nat.add_sub_cancel_left]
    exact List.dropLast_concat
  have hlast : (text kw ++ 40 :: (Name.commaList names ++ [41])).getLast? = some 41 := by
    rw [← List.cons_append, ← List.append_assoc, List.getLast?_concat]
  have hlen : (text kw).length ≠ (text kw ++ 40 :: (Name.commaList names ++ [41])).length := by
    simp
  have hempty : (text kw).isEmpty = false := by simpa using hne
  simp only [hinside, hlast, hlen, hempty, Name.trim_commaList h]
  cases names with
  | nil => rfl
  | cons a names =>
    have hsome : (Name.commaList (a :: names)).isEmpty = false := by
      simpa using Name.commaList_ne_nil (h a List.mem_cons_self) names
    simp [hsome, Name.map_trim_splitOn h]

/-- What has no parenthesis is no keyword with arguments. -/
theorem ofToken?_eq_none (h : (40 : UInt8) ∉ b) : Form.ofToken? b = none := by
  have hall : b.takeWhile (· ≠ 40) = b := by
    rw [List.takeWhile_eq_self_iff]
    intro c hc
    simpa using fun he : c = 40 => h (he ▸ hc)
  simp only [Form.ofToken?]
  rw [hall, if_pos (by simp)]

private theorem atom_form (hkw : Name.isValid (text kw) = true) (hn : Name.isValid n = true) :
    atom (Instr.form kw n) =
      if text kw = text "assume" then .ok (.assume n)
      else if text kw = text "assign" then .ok (.assign n)
      else if text kw = text "var" then .ok (.var n)
      else fail (.badToken (Instr.form kw n)) := by
  have hnames : ∀ m ∈ [n], Name.isValid m = true := by simpa using hn
  have hform : Form.ofToken? (Instr.form kw n) = some { keyword := text kw, args := [n] } :=
    ofToken?_form hkw hnames
  rw [atom, hform]
  simp only [hn, Bool.not_true, Bool.false_eq_true, if_false]

private theorem atom_assume (hn : Name.isValid n = true) :
    atom (Instr.form "assume" n) = .ok (.assume n) := by
  rw [atom_form (by decide) hn, if_pos rfl]

private theorem atom_assign (hn : Name.isValid n = true) :
    atom (Instr.form "assign" n) = .ok (.assign n) := by
  rw [atom_form (by decide) hn, if_neg (by decide), if_pos rfl]

private theorem atom_var (hn : Name.isValid n = true) :
    atom (Instr.form "var" n) = .ok (.var n) := by
  rw [atom_form (by decide) hn, if_neg (by decide), if_neg (by decide), if_pos rfl]

private theorem encode_nameBytes (data : Bytes) :
    ∀ c ∈ Hex.encode data, Name.isNameByte false c = true := by
  have hdigit : ∀ n < 16, Name.isNameByte false (Hex.digit n) = true := by decide
  intro c hc
  obtain ⟨b, -, hb⟩ := List.mem_flatMap.mp hc
  have hlt : b.toNat < 256 := b.toNat_lt
  rcases List.mem_cons.mp hb with rfl | hb
  · exact hdigit _ (by omega)
  · rw [List.mem_singleton.mp hb]
    exact hdigit _ (by omega)

private theorem push_nameBytes (data : Bytes) :
    ∀ c ∈ text "0x" ++ Hex.encode data, Name.isNameByte false c = true := by
  have hx : (text "0x").all (Name.isNameByte false) = true := by decide
  intro c hc
  exact (List.mem_append.mp hc).elim (List.all_eq_true.mp hx c) (encode_nameBytes data c)

private theorem atom_push (data : Bytes) :
    atom (text "0x" ++ Hex.encode data) = .ok (.push data) := by
  have hfront : Bytes.dropFront? (text "0x") (text "0x" ++ Hex.encode data) =
      some (Hex.encode data) := by
    rw [Bytes.dropFront?, if_pos (List.isPrefixOf_iff_prefix.mpr (List.prefix_append _ _)),
      List.drop_left]
  rw [atom, ofToken?_eq_none (not_mem_of_nameBytes (push_nameBytes data)), hfront]
  simp only [Hex.decode_encode]

private theorem name_nameBytes (o : Opcode) : ∀ c ∈ o.name, Name.isNameByte false c = true :=
  List.all_eq_true.mp <|
    Opcode.forall_of_all (P := fun o => o.name.all (Name.isNameByte false) = true)
      (by decide +kernel) o

private theorem ofName?_name (o : Opcode) : Opcode.ofName? o.name = some o :=
  Opcode.forall_of_all (P := fun o => Opcode.ofName? o.name = some o) (by decide +kernel) o

private theorem atom_op (o : Opcode) : atom o.name = .ok (.op o) := by
  have hparen := ofToken?_eq_none (not_mem_of_nameBytes (name_nameBytes o))
  have hname := ofName?_name o
  obtain ⟨rest, hrest⟩ : ∃ rest, o.name = 79 :: rest := ⟨_, rfl⟩
  rw [hrest] at hparen hname ⊢
  rw [atom, hparen]
  have hfront : Bytes.dropFront? (text "0x") (79 :: rest) = none := rfl
  have hquoted : quoted? (79 :: rest) = none := rfl
  have hint : Text.readInt (79 :: rest) = .error .invalid := rfl
  rw [hfront, hquoted, hint, hname]

/-! ### Tokens -/

private theorem isToken_of_nameByte {c : UInt8} {rest : Bytes} (hc : Name.isNameByte false c = true)
    (hclosed : Lexer.wordLength 0 0 (c :: rest) = (rest.length + 1, 0, false)) :
    Lexer.IsToken (c :: rest) := by
  obtain ⟨hcomment, hquote, -, -, -, hblank, hbracket⟩ := Name.special_of_isNameByte hc
  exact .word hblank hcomment hbracket hquote hclosed

private theorem wordLength_nameBytes (h : ∀ c ∈ b, Name.isNameByte false c = true) (n : Nat) :
    Lexer.wordLength 0 n b = (n + b.length, 0, false) := by
  refine Lexer.wordLength_inside (fun c hc => ?_) n
  obtain ⟨-, -, hopen, hclose, -, hblank, hbracket⟩ := Name.special_of_isNameByte (h c hc)
  exact ⟨hopen, hclose, .inr ⟨hblank, hbracket⟩⟩

private theorem isToken_nameBytes (hne : b ≠ []) (h : ∀ c ∈ b, Name.isNameByte false c = true) :
    Lexer.IsToken b := by
  obtain ⟨c, rest, rfl⟩ := List.exists_cons_of_ne_nil hne
  refine isToken_of_nameByte (h c List.mem_cons_self) ?_
  rw [wordLength_nameBytes h, Nat.zero_add, List.length_cons]

/-- A form is one token. -/
theorem isToken_form (hkw : Name.isValid (text kw) = true)
    (h : ∀ n ∈ names, Name.isValid n = true) :
    Lexer.IsToken (Instr.form kw (Name.commaList names)) := by
  obtain ⟨hne, hbytes⟩ := Name.of_isValid hkw
  have hinside : ∀ c ∈ Name.commaList names,
      c ≠ 40 ∧ c ≠ 41 ∧ ((1 : Int) ≠ 0 ∨ Lexer.isBlank c = false ∧ Lexer.isBracket c = false) := by
    intro c hc
    rcases Name.mem_commaList h hc with hc | rfl | rfl
    · obtain ⟨-, -, hopen, hclose, -⟩ := Name.special_of_isNameByte hc
      exact ⟨hopen, hclose, .inl one_ne_zero⟩
    · exact ⟨by decide, by decide, .inl one_ne_zero⟩
    · exact ⟨by decide, by decide, .inl one_ne_zero⟩
  have hclosed : Lexer.wordLength 0 0 (Instr.form kw (Name.commaList names)) =
      ((Instr.form kw (Name.commaList names)).length, 0, false) := by
    rw [form_eq, Lexer.wordLength_append (wordLength_nameBytes hbytes 0), Lexer.wordLength,
      if_pos rfl]
    rw [Int.zero_add, Lexer.wordLength_append (Lexer.wordLength_inside hinside _), Lexer.wordLength,
      if_neg (by decide), if_pos rfl, Lexer.wordLength]
    simp only [List.length_append, List.length_cons, List.length_nil, Prod.mk.injEq]
    exact ⟨by omega, rfl, trivial⟩
  obtain ⟨c, rest, hc⟩ := List.exists_cons_of_ne_nil hne
  have hcons : Instr.form kw (Name.commaList names) =
      c :: (rest ++ 40 :: (Name.commaList names ++ [41])) := by
    rw [form_eq, hc, List.cons_append]
  rw [hcons] at hclosed ⊢
  exact isToken_of_nameByte (hbytes c (hc ▸ List.mem_cons_self)) hclosed

/-- A form does not start with a bracket. -/
theorem head_form (hkw : Name.isValid (text kw) = true) (inside : Bytes) :
    ∀ c ∈ (Instr.form kw inside).head?, Lexer.isBracket c = false := by
  obtain ⟨hne, hbytes⟩ := Name.of_isValid hkw
  intro c hc
  rw [form_eq, List.head?_append_of_ne_nil _ hne] at hc
  exact (Name.special_of_isNameByte (hbytes c (List.mem_of_mem_head? hc))).2.2.2.2.2.2

/-- A token that is read as an instruction by itself. -/
structure ReadsAs (tok : Bytes) (i : Instr) : Prop where
  token : Lexer.IsToken tok
  bracket : ∀ c ∈ tok.head?, Lexer.isBracket c = false
  keyword : ∀ f, Form.ofToken? tok = some f →
    f.keyword ≠ text "call" ∧ f.keyword ≠ text "func" ∧ f.keyword ≠ text "stack"
  atom : atom tok = .ok i

namespace ReadsAs

variable {i : Instr}

private theorem of_nameBytes (hne : b ≠ []) (h : ∀ c ∈ b, Name.isNameByte false c = true)
    (hatom : Source.atom b = .ok i) : ReadsAs b i where
  token := isToken_nameBytes hne h
  bracket c hc := (Name.special_of_isNameByte (h c (List.mem_of_mem_head? hc))).2.2.2.2.2.2
  keyword f hf := by
    rw [ofToken?_eq_none (not_mem_of_nameBytes h)] at hf
    cases hf
  atom := hatom

variable {n : Name}

private theorem of_form (hkw : Name.isValid (text kw) = true)
    (hother : text kw ≠ text "call" ∧ text kw ≠ text "func" ∧ text kw ≠ text "stack")
    (hn : Name.isValid n = true) (hatom : Source.atom (Instr.form kw n) = .ok i) :
    ReadsAs (Instr.form kw n) i := by
  have hnames : ∀ m ∈ [n], Name.isValid m = true := by simpa using hn
  refine ⟨isToken_form hkw hnames, ?_, ?_, hatom⟩
  · exact head_form hkw n
  · intro f hf
    have hform : Form.ofToken? (Instr.form kw n) = some { keyword := text kw, args := [n] } :=
      ofToken?_form hkw hnames
    cases hform.symm.trans hf
    exact hother

/-- An opcode is read by its name. -/
theorem op (o : Opcode) : ReadsAs o.name (.op o) :=
  of_nameBytes (List.cons_ne_nil _ _) (name_nameBytes o) (atom_op o)

/-- Data is read from its digits. -/
theorem push (data : Bytes) : ReadsAs (text "0x" ++ Hex.encode data) (.push data) :=
  of_nameBytes (List.cons_ne_nil _ _) (push_nameBytes data) (atom_push data)

/-- An assumption is read from its form. -/
theorem assume (hn : Name.isValid n = true) : ReadsAs (Instr.form "assume" n) (.assume n) :=
  of_form (by decide) (by decide) hn (atom_assume hn)

/-- A write is read from its form. -/
theorem assign (hn : Name.isValid n = true) : ReadsAs (Instr.form "assign" n) (.assign n) :=
  of_form (by decide) (by decide) hn (atom_assign hn)

/-- A read is read from its form. -/
theorem var (hn : Name.isValid n = true) : ReadsAs (Instr.form "var" n) (.var n) :=
  of_form (by decide) (by decide) hn (atom_var hn)

end ReadsAs

end Source

end NamedStack
