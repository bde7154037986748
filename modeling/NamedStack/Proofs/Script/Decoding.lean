import NamedStack.Proofs.Engine.Pieces

/-!
# What is left of a program in its script

A serialized program is read back as a program of the same length. Opcodes come back as they are. A
push comes back as an instruction that pushes the same bytes, be it data, a small integer or an
inner script; only a lone zero byte, which is written as the opcode for zero, comes back as the
empty byte string.
-/

namespace NamedStack

/-- The bytes that an instruction pushes: its data, a small integer in its shortest form, or the
script of an inner program. -/
def Instr.pushes? : Instr → Option Bytes
  | .inner ops => (Script.serialize ops).toOption
  | i => i.literal?

/-- Whether an instruction is the same opcode as another one, or pushes what the other one pushes,
up to a change of the bytes. -/
def Instr.SameUpTo (change : Bytes → Bytes) (i j : Instr) : Prop :=
  (∃ o, i = .op o ∧ j = .op o) ∨ ∃ b, i.pushes? = some b ∧ j.literal? = some (change b)

namespace Script

open Engine (pushed)

/-- What an instruction contributes to a script: its opcode, or a push of what it pushes. -/
theorem writes_cases {i : Instr} {p : Piece} (h : Writes i p) :
    (∃ o, i = .op o ∧ p = .opcode o) ∨ ∃ b, i.pushes? = some b ∧ p = .data b := by
  unfold Writes at h
  cases i with
  | op o =>
    cases h
    exact .inl ⟨o, rfl, rfl⟩
  | push data =>
    cases h
    exact .inr ⟨data, rfl, rfl⟩
  | inner ops =>
    rw [piece] at h
    split at h
    · next script hs =>
      cases h
      refine .inr ⟨script, ?_, rfl⟩
      rw [Instr.pushes?, serialize, hs]
      rfl
    · cases h
  | assume | assign | var | call => cases h

/-- Whether an instruction is what a piece is read back as. -/
def ReadBack (p : Piece) (j : Instr) : Prop :=
  match p with
  | .opcode o => j = .op o
  | .data d => j.literal? = some (pushed d)

private theorem exists_instr (p : Piece) (offset : Nat) :
    ∃ j, instr offset p.token = .ok j ∧ ReadBack p j := by
  cases p with
  | opcode o =>
    refine ⟨.op o, ?_, rfl⟩
    simp only [Piece.token, instr, o.ofCode?_code]
  | data d =>
    rcases Engine.token_data d with ⟨n, ht, hn⟩ | ⟨code, ht, hd⟩
    · refine ⟨.op (.small n), ?_, ?_⟩
      · simp only [ht, instr, Opcode.ofCode?_code]
      · exact congrArg some hn
    · refine ⟨.push d, ?_, ?_⟩
      · rw [ht, instr]
      · exact congrArg some hd.symm

private theorem exists_instrs (ps : List Piece) (offset : Nat) :
    ∃ decoded, instrs offset (ps.map Piece.token) = .ok decoded ∧
      List.Forall₂ ReadBack ps decoded := by
  induction ps generalizing offset with
  | nil => exact ⟨[], rfl, .nil⟩
  | cons p ps ih =>
    obtain ⟨j, hj, hread⟩ := exists_instr p (offset + p.token.size)
    obtain ⟨decoded, hdecoded, hrest⟩ := ih (offset + p.token.size)
    refine ⟨j :: decoded, ?_, .cons hread hrest⟩
    rw [List.map_cons, instrs, hj, hdecoded]

/-- The script of a program is read back as a program of the same length. Each instruction comes
back as the opcode that it is, or as one that pushes the same bytes, but that a lone zero byte comes
back as the empty byte string. -/
theorem decode_serialize_pushes {ops : List Instr} {script : Bytes}
    (h : serialize ops = .ok script) :
    ∃ decoded, decode script = .ok decoded ∧
      List.Forall₂ (Instr.SameUpTo fun b => if b = [0] then [] else b) ops decoded := by
  obtain ⟨ps, hwrites, rfl, -, hfits⟩ := (serialize_eq_ok_iff ops script).mp h
  obtain ⟨decoded, hdecoded, hread⟩ := exists_instrs ps 0
  refine ⟨decoded, by rw [decode, tokens_forms ps hfits, hdecoded], ?_⟩
  clear h hfits hdecoded
  induction hwrites generalizing decoded with
  | nil =>
    cases hread
    exact .nil
  | cons hp _ ih =>
    cases hread with
    | cons hj hread =>
      refine .cons ?_ (ih _ hread)
      rcases writes_cases hp with ⟨o, rfl, rfl⟩ | ⟨b, hb, rfl⟩
      · exact .inl ⟨o, rfl, hj⟩
      · exact .inr ⟨b, hb, hj⟩

/-- An opcode, a lone zero byte, an inner script and data that has an opcode of its own. -/
def mixedPushes : List Instr := [.op .dup, .push [0], .inner [.push [7, 7]], .push [0x81]]

/-- A lone zero byte among other data. -/
theorem decode_serialize_pushes_mixed :
    serialize mixedPushes = .ok [0x76, 0, 3, 2, 7, 7, 0x4F] ∧
      ∃ decoded, decode [0x76, 0, 3, 2, 7, 7, 0x4F] = .ok decoded ∧
        List.Forall₂ (Instr.SameUpTo fun b => if b = [0] then [] else b) mixedPushes decoded := by
  have hs : serialize mixedPushes = .ok [0x76, 0, 3, 2, 7, 7, 0x4F] := by rfl
  exact ⟨hs, decode_serialize_pushes hs⟩

/-- A lone zero byte does not come back as an instruction that pushes it. -/
theorem not_decode_serialize_zero_byte :
    ¬ ∀ (ops : List Instr) (script : Bytes), serialize ops = .ok script →
      ∃ decoded, decode script = .ok decoded ∧ List.Forall₂ (Instr.SameUpTo id) ops decoded := by
  intro h
  obtain ⟨decoded, hdecoded, hsame⟩ := h [.push [0]] [0] rfl
  have hzero : decode [0] = .ok [.op .zero] := by cbv
  have hliteral : (Instr.op .zero).literal? = some [] := by cbv
  rw [hzero] at hdecoded
  cases hdecoded
  cases hsame with
  | cons hhead _ =>
    rcases hhead with ⟨o, ho, -⟩ | ⟨b, hb, hpushes⟩
    · cases ho
    · cases hb
      rw [hliteral] at hpushes
      cases hpushes

end Script

end NamedStack
