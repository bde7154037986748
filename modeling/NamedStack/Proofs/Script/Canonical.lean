import NamedStack.Proofs.Engine.Pieces

/-!
# Scripts in canonical form

What is serialized is in canonical form: reading it and serializing it again leaves every byte as it
is, since the instruction that a piece is read back as contributes the same bytes. A script in any
form gets no longer by being read and serialized, since no push that can be read takes fewer bytes
than the shortest push of its data.
-/

namespace NamedStack.Script

/-! ### Reading back what was serialized -/

variable {code : UInt8} {ops : List Instr} {script left rest : Bytes} {t : Token}

private theorem pushForm_of_token {d : Bytes} (h : (Piece.data d).token = .op code) :
    pushForm d = [code] := by
  match d with
  | [] =>
    cases h
    rfl
  | [b] =>
    simp only [Piece.token] at h
    simp only [pushForm]
    split at h
    · next h0 =>
      cases h
      rw [if_pos h0]
    · next h0 =>
      rw [if_neg h0]
      split at h
      · next h16 =>
        cases h
        rw [if_pos h16]
      · next h16 =>
        rw [if_neg h16]
        split at h
        · next h81 =>
          cases h
          rw [if_pos h81]
        · cases h
  | b :: c :: d =>
    simp only [Piece.token] at h
    split at h
    · cases h
    · split at h <;> cases h

private theorem exists_rewritten (p : Piece) (hp : p.fits) (offset : Nat) :
    ∃ i q, instr offset p.token = .ok i ∧ Writes i q ∧ q.fits ∧ q.form = p.form := by
  cases p with
  | opcode o =>
    refine ⟨.op o, .opcode o, ?_, rfl, trivial, rfl⟩
    simp only [Piece.token, instr, o.ofCode?_code]
  | data d =>
    rcases Engine.token_data d with ⟨n, ht, -⟩ | ⟨code, ht, -⟩
    · refine ⟨.op (.small n), .opcode (.small n), ?_, rfl, trivial, (pushForm_of_token ht).symm⟩
      simp only [ht, instr, Opcode.ofCode?_code]
    · exact ⟨.push d, .data d, by rw [ht, instr], rfl, hp, rfl⟩

private theorem exists_rewritten_all (ps : List Piece) (h : ∀ p ∈ ps, p.fits) (offset : Nat) :
    ∃ ops qs, instrs offset (ps.map Piece.token) = .ok ops ∧ List.Forall₂ Writes ops qs ∧
      (∀ q ∈ qs, q.fits) ∧ forms qs = forms ps := by
  induction ps generalizing offset with
  | nil => exact ⟨[], [], rfl, .nil, nofun, rfl⟩
  | cons p ps ih =>
    obtain ⟨hp, hps⟩ := List.forall_mem_cons.mp h
    obtain ⟨i, q, hi, hw, hq, hform⟩ := exists_rewritten p hp (offset + p.token.size)
    obtain ⟨ops, qs, hops, hws, hqs, hforms⟩ := ih hps (offset + p.token.size)
    refine ⟨i :: ops, q :: qs, ?_, .cons hw hws, List.forall_mem_cons.mpr ⟨hq, hqs⟩, ?_⟩
    · rw [List.map_cons, instrs, hi, hops]
    · rw [forms, forms, List.flatMap_cons, List.flatMap_cons, hform]
      exact congrArg _ hforms

/-- A serialized program is read back as one with the same script. -/
theorem exists_serialize_decode (h : serialize ops = .ok script) :
    ∃ decoded, decode script = .ok decoded ∧ serialize decoded = .ok script := by
  obtain ⟨ps, -, rfl, hlen, hfits⟩ := (serialize_eq_ok_iff ops script).mp h
  obtain ⟨decoded, qs, hdecoded, hwrites, hqs, hforms⟩ := exists_rewritten_all ps hfits 0
  refine ⟨decoded, by rw [decode, tokens_forms ps hfits, hdecoded], ?_⟩
  exact (serialize_eq_ok_iff decoded _).mpr ⟨qs, hwrites, hforms.symm, hlen, hqs⟩

/-! ### The bytes of what is read -/

/-- The most bytes that a push with a code can carry. -/
def capacity (code : UInt8) : Nat :=
  if code ≤ 75 then code.toNat else 256 ^ countWidth code - 1

/-- Whether a token carries no more data than its code allows for. -/
def Token.Carries : Token → Prop
  | .op _ => True
  | .push code data => data.length ≤ capacity code

private theorem countWidth_of_le (h : code ≤ 75) : countWidth code = 0 := by
  have hne (c : UInt8) (hc : ¬ c ≤ 75) : code ≠ c := fun he => hc (he ▸ h)
  rw [countWidth, if_neg (hne _ (by decide)), if_neg (hne _ (by decide)),
    if_neg (hne _ (by decide))]

private theorem of_readPlain (hcode : code ≤ 75) (h : readPlain code rest = .ok (t, left)) :
    t.size + left.length = rest.length + 1 ∧ t.Carries := by
  unfold readPlain at h
  split at h
  · cases h
  · next hlen =>
    cases h
    simp only [Token.size, Token.Carries, capacity, countWidth_of_le hcode, if_pos hcode,
      List.length_take, List.length_drop]
    omega

private theorem count_le (code : UInt8) (h : countWidth code ≤ rest.length) :
    count code rest ≤ (256 ^ countWidth code - 1 : Nat) := by
  have hlt := ScriptNum.toNatLE_lt (rest.take (countWidth code))
  rw [List.length_take_of_le h] at hlt
  unfold count signed32
  split <;> omega

private theorem of_readCounted (hcode : ¬ code ≤ 75) (h : readCounted code rest = .ok (t, left)) :
    t.size + left.length = rest.length + 1 ∧ t.Carries := by
  unfold readCounted at h
  split at h
  · cases h
  · next hwidth =>
    have hle := count_le code (Nat.not_lt.mp hwidth)
    split at h
    · cases h
    · next hcount =>
      cases h
      simp only [Token.size, Token.Carries, capacity, if_neg hcode, List.length_take,
        List.length_drop]
      omega

/-- A token takes the bytes that are not left after it, and carries what its code allows for. -/
theorem of_readToken (h : readToken code rest = .ok (t, left)) :
    t.size + left.length = rest.length + 1 ∧ t.Carries := by
  unfold readToken at h
  split at h
  · split at h
    · next hcode => exact of_readPlain hcode h
    · next hcode => exact of_readCounted hcode h
  · cases h
    exact ⟨Nat.add_comm _ _, trivial⟩

/-- The tokens of a script without flaw take all of its bytes. -/
theorem of_tokens (h : (tokens script).2 = none) :
    ((tokens script).1.map Token.size).sum = script.length ∧ ∀ t ∈ (tokens script).1,
      t.Carries := by
  fun_induction tokens script with
  | case1 => exact ⟨rfl, nofun⟩
  | case2 => cases h
  | case3 code rest t left hread _ ts flaw hrest ih =>
    obtain ⟨hsize, hcarries⟩ := of_readToken hread
    rw [hrest] at ih
    obtain ⟨hsum, hall⟩ := ih h
    refine ⟨?_, List.forall_mem_cons.mpr ⟨hcarries, hall⟩⟩
    change (ts.map Token.size).sum = left.length at hsum
    rw [List.map_cons, List.sum_cons, List.length_cons]
    omega

/-! ### Shortest pushes -/

private theorem capacity_le (code : UInt8) :
    capacity code ≤ max 75 (256 ^ countWidth code - 1) := by
  unfold capacity
  split
  · next h => exact le_max_of_le_left (UInt8.le_iff_toNat_le.mp h)
  · exact le_max_right _ _

private theorem countWidth_cases (code : UInt8) :
    countWidth code = 0 ∨ countWidth code = 1 ∨ countWidth code = 2 ∨ countWidth code = 4 := by
  unfold countWidth
  split_ifs <;> simp

/-- The shortest push of data takes no more bytes than any other push that can carry it. -/
theorem length_pushForm_le {data : Bytes} (h : data.length ≤ capacity code) :
    (pushForm data).length ≤ 1 + countWidth code + data.length := by
  match data with
  | [] => simp [pushForm]
  | [b] =>
    have hshort : (pushForm [b]).length ≤ 2 := by
      simp only [pushForm]
      split_ifs <;> simp
    rw [List.length_singleton]
    omega
  | b :: c :: d =>
    have hcapacity := h.trans (capacity_le code)
    have hwidth := countWidth_cases code
    generalize countWidth code = width at hcapacity hwidth ⊢
    rw [pushForm]
    · split_ifs
      all_goals
        simp only [List.length_cons, List.length_append, Bytes.length_littleEndian] at *
        rcases hwidth with rfl | rfl | rfl | rfl <;> omega
    · simp
    · simp

private theorem length_form_le {offset : Nat} {i : Instr} {p : Piece} (ht : t.Carries)
    (hi : instr offset t = .ok i) (hp : Writes i p) : p.form.length ≤ t.size := by
  cases t with
  | op code =>
    rw [instr] at hi
    split at hi
    · cases hi
      cases hp
      exact Nat.le_refl 1
    · cases hi
  | push code data =>
    cases hi
    cases hp
    exact length_pushForm_le ht

private theorem length_forms_le {offset : Nat} {ts : List Token} {ps : List Piece}
    (hts : ∀ t ∈ ts, t.Carries) (hops : instrs offset ts = .ok ops)
    (hps : List.Forall₂ Writes ops ps) : (forms ps).length ≤ (ts.map Token.size).sum := by
  induction ts generalizing offset ops ps with
  | nil =>
    cases hops
    cases hps
    exact Nat.le_refl 0
  | cons t ts ih =>
    obtain ⟨ht, hts⟩ := List.forall_mem_cons.mp hts
    rw [instrs] at hops
    split at hops
    · cases hops
    · next i hi =>
      split at hops
      · cases hops
      · next rest hrest =>
        cases hops
        cases hps with
        | cons hp hps =>
          have hfirst := length_form_le ht hi hp
          have hothers := ih hts hrest hps
          rw [forms, List.flatMap_cons, List.length_append, List.map_cons, List.sum_cons]
          exact Nat.add_le_add hfirst hothers

/-- A script does not get longer by being read and serialized. -/
theorem length_serialize_decode_le {b : Bytes} (h : decode b = .ok ops)
    (hs : serialize ops = .ok script) : script.length ≤ b.length := by
  obtain ⟨ps, hps, rfl, -, -⟩ := (serialize_eq_ok_iff ops script).mp hs
  unfold decode at h
  split at h
  · cases h
  · cases h
  · next hops hflaw =>
    cases h
    obtain ⟨hsum, hcarries⟩ := of_tokens hflaw
    exact hsum ▸ length_forms_le hcarries hops hps

/-- Serialized programs are in canonical form: such a script can be read, and what is read has the
same script. Whatever script is read, what it is serialized to is no longer. -/
theorem serialize_is_canonical :
    (∀ ops script, serialize ops = .ok script →
      ∃ decoded, decode script = .ok decoded ∧ serialize decoded = .ok script) ∧
    ∀ b decoded script, decode b = .ok decoded → serialize decoded = .ok script →
      script.length ≤ b.length :=
  ⟨fun _ _ h => exists_serialize_decode h, fun _ _ _ h hs => length_serialize_decode_le h hs⟩

/-- An inner script with an inner script and a lone zero byte in it, and a push that has an opcode
of its own. -/
def nestedScripts : List Instr := [.inner [.inner [.push [7, 7]], .push [0]], .push [0x81]]

/-- Pushes of a small integer, of nothing and of two bytes, with more bytes of count than they
need. -/
def wastefulScript : Bytes := [0x4C, 1, 7, 0x4D, 0, 0, 0x4E, 2, 0, 0, 0, 9, 9]

/-- Nested scripts, and a script that wastes bytes. -/
theorem serialize_is_canonical_nested_and_wasteful :
    serialize nestedScripts = .ok [5, 3, 2, 7, 7, 0, 0x4F] ∧
      (∃ decoded, decode [5, 3, 2, 7, 7, 0, 0x4F] = .ok decoded ∧
        serialize decoded = .ok [5, 3, 2, 7, 7, 0, 0x4F]) ∧
      decode wastefulScript = .ok [.push [7], .push [], .push [9, 9]] ∧
      serialize [.push [7], .push [], .push [9, 9]] = .ok [0x57, 0, 2, 9, 9] ∧
      [0x57, 0, 2, 9, 9].length ≤ wastefulScript.length := by
  have hnested : serialize nestedScripts = .ok [5, 3, 2, 7, 7, 0, 0x4F] := by rfl
  have hread : decode wastefulScript = .ok [.push [7], .push [], .push [9, 9]] := by cbv
  have hshort : serialize [.push [7], .push [], .push [9, 9]] = .ok [0x57, 0, 2, 9, 9] := by rfl
  exact ⟨hnested, serialize_is_canonical.1 _ _ hnested, hread, hshort,
    serialize_is_canonical.2 _ _ _ hread hshort⟩

end NamedStack.Script
