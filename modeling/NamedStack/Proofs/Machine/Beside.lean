import NamedStack.Proofs.Machine.Description
import NamedStack.Proofs.Peephole.Structural
import NamedStack.Proofs.Script.Decoding

/-!
# The machine beside the engine

The machine runs a program beside the engine. As long as it can tell what each step does, its items
describe the items of the engine one by one, on both stacks: step by step, in conditionals on the
path that is taken, and so at the end of a run.
-/

namespace NamedStack

open Engine

namespace Machine

variable {names : List Name} {items : Stack}

/-! ### Steps -/

private theorem runOp_keeps {m m' : Machine} {s : Step} {o : Opcode} (ho : o.isPlain = true)
    (hrun : m.runOp s o = .ok m') : m'.frames = m.frames ∧ m'.alt = m.alt := by
  cases o with
  | opIf | opNotIf | opElse | opEndIf | toAltStack | fromAltStack => cases ho
  | pick | roll =>
    simp only [runOp] at hrun
    split at hrun
    · cases hrun
      exact ⟨rfl, rfl⟩
    · split at hrun
      · cases hrun
      · cases hrun
        exact ⟨rfl, rfl⟩
  | ifDup =>
    rw [runOp] at hrun
    cases hrun
    exact ⟨(apply_ite Machine.frames _ _ _).trans (ite_self _),
      (apply_ite Machine.alt _ _ _).trans (ite_self _)⟩
  | _ =>
    cases hrun
    exact ⟨rfl, rfl⟩

private theorem read?_pushed (d : Bytes) : ScriptNum.read? (pushed d) = ScriptNum.read? d := by
  unfold pushed
  split
  · next h =>
    subst h
    rfl
  · rfl

variable (names items) in
/-- A step of which the engine runs a piece that works on the main stack alone. -/
theorem step_plain {m m' : Machine} {s : Step} {p : Script.Piece} (hs : s.Genuine)
    (hw : Script.Writes s.instr p) (hp : isPlain p = true) (htells : m.tells s.instr = true)
    (hfinds : m.finds s.instr = true) (hstep : m.step s = .ok m') :
    (m'.frames = m.frames ∧ m'.alt = m.alt) ∧
      ∀ valid stack stack', DescribesAll names items m.main stack →
        effectOf valid p stack = some stack' → stack'.length ≤ maxItems →
        DescribesAll names items m'.main stack' := by
  unfold Script.Writes at hw
  cases hi : s.instr with
  | op o =>
    rw [hi] at hw
    cases hw
    simp only [step, hi] at hstep
    refine ⟨runOp_keeps hp hstep, fun valid stack stack' h he hbound => ?_⟩
    exact describesAll_effect hs hi hp h htells hfinds hstep he hbound
  | push data =>
    rw [hi] at hw
    cases hw
    simp only [step, hi] at hstep
    cases hstep
    refine ⟨⟨rfl, rfl⟩, fun valid stack stack' h he _ => ?_⟩
    cases he
    refine .cons ?_ h
    split
    · next n hn => exact .number ((read?_pushed data).trans hn)
    · exact .anonymous _
  | inner ops =>
    rw [hi, Script.piece] at hw
    simp only [step, hi] at hstep
    cases hstep
    refine ⟨⟨rfl, rfl⟩, fun valid stack stack' h he _ => ?_⟩
    split at hw
    · cases hw
      cases he
      exact .cons (.anonymous _) h
    · cases hw
  | assume | assign | var | call =>
    rw [hi] at hw
    cases hw

/-- The stacks at the start of a conditional and at the end of its first arm. -/
def frameLevel (f : Frame) : Level (List Item) := { entry := f.entry, arm := f.arm }

/-- The machine and the engine at the same place of a program: what is simulated on the path that is
taken describes the items of the engine. Nothing has moved to or from the alt stack since the open
conditionals were entered. -/
structure Beside (names : List Name) (items : Stack) (h : Heights) (m : Machine)
    (t : Engine.State) : Prop where
  shape : h.levels.map (·.arm.isSome) = m.frames.map (·.arm.isSome)
  main : ∃ path, Fits (m.frames.map frameLevel) t.conds m.main path ∧
    DescribesAll names items path t.main
  alt : DescribesAll names items m.alt t.alt
  still : ∀ f ∈ m.frames, f.alt = m.alt

namespace Beside

variable {h h' : Heights} {m m' : Machine} {t t' : Engine.State} {s : Step} {valid : Checker}

/-- At the start the items are those of the initial stack. -/
theorem start (hn : names.Nodup) (hlen : items.length = names.length) :
    Beside names items { now := names.length } (Machine.start names) { main := items } where
  shape := rfl
  main := ⟨_, .outside, describesAll_start hn hlen⟩
  alt := .nil
  still := nofun

variable (hb : Beside names items h m t)

include hb

variable {p : Script.Piece} {entry now : Int} {ls : List (Level Int)}

private theorem plain (hs : s.Genuine) (hw : Script.Writes s.instr p) (hp : isPlain p = true)
    (htells : m.tells s.instr = true) (hfinds : m.finds s.instr = true) (hstep : m.step s = .ok m')
    (hpiece : stepPiece valid t p = .ok t') (hlevels : h'.levels = h.levels) :
    Beside names items h' m' t' := by
  obtain ⟨⟨hframes, halt⟩, hmain⟩ := step_plain names items hs hw hp htells hfinds hstep
  obtain ⟨path, hfits, hpath⟩ := hb.main
  refine ⟨by rw [hlevels, hframes, hb.shape], ?_, ?_, by rw [hframes, halt]; exact hb.still⟩
  · rw [hframes]
    cases hr : t.running with
    | true =>
      obtain ⟨stack, he, -, hbound, rfl⟩ := (stepPiece_plain valid hp hr t').mp hpiece
      obtain rfl := hfits.eq_of_runs hr
      exact ⟨m'.main, hfits.move hr _, hmain valid _ stack hpath he (by omega)⟩
    | false =>
      obtain ⟨-, -, -, rfl⟩ := (stepPiece_plain_skipped valid hp hr t').mp hpiece
      exact ⟨path, hfits.stay hr _, hpath⟩
  · rw [halt]
    cases hr : t.running with
    | true =>
      obtain ⟨-, -, -, -, rfl⟩ := (stepPiece_plain valid hp hr t').mp hpiece
      exact hb.alt
    | false =>
      obtain ⟨-, -, -, rfl⟩ := (stepPiece_plain_skipped valid hp hr t').mp hpiece
      exact hb.alt

private theorem altMove {o : Opcode} (ho : o = .toAltStack ∨ o = .fromAltStack)
    (hframes : m.frames = []) (hrun : m.runOp s o = .ok m') (hexec : exec valid o t = .ok t')
    (hlevels : h'.levels = h.levels) : Beside names items h' m' t' := by
  obtain ⟨path, hfits, hpath⟩ := hb.main
  have hshape := hb.shape
  have halt := hb.alt
  rw [hframes] at hfits hshape
  obtain ⟨initial, main, alt, frames⟩ := m
  obtain rfl : frames = [] := hframes
  obtain ⟨main', alt', conds, ops⟩ := t
  obtain rfl : conds = [] := hfits.conds_eq_nil
  obtain rfl : path = main := hfits.eq_of_runs rfl
  dsimp only at halt hpath
  rcases ho with rfl | rfl
  · obtain ⟨a, rest, rfl, rfl⟩ := (exec_toAltStack_iff valid rfl t').mp hexec
    obtain _ | ⟨ha, hrest⟩ := hpath
    cases hrun
    exact ⟨hlevels ▸ hshape, ⟨_, .outside, hrest⟩, .cons ha halt, nofun⟩
  · obtain ⟨a, rest, rfl, rfl⟩ := (exec_fromAltStack_iff valid rfl t').mp hexec
    obtain _ | ⟨ha, hrest⟩ := halt
    cases hrun
    exact ⟨hlevels ▸ hshape, ⟨_, .outside, .cons ha hpath⟩, hrest, nofun⟩

private theorem opens (hi : s.instr = .op .opIf ∨ s.instr = .op .opNotIf)
    (hstep : m.step s = .ok m') {test : Bytes → Bool} (hopen : t.openCond test = .ok t') :
    Beside names items { now, levels := { entry } :: h.levels } m' t' := by
  obtain ⟨path, hfits, hpath⟩ := hb.main
  have hm' :
      m' = { m.drop 1 with frames := { entry := m.main.drop 1, alt := m.alt } :: m.frames } := by
    rcases hi with hi | hi
    all_goals
      simp only [step, hi] at hstep
      cases hstep
      rfl
  subst hm'
  have hstill : ∀ f ∈ ({ entry := m.main.drop 1, alt := m.alt } : Frame) :: m.frames,
    f.alt = m.alt :=
    List.forall_mem_cons.mpr ⟨rfl, hb.still⟩
  have hshape := congrArg (List.cons false) hb.shape
  cases hr : t.running with
  | true =>
    obtain rfl := hfits.eq_of_runs hr
    obtain ⟨a, rest, hmain, rfl⟩ := (openCond_iff hr test t').mp hopen
    rw [hmain] at hpath
    exact ⟨hshape, ⟨_, hfits.opens hr _ _, List.forall₂_drop 1 hpath⟩, hb.alt, hstill⟩
  | false =>
    rw [openCond_skipped hr] at hopen
    cases hopen
    exact ⟨hshape, ⟨path, .inert hr hfits, hpath⟩, hb.alt, hstill⟩

private theorem exists_frame {l : Level Int} (hlevels : h.levels = l :: ls) :
    ∃ f fs, m.frames = f :: fs ∧ f.arm.isSome = l.arm.isSome ∧
      fs.map (·.arm.isSome) = ls.map (·.arm.isSome) := by
  have hshape := hb.shape
  rw [hlevels] at hshape
  exact List.map_eq_cons_iff.mp hshape.symm

private theorem splits (hi : s.instr = .op .opElse) (hlevels : h.levels = { entry } :: ls)
    (hstep : m.step s = .ok m') (hflip : t.flip = .ok t') {arm : Int} :
    Beside names items { now, levels := { entry, arm := some arm } :: ls } m' t' := by
  obtain ⟨path, hfits, hpath⟩ := hb.main
  have hstill := hb.still
  obtain ⟨⟨start, alt, first⟩, fs, hframes, hf, hfs⟩ := hb.exists_frame hlevels
  obtain rfl : first = none := by simpa using hf
  simp only [step, hi, runOp, hframes] at hstep
  cases hstep
  obtain ⟨c, cs, hc, rfl⟩ := (flip_iff t t').mp hflip
  rw [hframes] at hstill hfits
  obtain ⟨rfl, hrest⟩ := List.forall_mem_cons.mp hstill
  rw [hc] at hfits
  exact ⟨congrArg (List.cons true) hfs.symm, ⟨path, hfits.toggle, hpath⟩, hb.alt,
    List.forall_mem_cons.mpr ⟨rfl, hrest⟩⟩

private theorem closes (hi : s.instr = .op .opEndIf) {l : Level Int} (hlevels : h.levels = l :: ls)
    (htells : m.tells s.instr = true) (hstep : m.step s = .ok m') (hclose : t.close = .ok t') :
    Beside names items { now, levels := ls } m' t' := by
  obtain ⟨path, hfits, hpath⟩ := hb.main
  have hstill := hb.still
  obtain ⟨f, fs, hframes, -, hfs⟩ := hb.exists_frame hlevels
  have hlen : (f.arm.getD f.entry).length = m.main.length := by
    rw [hi, tells, hframes] at htells
    exact of_decide_eq_true htells
  simp only [step, hi, runOp, hframes] at hstep
  cases hstep
  obtain ⟨c, cs, hc, rfl⟩ := (close_iff t t').mp hclose
  rw [hframes] at hstill hfits
  rw [hc] at hfits
  refine ⟨hfs.symm, ?_, hb.alt, (List.forall_mem_cons.mp hstill).2⟩
  cases hfits with
  | taken hr h => exact ⟨_, h.move hr _, describesAll_join hlen (.inl hpath)⟩
  | skipped hr h => exact ⟨_, h.move hr _, describesAll_join hlen (.inr hpath)⟩
  | inert hr h => exact ⟨path, h.stay hr _, hpath⟩

/-- A step keeps the machine beside the engine. -/
theorem step (hs : s.Genuine) (hw : Script.Writes s.instr p) (hmoves : h.Moves s h')
    (htells : m.tells s.instr = true) (hfinds : m.finds s.instr = true) (hstep : m.step s = .ok m')
    (hpiece : stepPiece valid t p = .ok t') : Beside names items h' m' t' := by
  obtain ⟨-, -, hact, -⟩ := (stepPiece_eq_ok_iff valid t t' p).mp hpiece
  -- counting the piece changes nothing that is compared
  have hb' : Beside names items h m { t with ops := t.ops + cost p } :=
    ⟨hb.shape, hb.main, hb.alt, hb.still⟩
  have hopcode {o : Opcode} (hi : s.instr = .op o) : p = .opcode o := by
    rw [Script.Writes, hi] at hw
    cases hw
    rfl
  cases hmoves with
  | opens hi =>
    rcases hi with hi | hi
    · cases hopcode hi
      exact hb'.opens (.inl hi) hstep hact
    · cases hopcode hi
      exact hb'.opens (.inr hi) hstep hact
  | splits hi hlevels =>
    cases hopcode hi
    exact hb'.splits hi hlevels hstep hact
  | closes hi hlevels =>
    cases hopcode hi
    exact hb'.closes hi hlevels htells hstep hact
  | plain hinstr =>
    by_cases hp : isPlain p = true
    · exact hb.plain hs hw hp htells hfinds hstep hpiece rfl
    cases p with
    | data => exact absurd rfl hp
    | opcode o =>
      have hi : s.instr = .op o := by
        rcases Script.writes_cases hw with ⟨o', hi, heq⟩ | ⟨b, -, heq⟩
        · cases heq
          exact hi
        · cases heq
      have hmark := hinstr o hi
      simp only [Machine.step, hi] at hstep
      rw [hi] at htells
      cases o with
      | opIf | opNotIf | opElse | opEndIf => cases hmark
      | toAltStack =>
        exact hb'.altMove (.inl rfl) (List.isEmpty_iff.mp htells) hstep hact rfl
      | fromAltStack =>
        exact hb'.altMove (.inr rfl) (List.isEmpty_iff.mp htells) hstep hact rfl
      | checkMultiSig | checkMultiSigVerify => cases htells
      | _ => exact absurd rfl hp

/-- A run keeps the machine beside the engine. -/
theorem run {steps : List Step} {ps : List Script.Piece} (hs : ∀ s ∈ steps, s.Genuine)
    (hw : List.Forall₂ Script.Writes (Step.instrs steps) ps) (hheights : h.run steps = some h')
    (htells : m.along tells steps = true) (hfinds : m.along finds steps = true)
    (hrun : m.run steps = .ok m') (hpieces : runPieces valid t ps = .ok t') :
    Beside names items h' m' t' := by
  induction steps generalizing h m t ps with
  | nil =>
    cases hw
    cases hheights
    cases hrun
    cases hpieces
    exact hb
  | cons s steps ih =>
    obtain ⟨p, qs, hp, hws, rfl⟩ := List.forall₂_cons_left_iff.mp hw
    obtain ⟨hs, hrest⟩ := List.forall_mem_cons.mp hs
    rw [Heights.run_cons] at hheights
    obtain ⟨k, hk, hheights⟩ := Option.bind_eq_some_iff.mp hheights
    rw [runPieces_cons] at hpieces
    obtain ⟨u, hu, hpieces⟩ := bind_eq_ok_iff.mp hpieces
    obtain ⟨n, hn, hrun⟩ := bind_eq_ok_iff.mp hrun
    simp only [along, hn, Bool.and_eq_true] at htells hfinds
    exact ih (hb.step hs hp (Heights.moves_of_step hk) htells.1 hfinds.1 hn hu) hrest hws hheights
      htells.2 hfinds.2 hrun hpieces

end Beside

/-- The machine that replays a program describes what the engine ends with: the items of both stacks
one by one, so that the heights are the same, known numbers are read from the items, and named items
hold the initial values of their names. -/
theorem run_describes {steps : List Step} (hs : ∀ s ∈ steps, s.Genuine) {branches : List Branch}
    (hbalanced : Branch.ofInstrs (Step.instrs steps) = .ok branches) {names : List Name}
    (hnames : names.Nodup) (htells : (start names).along tells steps = true)
    (hfinds : (start names).along finds steps = true) {m : Machine}
    (hrun : (start names).run steps = .ok m) {script : Bytes}
    (hscript : Script.serialize (Step.instrs steps) = .ok script) {items : Stack}
    (hlen : items.length = names.length) {valid : Checker} {t : Engine.State}
    (hend : runFrom valid items [] script = .ok t) :
    DescribesAll names items m.main t.main ∧ DescribesAll names items m.alt t.alt := by
  obtain ⟨ps, hw, rfl, hl, hf⟩ := (Script.serialize_eq_ok_iff _ script).mp hscript
  obtain ⟨ht, hc⟩ := (runFrom_forms_iff valid items [] hf hl t).mp hend
  obtain ⟨h, hheights⟩ := @Context.exists_heights ⟨steps, branches, [], [], [], names⟩ _ hbalanced
    (endsFree_of_genuine hs) names.length (Nat.le_refl steps.length)
  rw [List.take_length] at hheights
  have hb := (Beside.start hnames hlen).run hs hw hheights htells hfinds hrun ht
  obtain ⟨path, hfits, hpath⟩ := hb.main
  obtain rfl := hfits.eq_of_runs (by rw [hc]; rfl)
  exact ⟨hpath, hb.alt⟩

/-- Copies one item to the alt stack and back, and another one that depends on a third. -/
def copyOfEither : List Instr :=
  [.op .one, .op .pick, .op .toAltStack, .op .opIf, .op .over, .op .opElse,
    .op .dup, .op .opEndIf, .op .depth, .op .fromAltStack]

/-- A copy that comes from either arm. -/
theorem run_describes_copy_of_either :
    ∃ m t, (start [[97], [98], [99]]).run (Step.ofList copyOfEither) = .ok m ∧
      m.main = [{ name := [98], copy := true }, .number 3, .anonymous, { name := [98] },
        { name := [97] }] ∧
      Script.serialize copyOfEither = .ok [81, 121, 107, 99, 120, 103, 118, 104, 116, 108] ∧
      runFrom .none [[7], [8], [9, 9]] [] [81, 121, 107, 99, 120, 103, 118, 104, 116, 108] = .ok t ∧
      t.main = [[8], [3], [9, 9], [8], [9, 9]] ∧
      DescribesAll [[97], [98], [99]] [[7], [8], [9, 9]] m.main t.main ∧
      DescribesAll [[97], [98], [99]] [[7], [8], [9, 9]] m.alt t.alt := by
  have hrun : (start [[97], [98], [99]]).run (Step.ofList copyOfEither) = .ok
      { initial := [[97], [98], [99]]
        main := [{ name := [98], copy := true }, .number 3, .anonymous, { name := [98] },
          { name := [97] }] } := by decide
  have hscript : Script.serialize (Step.instrs (Step.ofList copyOfEither)) =
      .ok [81, 121, 107, 99, 120, 103, 118, 104, 116, 108] := by rfl
  have hend : runFrom .none [[7], [8], [9, 9]] [] [81, 121, 107, 99, 120, 103, 118, 104, 116, 108] =
      .ok ⟨[[8], [3], [9, 9], [8], [9, 9]], [], [], 9⟩ := by cbv
  have hlen : ([[7], [8], [9, 9]] : Stack).length = [[97], [98], [(99 : UInt8)]].length := rfl
  obtain ⟨branches, hbalanced⟩ : ∃ branches,
      Branch.ofInstrs (Step.instrs (Step.ofList copyOfEither)) = .ok branches := ⟨_, rfl⟩
  exact ⟨_, _, hrun, rfl, hscript, hend, rfl, run_describes (Step.genuine_ofList copyOfEither)
    hbalanced (by decide) (by decide) (by decide) hrun hscript hlen hend⟩

/-- An opcode that looks at an item which is not there leaves the machine with one item too many. -/
theorem not_run_describes_lock_time :
    (start []).along tells (Step.ofList [.op .checkLockTimeVerify, .op .depth]) = true ∧
      (start []).along finds (Step.ofList [.op .checkLockTimeVerify, .op .depth]) = false ∧
      Branch.ofInstrs [.op .checkLockTimeVerify, .op .depth] = .ok [] ∧
      Script.serialize [.op .checkLockTimeVerify, .op .depth] = .ok [0xB1, 0x74] ∧
      (start []).run (Step.ofList [.op .checkLockTimeVerify, .op .depth]) =
        .ok { main := [.number 1, .anonymous] } ∧
      runFrom .none [] [] [0xB1, 0x74] = .ok ⟨[[]], [], [], 2⟩ ∧
      ¬ DescribesAll [] [] [.number 1, .anonymous] [[]] := by
  refine ⟨by decide, by decide, rfl, rfl, by decide, by cbv, ?_⟩
  intro h
  cases h.length_eq

end Machine

end NamedStack
