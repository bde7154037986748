import NamedStack.Proofs.AltSlots.Ledger

/-!
# Slots over whole runs

Unless a limit of the engine is exceeded, its alt stack holds the values of the ledger in the order
of the slots, under the items that were put above them, however long the run is.
-/

namespace NamedStack.AltSlots

open Script (Piece)
open Engine

/-! ### Slots by name -/

variable {name : Name} {slots : AltSlots} {v : Bytes} {g' : Ledger}

private theorem slot?_append {pre post : List Name} (h : name ∉ pre) :
    slot? (pre ++ name :: post) name = some pre.length := by
  have hpre : pre.findIdx? (fun x => decide (x = name)) = none := by
    refine List.findIdx?_eq_none_iff.mpr fun x hx => decide_eq_false ?_
    rintro rfl
    exact h hx
  rw [slot?, List.findIdx?_append, hpre, List.findIdx?_cons]
  simp

private theorem slot?_eq_none (h : name ∉ slots) : slot? slots name = none := by
  refine List.findIdx?_eq_none_iff.mpr fun x hx => decide_eq_false ?_
  rintro rfl
  exact h hx

variable {values post pre : List (Name × Bytes)} {height i n : Nat} {ts : List Script.Token}

private theorem split_of_lookup (h : values.lookup name = some v) :
    ∃ pre post, values = pre ++ (name, v) :: post ∧ name ∉ pre.map (·.1) := by
  obtain ⟨pre, post, rfl, hpre⟩ := List.lookup_eq_some_iff.mp h
  refine ⟨pre, post, rfl, ?_⟩
  intro hmem
  obtain ⟨p, hp, rfl⟩ := List.mem_map.mp hmem
  simpa using hpre p hp

private theorem notMem_of_lookup (h : values.lookup name = none) : name ∉ values.map (·.1) := by
  intro hmem
  obtain ⟨p, hp, rfl⟩ := List.mem_map.mp hmem
  simpa using List.lookup_eq_none_iff.mp h p hp

variable {valid : Checker} {l : Live} {g : Ledger}

private theorem above_of_agrees (h : l.Agrees g) (hv : g.values = pre ++ (name, v) :: post)
    (hname : name ∉ pre.map (·.1)) :
    l.slots.above l.state.alt.length name =
        .ok (some (pre.length, (g.extra ++ (post.map (·.2)).reverse).length)) ∧
      l.state.alt = (g.extra ++ (post.map (·.2)).reverse) ++ v :: (pre.map (·.2)).reverse := by
  have halt : l.state.alt =
      (g.extra ++ (post.map (·.2)).reverse) ++ v :: (pre.map (·.2)).reverse := by
    rw [h.alt, hv]
    simp
  have hslot : l.slots.slot? name = some pre.length := by
    rw [h.slots, hv, List.map_append, List.map_cons, slot?_append hname, List.length_map]
  refine ⟨?_, halt⟩
  have hlen : l.state.alt.length =
      (g.extra ++ (post.map (·.2)).reverse).length + (pre.length + 1) := by
    rw [halt, List.length_append, List.length_cons, List.length_reverse, List.length_map]
  rw [above, hslot]
  dsimp only
  rw [if_neg (by omega), hlen]
  congr 3
  omega

private theorem tracks_steps {todo : List Step} {ps : List Piece} {t : State}
    (hcodes : Codes todo ps) (hleads : Leads valid l.state ps t)
    (h : Live.Agrees { slots, state := t } g) : Live.Tracks (l.steps valid todo slots) g := by
  have hpieces := (Script.pieces_eq_ok_iff 0 _ _).mpr hcodes
  rw [Live.steps, hpieces]
  dsimp only
  rw [Live.tokens]
  rcases hleads l.state.ops with hrun | ⟨k, hrun⟩
  · rw [show run valid l.state _ = _ from hrun]
    rfl
  · rw [show run valid l.state _ = _ from hrun]
    exact ⟨h.slots, h.main, h.conds, h.alt⟩

/-! ### Single events -/

private theorem running_of_agrees (h : l.Agrees g) : l.state.running = g.state.running := by
  rw [State.running, State.running, h.conds]
  rfl

private theorem get_of_above (h : slots.above height name = .ok (some (i, n))) (last : Bool) :
    slots.get height name last = .ok (some
      (repeated n [.fromAltStack] ++ [Step.op .fromAltStack] ++
          (if last then [] else [.op .dup, .op .toAltStack]) ++ repeated n [.swap, .toAltStack],
        if last then slots.eraseIdx i else slots)) := by
  rw [AltSlots.get, h]
  cases last with
  | true =>
    rw [if_pos rfl, if_pos rfl, List.append_nil]
    rfl
  | false => rfl

private theorem set_of_above (h : slots.above height name = .ok (some (i, n))) :
    slots.set height name = .ok (some (repeated n [.fromAltStack] ++
      [.op .fromAltStack, .op .drop, .number n, .op .roll, .op .toAltStack] ++
      repeated n [.toAltStack])) := by
  rw [AltSlots.set, h]
  rfl

private theorem above_of_lookup_none (h : l.Agrees g) (hv : g.values.lookup name = none) :
    l.slots.above l.state.alt.length name = .ok none := by
  rw [above, slot?_eq_none (h.slots ▸ notMem_of_lookup hv)]

private theorem ne_of_nodup (hn : ((pre ++ (name, v) :: post).map (·.1)).Nodup) :
    (∀ p ∈ pre, p.1 ≠ name) ∧ ∀ p ∈ post, p.1 ≠ name := by
  rw [List.map_append, List.map_cons, List.nodup_append, List.nodup_cons] at hn
  obtain ⟨-, ⟨hpost, -⟩, hpre⟩ := hn
  constructor
  · intro p hp
    exact hpre _ (List.mem_map_of_mem hp) _ List.mem_cons_self
  · rintro p hp rfl
    exact hpost (List.mem_map.mpr ⟨p, hp, rfl⟩)

private theorem tracks_get (h : l.Agrees g) (hn : (g.values.map (·.1)).Nodup)
    (hr : g.state.running = true) (name : Name) (last : Bool) :
    Live.Tracks (l.step valid (.get name last)) (g.get name last) := by
  unfold Ledger.get
  cases hv : g.values.lookup name with
  | none =>
    have hget : l.slots.get l.state.alt.length name last = .ok none := by
      rw [AltSlots.get, above_of_lookup_none h hv]
      rfl
    simp only [Live.step, hget]
    exact h
  | some v =>
    obtain ⟨pre, post, hvalues, hname⟩ := split_of_lookup hv
    obtain ⟨habove, halt⟩ := above_of_agrees h hvalues hname
    obtain ⟨ps, hcodes, hleads⟩ := leads_get ((running_of_agrees h).trans hr) last halt
    simp only [Live.step, get_of_above habove]
    refine tracks_steps hcodes hleads ?_
    cases last with
    | false =>
      refine ⟨h.slots, congrArg (v :: ·) h.main, h.conds, ?_⟩
      exact halt.symm.trans h.alt
    | true =>
      have hrest : (g.values.filter fun p => p.1 != name) = pre ++ post := by
        obtain ⟨hpre, hpost⟩ := ne_of_nodup (hvalues ▸ hn)
        rw [hvalues, List.filter_append, List.filter_cons_of_neg (by simp),
          List.filter_eq_self.mpr fun p hp => bne_iff_ne.mpr (hpre p hp),
          List.filter_eq_self.mpr fun p hp => bne_iff_ne.mpr (hpost p hp)]
      refine ⟨?_, congrArg (v :: ·) h.main, h.conds, ?_⟩
      · simp only [if_true]
        rw [hrest, h.slots, hvalues]
        simp [List.eraseIdx_append_of_length_le]
      · simp only [if_true]
        rw [hrest]
        simp

private theorem tracks_set (h : l.Agrees g) (hn : (g.values.map (·.1)).Nodup)
    (hr : g.state.running = true) (name : Name) (hg : g.set name = some g') :
    Live.Tracks (l.step valid (.set name)) g' := by
  unfold Ledger.set at hg
  cases hv : g.values.lookup name with
  | none =>
    rw [hv] at hg
    cases hg
    have hset : l.slots.set l.state.alt.length name = .ok none := by
      rw [AltSlots.set, above_of_lookup_none h hv]
      rfl
    simp only [Live.step, hset]
    exact h
  | some v =>
    cases hm : g.main with
    | nil => rw [hv, hm] at hg; cases hg
    | cons w main =>
      rw [hv, hm] at hg
      cases hg
      obtain ⟨pre, post, hvalues, hname⟩ := split_of_lookup hv
      obtain ⟨habove, halt⟩ := above_of_agrees h hvalues hname
      obtain ⟨ps, hcodes, hleads⟩ := leads_set ((running_of_agrees h).trans hr) halt
        (h.main.trans hm)
      simp only [Live.step, set_of_above habove]
      refine tracks_steps hcodes hleads ?_
      have hnew : (g.values.map fun p => if p.1 = name then (name, w) else p) =
          pre ++ (name, w) :: post := by
        obtain ⟨hpre, hpost⟩ := ne_of_nodup (hvalues ▸ hn)
        rw [hvalues, List.map_append, List.map_cons, if_pos rfl,
          List.map_congr_left fun p hp => if_neg (hpre p hp),
          List.map_congr_left fun p hp => if_neg (hpost p hp), List.map_id', List.map_id']
      refine ⟨?_, rfl, h.conds, ?_⟩
      · dsimp only
        rw [hnew, h.slots, hvalues]
        simp
      · dsimp only
        rw [hnew]
        simp

private theorem tracks_token (h : l.Agrees g) {t : Script.Token} (ht : keepsAlt t = true)
    (hg : g.token valid t = some g') :
    step valid l.state t = .error .limitExceeded ∨
      ∃ s, step valid l.state t = .ok s ∧ Live.Agrees { l with state := s } g' := by
  unfold Ledger.token at hg
  cases hs : step valid g.state t with
  | error e => rw [hs] at hg; cases hg
  | ok u =>
    rw [hs] at hg
    cases hg
    refine (step_frame valid ht h.main h.conds hs).imp id ?_
    rintro ⟨k, hk⟩
    exact ⟨_, hk, h.slots, rfl, rfl, h.alt⟩

private theorem tracks_code (h : l.Agrees g) (hts : ts.all keepsAlt = true)
    (hg : ts.foldlM (Ledger.token valid) g = some g') :
    Live.Tracks (l.step valid (.code ts)) g' := by
  change Live.Tracks (l.tokens valid ts) g'
  induction ts generalizing l g with
  | nil =>
    cases hg
    exact h
  | cons t ts ih =>
    obtain ⟨ht, hts⟩ := (Bool.and_eq_true _ _).mp hts
    obtain ⟨u, hu, hg⟩ := Option.bind_eq_some_iff.mp hg
    have hcons : run valid l.state (t :: ts) =
        (step valid l.state t).bind fun s => run valid s ts := rfl
    unfold Live.tokens
    rw [hcons]
    rcases tracks_token h ht hu with hs | ⟨s, hs, hag⟩
    · rw [hs]
      rfl
    · rw [hs]
      exact ih hag hts hg

/-- One event keeps the engine in step with the ledger. -/
theorem tracks_step (h : l.Agrees g) (hn : (g.values.map (·.1)).Nodup) (e : Event)
    (hg : g.step valid e = some g') : Live.Tracks (l.step valid e) g' := by
  cases e with
  | code ts =>
    simp only [Ledger.step] at hg
    split at hg
    · next hts => exact tracks_code h hts hg
    · cases hg
  | get name last =>
    simp only [Ledger.step] at hg
    split at hg
    · next hr =>
      cases hg
      exact tracks_get h hn hr name last
    · cases hg
  | set name =>
    simp only [Ledger.step] at hg
    split at hg
    · next hr => exact tracks_set h hn hr name hg
    · cases hg
  | stash =>
    simp only [Ledger.step] at hg
    split at hg
    · next a main hr hm =>
      cases hg
      refine tracks_steps (codes_ops [.toAltStack])
        (.toAltStack ((running_of_agrees h).trans hr) (h.main.trans hm)) ?_
      exact ⟨h.slots, rfl, h.conds, congrArg (a :: ·) h.alt⟩
    · cases hg
  | unstash =>
    simp only [Ledger.step] at hg
    split at hg
    · next a extra hr hx =>
      cases hg
      have halt : l.state.alt = a :: (extra ++ (g.values.map (·.2)).reverse) := by
        rw [h.alt, hx]
        rfl
      refine tracks_steps (codes_ops [.fromAltStack])
        (.fromAltStack ((running_of_agrees h).trans hr) halt) ?_
      exact ⟨h.slots, congrArg (a :: ·) h.main, h.conds, rfl⟩
    · cases hg

private theorem values_code (hg : ts.foldlM (Ledger.token valid) g = some g') :
    g'.values = g.values := by
  induction ts generalizing g with
  | nil =>
    cases hg
    rfl
  | cons t ts ih =>
    obtain ⟨u, hu, hg⟩ := Option.bind_eq_some_iff.mp hg
    rw [ih hg]
    unfold Ledger.token at hu
    split at hu
    · cases hu
      rfl
    · cases hu

private theorem nodup_get (hn : (g.values.map (·.1)).Nodup) (name : Name) (last : Bool) :
    ((g.get name last).values.map (·.1)).Nodup := by
  unfold Ledger.get
  split
  · exact hn
  · cases last with
    | false => exact hn
    | true => exact (List.filter_sublist.map _).nodup hn

private theorem names_set (hg : g.set name = some g') :
    g'.values.map (·.1) = g.values.map (·.1) := by
  unfold Ledger.set at hg
  split at hg
  · cases hg
    rfl
  · cases hg
  · cases hg
    dsimp only
    rw [List.map_map]
    refine List.map_congr_left fun p _ => ?_
    by_cases hp : p.1 = name <;> simp [hp]

/-- No event gives a name a second slot. -/
theorem nodup_step (hn : (g.values.map (·.1)).Nodup) {e : Event} (hg : g.step valid e = some g') :
    (g'.values.map (·.1)).Nodup := by
  cases e with
  | code ts =>
    simp only [Ledger.step] at hg
    split at hg
    · rw [values_code hg]
      exact hn
    · cases hg
  | get name last =>
    simp only [Ledger.step] at hg
    split at hg
    · cases hg
      exact nodup_get hn name last
    · cases hg
  | set name =>
    simp only [Ledger.step] at hg
    split at hg
    · rw [names_set hg]
      exact hn
    · cases hg
  | stash | unstash =>
    simp only [Ledger.step] at hg
    split at hg
    · cases hg
      exact hn
    · cases hg

/-! ### Whole runs -/

/-- Events keep the engine in step with the ledger, however many there are. -/
theorem tracks_run (h : l.Agrees g) (hn : (g.values.map (·.1)).Nodup) (es : List Event)
    (hg : g.run valid es = some g') : Live.Tracks (l.run valid es) g' := by
  induction es generalizing l g with
  | nil =>
    cases hg
    exact h
  | cons e es ih =>
    obtain ⟨u, hu, hg⟩ := Option.bind_eq_some_iff.mp hg
    have hstep := tracks_step h hn e hu
    have hcons : l.run valid (e :: es) = (l.step valid e).bind fun l => l.run valid es := rfl
    rw [hcons]
    cases hl : l.step valid e with
    | error k =>
      rw [hl] at hstep
      exact hstep
    | ok m =>
      rw [hl] at hstep
      exact ih hstep (nodup_step hn hu) hg

private theorem nodup_eraseDups (names : List Name) : names.eraseDups.Nodup := by
  induction hlen : names.length using Nat.strongRecOn generalizing names with
  | ind n ih =>
    cases names with
    | nil => exact .nil
    | cons a names =>
      rw [List.eraseDups_cons, List.nodup_cons, List.mem_eraseDups]
      refine ⟨by simp, ih _ ?_ _ rfl⟩
      have := List.length_filter_le (fun b => !b == a) names
      rw [List.length_cons] at hlen
      omega

private theorem start_values (names : List Name) (items : List Bytes) (below : Stack)
    (r : Routing) (prog : List Step) :
    (Ledger.start names items below r prog).values.map (·.1) =
        ((names.zip items).filter fun p => r.moves p.1).map (·.1) ++ r.newVariables prog ∧
      (Ledger.start names items below r prog).values.map (·.2) =
        ((names.zip items).filter fun p => r.moves p.1).map (·.2) ++
          (r.newVariables prog).map fun _ => ([] : Bytes) := by
  rw [Ledger.start, List.map_append, List.map_append, List.map_map, List.map_map]
  refine ⟨?_, rfl⟩
  rw [show ((·.1) ∘ fun x : Name => (x, ([] : Bytes))) = id from rfl, List.map_id]

private theorem nodup_start {names : List Name} (hn : names.Nodup) {items : List Bytes}
    (hi : items.length = names.length) (below : Stack) (r : Routing) (prog : List Step) :
    ((Ledger.start names items below r prog).values.map (·.1)).Nodup := by
  have hnames : (names.zip items).map (·.1) = names := List.map_fst_zip hi.ge
  rw [(start_values names items below r prog).1, List.nodup_append]
  refine ⟨?_, nodup_eraseDups _, ?_⟩
  · exact (List.filter_sublist.map _).nodup (hnames.symm ▸ hn)
  · rintro a ha b hb rfl
    obtain ⟨p, hp, rfl⟩ := List.mem_map.mp ha
    have hmoves := (List.mem_filter.mp hp).2
    have hnew := (List.mem_filter.mp (List.mem_eraseDups.mp hb)).2
    simp [hmoves] at hnew

/-- The setup of a routing drawn from an initial stack of distinct names can be computed. After it,
and after every further event that the ledger allows, the engine has either exceeded a limit or
agrees with the ledger: the bottom of the alt stack holds the values of the slots in order, under
the items that were put above them, and the main stack is that of the ledger. -/
theorem slots_hold_values (valid : Checker) {names : List Name} (hn : names.Nodup)
    {items : List Bytes} (hi : items.length = names.length) (below : Stack) {r : Routing}
    (hr : r.DrawnFrom names) (prog : List Step) :
    ∃ slots todo, setup true prog r = .ok (slots, todo) ∧
      ∀ events g, (Ledger.start names items below r prog).run valid events = some g →
        Live.Tracks ((Live.steps valid ⟨[], { main := items.reverse ++ below }⟩ todo slots).bind
          fun l => l.run valid events) g := by
  obtain ⟨todo, ps, hsetup, hcodes, hleads⟩ := setup_leads hn hi hr prog
    (s := { main := items.reverse ++ below }) rfl rfl
  refine ⟨_, todo, hsetup, ?_⟩
  intro events g hg
  have hstart : Live.Tracks (Live.steps valid ⟨[], { main := items.reverse ++ below }⟩ todo
      (((names.zip items).filter fun p => r.moves p.1).map (·.1) ++ r.newVariables prog))
      (Ledger.start names items below r prog) := by
    obtain ⟨hnames, hitems⟩ := start_values names items below r prog
    refine tracks_steps hcodes hleads ⟨hnames.symm, rfl, rfl, ?_⟩
    rw [hitems, List.reverse_append, List.append_nil]
    rfl
  cases hl : Live.steps valid ⟨[], { main := items.reverse ++ below }⟩ todo
      (((names.zip items).filter fun p => r.moves p.1).map (·.1) ++ r.newVariables prog) with
  | error k =>
    rw [hl] at hstart
    exact hstart
  | ok l =>
    rw [hl] at hstart
    exact tracks_run hstart (nodup_start hn hi below r prog) events hg

/-- Two names with slots. -/
theorem slots_hold_values_two_slots :
    ([[97], [98]] : List Name).Nodup ∧
      Routing.DrawnFrom [[97], [98]] { assumptions := [([97], 1)], vars := [[120]] } ∧
      Ledger.run .none (.start [[97], [98]] [[5], [6]] [[7]]
          { assumptions := [([97], 1)], vars := [[120]] } [.of (.assign [120])])
        [.get [97] false, .stash, .code [.push 1 [9]], .set [120], .get [97] true, .unstash,
          .get [120] false] =
        some { main := [[9], [5], [5], [6], [7]], values := [([120], [9])] } ∧
      ∃ slots todo, setup true [.of (.assign [120])]
          { assumptions := [([97], 1)], vars := [[120]] } = .ok (slots, todo) ∧
        Live.Tracks ((Live.steps .none ⟨[], { main := [[6], [5], [7]] }⟩ todo slots).bind
          fun l => l.run .none [.get [97] false, .stash, .code [.push 1 [9]], .set [120],
            .get [97] true, .unstash, .get [120] false])
          { main := [[9], [5], [5], [6], [7]], values := [([120], [9])] } := by
  have hn : ([[97], [98]] : List Name).Nodup := by decide
  have hr : Routing.DrawnFrom [[97], [98]] { assumptions := [([97], 1)], vars := [[120]] } := by
    refine ⟨by decide, fun p hp => ⟨0, ?_⟩⟩
    obtain rfl := List.mem_singleton.mp hp
    exact ⟨rfl, rfl⟩
  have hg : Ledger.run .none (.start [[97], [98]] [[5], [6]] [[7]]
      { assumptions := [([97], 1)], vars := [[120]] } [.of (.assign [120])])
      [.get [97] false, .stash, .code [.push 1 [9]], .set [120], .get [97] true, .unstash,
        .get [120] false] =
      some { main := [[9], [5], [5], [6], [7]], values := [([120], [9])] } := by cbv
  obtain ⟨slots, todo, hsetup, htracks⟩ := slots_hold_values .none hn
    (show ([[5], [6]] : List Bytes).length = 2 from rfl) [[7]] hr [.of (.assign [120])]
  exact ⟨hn, hr, hg, slots, todo, hsetup, htracks _ _ hg⟩

end NamedStack.AltSlots
