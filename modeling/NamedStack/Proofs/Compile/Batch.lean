import Mathlib
import NamedStack.Compile.Batch

/-!
# Batches under any schedule

The jobs of a batch take their steps in any order. What a job compiles depends on its own unit
alone, and the batch is called off only by a failure that is recorded with it. So a job that finds
the batch called off comes too late to be the one that is reported, and a batch that ends without a
failure has the result of every unit in its place.
-/

namespace NamedStack

/-! ### The data item of a unit -/

namespace Report

variable {ρ : Type}

/-- The data item of a name. -/
def item? (r : Report ρ) (key : Bytes) : Option Scalar :=
  ((r.data.getD []).find? fun item => item.1 = key).map (·.2)

private theorem find?_setItem (items : List (Bytes × Scalar)) (key : Bytes) (v : Scalar)
    (k : Bytes) :
    (setItem items key v).find? (fun item => item.1 = k) =
      if k = key then some (key, v) else items.find? fun item => item.1 = k := by
  induction items with
  | nil => by_cases hk : k = key <;> simp [setItem, hk, eq_comm]
  | cons item items ih =>
    rw [setItem]
    by_cases hitem : item.1 = key
    · by_cases hk : k = key
      · simp [hitem, hk]
      · simp [hitem, hk, Ne.symm hk]
    · rw [if_neg hitem]
      by_cases hk : item.1 = k
      · rw [if_neg (hk ▸ hitem), List.find?_cons_of_pos (by simpa using hk),
          List.find?_cons_of_pos (by simpa using hk)]
      · simp [hk, ih]

/-- A data item that is attached stands for its name, and the others stay. -/
theorem item?_withData (r : Report ρ) (key : Bytes) (v : Scalar) (k : Bytes) :
    (r.withData [(key, v)]).item? k = if k = key then some v else r.item? k := by
  have hfind := find?_setItem (r.data.getD []) key v k
  simp only [item?, withData, List.foldl_cons, List.foldl_nil, Option.getD_some, hfind]
  split <;> rfl

end Report

private theorem Problem.report_note_data (p : Problem) (items : List (Bytes × Scalar)) :
    (p.note (.data items)).report = p.report.withData items := by
  simp only [report, note, List.foldl_append, List.foldl_cons, List.foldl_nil]

/-- Only reading a source can fault: a fault while compiling is a failure like others. -/
theorem Source.outcome_ne_fault {source : Source} (h : ∀ f, source.read ≠ .error (.fault f))
    (o : Options) (f : Fault) : (source.compile o).outcome ≠ .error (.fault f) := by
  have hcompile (p : Program) : (p.compile source.name o).outcome ≠ .error (.fault f) := by
    unfold Program.compile
    split <;> exact nofun
  unfold Source.compile
  split
  · exact hcompile _
  · exact nofun
  · next f' hread => exact absurd hread (h f')

namespace Batch

/-- How a batch reports the failure of a unit. -/
def blaming (source : Source) : Note := .data [Cause.strItem "unit" source.name]

/-! ### What holds after every step -/

/-- What a job has come to for its unit, in a batch that has failed or not: it compiles the unit as
it would be compiled alone, and stores nothing but the result of that. -/
inductive Job.Keeps (o : Options) (failed : Bool) (source : Source) : Job → Option Output → Prop
  | waiting : Keeps o failed source .waiting none
  | started : Keeps o failed source .started none
  | compiled {outcome : Except Failure Output} (h : (source.compile o).outcome = outcome) :
      Keeps o failed source (.compiled outcome) none
  | stored {out : Output} (h : (source.compile o).outcome = .ok out) :
      Keeps o failed source .over (some out)
  | given (h : failed = true) : Keeps o failed source .over none

private theorem Job.Keeps.mono {o : Options} {b c : Bool} {source : Source} {job : Job}
    {result : Option Output} (h : job.Keeps o b source result) (hbc : b = true → c = true) :
    job.Keeps o c source result := by
  cases h with
  | waiting => exact .waiting
  | started => exact .started
  | compiled h => exact .compiled h
  | stored h => exact .stored h
  | given h => exact .given (hbc h)

/-- Whether a failure is that of a unit alone, reported with its name. -/
def Blames (sources : List Source) (o : Options) (e : Error) : Prop :=
  ∃ source ∈ sources, ∃ f, (source.compile o).outcome = .error f ∧
    e = .failed (f.note (blaming source))

variable {α : Type}

private theorem set_eq_self {l : List α} {i : Nat} {a : α} (h : l[i]? = some a) :
    l = l.set i a := by
  obtain ⟨hlt, rfl⟩ := List.getElem?_eq_some_iff.mp h
  exact (List.set_getElem_self hlt).symm

namespace State

/-- A batch keeps the first failure that is reported. -/
theorem error_report (s : State) (e : Error) : (s.report e).error = some (s.error.getD e) := by
  unfold report
  cases s.error <;> rfl

/-- What holds of a batch whose jobs have taken any steps. A batch that is called off has a failure,
and that failure is the own one of a unit. -/
structure Sound (sources : List Source) (o : Options) (s : State) : Prop where
  jobs : ∀ (i : Nat) (source : Source), sources[i]? = some source →
    ∃ (job : Job) (result : Option Output), s.jobs[i]? = some job ∧ s.results[i]? = some result ∧
      job.Keeps o s.error.isSome source result
  length_jobs : s.jobs.length = sources.length
  length_results : s.results.length = sources.length
  error : ∀ e, s.error = some e → Blames sources o e
  calledOff : s.calledOff = true → s.error.isSome = true

namespace Sound

variable {sources : List Source} {o : Options} {s : State}

private theorem start : (State.start sources).Sound sources o := by
  refine ⟨fun i source hi => ⟨.waiting, none, ?_, ?_, .waiting⟩, ?_, ?_, nofun, nofun⟩
  · rw [State.start, List.getElem?_map, hi, Option.map_some]
  · rw [State.start, List.getElem?_map, hi, Option.map_some]
  · exact List.length_map _
  · exact List.length_map _

variable {i : Nat} {job : Job} {source : Source}

private theorem keeps (h : s.Sound sources o) (hi : sources[i]? = some source)
    (hjob : s.jobs[i]? = some job) :
    ∃ result, s.results[i]? = some result ∧ job.Keeps o s.error.isSome source result := by
  obtain ⟨job', result, hjob', hresult, hkeeps⟩ := h.jobs i source hi
  cases hjob.symm.trans hjob'
  exact ⟨result, hresult, hkeeps⟩

variable {result : Option Output} {s' : State}

private theorem put (h : s.Sound sources o) (hi : sources[i]? = some source)
    (hjobs : s'.jobs = s.jobs.set i job) (hresults : s'.results = s.results.set i result)
    (hjob : job.Keeps o s'.error.isSome source result)
    (hkept : s.error.isSome = true → s'.error.isSome = true)
    (herror : ∀ e, s'.error = some e → Blames sources o e)
    (hoff : s'.calledOff = true → s'.error.isSome = true) : s'.Sound sources o := by
  refine ⟨fun k other hk => ?_, ?_, ?_, herror, hoff⟩
  · obtain ⟨old, stored, hold, hstored, hkeeps⟩ := h.jobs k other hk
    obtain ⟨hlt, -⟩ := List.getElem?_eq_some_iff.mp hold
    obtain ⟨hlt', -⟩ := List.getElem?_eq_some_iff.mp hstored
    by_cases hki : i = k
    · subst hki
      rw [hi] at hk
      cases hk
      exact ⟨job, result, by simp [hjobs, hlt], by simp [hresults, hlt'], hjob⟩
    · refine ⟨old, stored, ?_, ?_, hkeeps.mono hkept⟩
      · rw [hjobs, List.getElem?_set_ne hki, hold]
      · rw [hresults, List.getElem?_set_ne hki, hstored]
  · rw [hjobs, List.length_set, h.length_jobs]
  · rw [hresults, List.length_set, h.length_results]

private theorem keep (h : s.Sound sources o) (hi : sources[i]? = some source)
    (hjobs : s'.jobs = s.jobs.set i job) (hresults : s'.results = s.results.set i result)
    (herror : s'.error = s.error) (hoff : s'.calledOff = true → s.calledOff = true)
    (hjob : job.Keeps o s.error.isSome source result) : s'.Sound sources o :=
  h.put hi hjobs hresults (herror ▸ hjob) (herror ▸ id) (herror ▸ h.error)
    fun hs => herror ▸ h.calledOff (hoff hs)

/-- What holds of a batch is kept by a step of any job. -/
theorem step (h : s.Sound sources o) (i : Nat) : (s.step sources o i).Sound sources o := by
  unfold State.step
  split
  · next source hjob hi =>
    obtain ⟨result, hresult, hkeeps⟩ := h.keeps hi hjob
    cases hkeeps
    split
    · next hoff =>
      -- the job is not the first to report: what called the batch off was recorded
      obtain ⟨e, he⟩ := Option.isSome_iff_exists.mp (h.calledOff hoff)
      have hsame : (s.report .calledOff).error = s.error := by
        rw [error_report, he, Option.getD_some]
      exact h.keep hi rfl (set_eq_self hresult) hsame (fun _ => hoff) (.given (h.calledOff hoff))
    · exact h.keep hi rfl (set_eq_self hresult) rfl id .started
  · next source hjob hi =>
    obtain ⟨result, hresult, hkeeps⟩ := h.keeps hi hjob
    cases hkeeps
    exact h.keep hi rfl (set_eq_self hresult) rfl id (.compiled rfl)
  · next out source hjob hi =>
    obtain ⟨result, hresult, hkeeps⟩ := h.keeps hi hjob
    cases hkeeps with
    | compiled houtcome => exact h.keep hi rfl rfl rfl id (.stored houtcome)
  · next f source hjob hi =>
    obtain ⟨result, hresult, hkeeps⟩ := h.keeps hi hjob
    cases hkeeps with
    | compiled houtcome =>
      have hblames : Blames sources o (.failed (f.note (blaming source))) :=
        ⟨source, List.mem_of_getElem? hi, f, houtcome, rfl⟩
      have herror := error_report s (.failed (f.note (blaming source)))
      have hfailed : (s.report (.failed (f.note (blaming source)))).error.isSome = true := by
        rw [herror, Option.isSome_some]
      refine h.put hi rfl (set_eq_self hresult) (.given hfailed) (fun _ => hfailed) (fun e he => ?_)
        fun _ => hfailed
      cases herror.symm.trans he
      cases hs : s.error with
      | none => exact hblames
      | some first => exact h.error first hs
  · exact h

/-- What holds of a batch holds under any schedule. -/
theorem run (sources : List Source) (o : Options) (schedule : List Nat) :
    (State.run sources o schedule).Sound sources o := by
  have hfoldl (s : State) (h : s.Sound sources o) :
      (schedule.foldl (State.step sources o) s).Sound sources o := by
    induction schedule generalizing s with
    | nil => exact h
    | cons i schedule ih => exact ih _ (h.step i)
  exact hfoldl _ start

end Sound

/-! ### Jobs come to their end -/

/-- Whether every job of a batch is over. -/
def Finished (s : State) : Prop := ∀ job ∈ s.jobs, job = .over

end State

/-- The number of steps that a job has left, at most. -/
def Job.left : Job → Nat
  | .waiting => 3
  | .started => 2
  | .compiled _ => 1
  | .over => 0

private theorem Job.left_eq_zero_iff (job : Job) : job.left = 0 ↔ job = .over := by
  cases job <;> simp [left]

namespace State

variable {sources : List Source} {o : Options} {s : State}

variable {i : Nat}

/-- A step of a job leaves the others where they are. -/
theorem getElem?_jobs_step {k : Nat} (h : i ≠ k) : (s.step sources o i).jobs[k]? = s.jobs[k]? := by
  have hset (job : Job) : (s.jobs.set i job)[k]? = s.jobs[k]? := List.getElem?_set_ne h
  unfold State.step
  split
  · split <;> exact hset _
  · exact hset _
  · exact hset _
  · exact hset _
  · rfl

variable {source : Source}

/-- A step of a job brings it closer to its end. -/
theorem left_step {job : Job} (hi : sources[i]? = some source) (hjob : s.jobs[i]? = some job) :
    ∃ next, (s.step sources o i).jobs[i]? = some next ∧ next.left ≤ job.left - 1 := by
  have hset (next : Job) : (s.jobs.set i next)[i]? = some next := by
    obtain ⟨hlt, -⟩ := List.getElem?_eq_some_iff.mp hjob
    exact List.getElem?_set_self hlt
  unfold State.step
  rw [hi, hjob]
  cases job with
  | waiting =>
    dsimp only
    split
    · exact ⟨.over, hset _, Nat.zero_le _⟩
    · exact ⟨.started, hset _, Nat.le_refl _⟩
  | started => exact ⟨.compiled _, hset _, Nat.le_refl _⟩
  | compiled outcome => cases outcome <;> exact ⟨.over, hset _, Nat.zero_le _⟩
  | _ => exact ⟨.over, hjob, Nat.zero_le _⟩

/-- A job that a schedule gives so many steps has as many fewer left. -/
theorem left_run (hi : sources[i]? = some source) (schedule : List Nat) :
    ∃ job, (run sources o schedule).jobs[i]? = some job ∧ job.left ≤ 3 - schedule.count i := by
  have hfoldl (s : State) (job : Job) (hjob : s.jobs[i]? = some job) :
      ∃ last, (schedule.foldl (step sources o) s).jobs[i]? = some last ∧
        last.left ≤ job.left - schedule.count i := by
    induction schedule generalizing s job with
    | nil => exact ⟨job, hjob, Nat.le_refl _⟩
    | cons k schedule ih =>
      by_cases hk : k = i
      · subst hk
        obtain ⟨next, hnext, hle⟩ := left_step (o := o) hi hjob
        obtain ⟨last, hlast, hle'⟩ := ih _ next hnext
        refine ⟨last, hlast, ?_⟩
        rw [List.count_cons_self]
        omega
      · rw [List.count_cons_of_ne hk]
        exact ih _ job (by rw [getElem?_jobs_step hk, hjob])
  exact hfoldl _ .waiting (by rw [start, List.getElem?_map, hi, Option.map_some])

/-- A schedule that gives every job three steps brings all of them to their end. -/
theorem finished_run {schedule : List Nat} (h : ∀ i < sources.length, 3 ≤ schedule.count i) :
    (run sources o schedule).Finished := by
  intro job hjob
  obtain ⟨i, hi⟩ := List.mem_iff_getElem?.mp hjob
  obtain ⟨hlt, -⟩ := List.getElem?_eq_some_iff.mp hi
  rw [(Sound.run sources o schedule).length_jobs] at hlt
  obtain ⟨last, hlast, hle⟩ := left_run (o := o) (List.getElem?_eq_getElem hlt) schedule
  cases hi.symm.trans hlast
  have hcount := h i hlt
  exact (Job.left_eq_zero_iff job).mp (by omega)

end State

/-! ### What a batch comes to -/

private theorem forall₂_stored {P : Source → Output → Prop} {results : List (Option Output)}
    {sources : List Source} (hlength : results.length = sources.length)
    (hstored : ∀ (i : Nat) (source : Source), sources[i]? = some source →
      ∃ out, results[i]? = some (some out) ∧ P source out) :
    List.Forall₂ P sources (results.filterMap id) := by
  induction sources generalizing results with
  | nil =>
    rw [List.length_eq_zero_iff.mp hlength]
    exact .nil
  | cons source sources ih =>
    obtain ⟨out, hout, hP⟩ := hstored 0 source rfl
    cases results with
    | nil => cases hout
    | cons result results =>
      cases hout
      exact .cons hP (ih (Nat.succ.inj hlength) fun i => hstored (i + 1))

namespace State.Sound

variable {sources : List Source} {o : Options} {s : State}

/-- A batch that is over without a failure has stored the result of every unit. -/
theorem stored (h : s.Sound sources o) (hfinished : s.Finished) (herror : s.error = none) {i : Nat}
    {source : Source} (hi : sources[i]? = some source) :
    ∃ out, s.results[i]? = some (some out) ∧ (source.compile o).outcome = .ok out := by
  obtain ⟨job, result, hjob, hresult, hkeeps⟩ := h.jobs i source hi
  cases hfinished job (List.mem_of_getElem? hjob)
  cases hkeeps with
  | stored hout => exact ⟨_, hresult, hout⟩
  | given hfailed => rw [herror] at hfailed; cases hfailed

/-- A batch that is over without a failure has the results of its units in their order. -/
theorem conclude_ok (h : s.Sound sources o) (hfinished : s.Finished) (herror : s.error = none) :
    ∃ outs, s.conclude = .ok outs ∧
      List.Forall₂ (fun source out => (source.compile o).outcome = .ok out) sources outs := by
  refine ⟨s.results.filterMap id, ?_, forall₂_stored h.length_results fun i source hi =>
    h.stored hfinished herror hi⟩
  rw [State.conclude, herror]

end State.Sound

variable {sources : List Source} {o : Options}

/-- A batch comes to an end under every schedule that gives each job three steps. Under every
schedule that brings it to its end, the batch has the result of each unit alone, in the order of the
units, if all of them compile; otherwise its error is that of a unit which fails alone, with the
name of that unit attached, and not that it was called off. -/
theorem concludes_under_any_schedule
    (hread : ∀ source ∈ sources, ∀ f, source.read ≠ .error (.fault f)) (schedule : List Nat) :
    ((∀ i < sources.length, 3 ≤ schedule.count i) →
      (State.run sources o schedule).Finished) ∧
    ((State.run sources o schedule).Finished →
      ((∀ source ∈ sources, ∃ out, (source.compile o).outcome = .ok out) →
        ∃ outs, (State.run sources o schedule).conclude = .ok outs ∧
          List.Forall₂ (fun source out => (source.compile o).outcome = .ok out) sources outs) ∧
      ((¬ ∀ source ∈ sources, ∃ out, (source.compile o).outcome = .ok out) →
        ∃ source ∈ sources, ∃ p, (source.compile o).outcome = .error (.problem p) ∧
          (State.run sources o schedule).conclude =
            .error (.failed (.problem (p.note (blaming source)))) ∧
          (p.note (blaming source)).report.item? (text "unit") = some (.str source.name))) := by
  have hsound := State.Sound.run sources o schedule
  refine ⟨State.finished_run, fun hfinished => ⟨fun hcompile => ?_, fun hfail => ?_⟩⟩
  · refine hsound.conclude_ok hfinished ?_
    cases herror : (State.run sources o schedule).error with
    | none => rfl
    | some e =>
      obtain ⟨source, hmem, f, hf, -⟩ := hsound.error e herror
      obtain ⟨out, hout⟩ := hcompile source hmem
      cases hf.symm.trans hout
  · cases herror : (State.run sources o schedule).error with
    | none =>
      refine absurd (fun source hmem => ?_) hfail
      obtain ⟨i, hi⟩ := List.mem_iff_getElem?.mp hmem
      obtain ⟨out, -, hout⟩ := hsound.stored hfinished herror hi
      exact ⟨out, hout⟩
    | some e =>
      obtain ⟨source, hmem, f, hf, rfl⟩ := hsound.error e herror
      cases f with
      | fault f => exact absurd hf (Source.outcome_ne_fault (hread source hmem) o f)
      | problem p =>
        refine ⟨source, hmem, p, hf, ?_, ?_⟩
        · rw [State.conclude, herror]
          rfl
        · rw [blaming, Problem.report_note_data, Cause.strItem, Report.item?_withData, if_pos rfl]

/-- Two units that compile. -/
def soundUnits : List Source :=
  [{ name := text "one", content := text "51", hex := true },
    { name := text "seven", content := text "7" }]

/-- The same with two units whose conditionals are not closed or not opened. -/
def mixedUnits : List Source :=
  soundUnits ++ [{ name := text "open", content := text "1 IF" },
    { name := text "stray", content := text "ENDIF" }]

/-- A schedule in which the last unit fails first and the second one finds the batch called off. -/
def lateSchedule : List Nat := [0, 2, 3, 3, 2, 3, 1, 0, 2, 0, 1, 1]

private theorem isOk_iff {ε : Type} (x : Except ε α) : x.isOk = true ↔ ∃ a, x = .ok a := by
  cases x <;> simp [Except.isOk, Except.toBool]

private theorem read_mixedUnits : ∀ source ∈ mixedUnits, ∀ f, source.read ≠ .error (.fault f) := by
  have hread : ∀ source ∈ mixedUnits, source.read.isOk = true := by decide +kernel
  intro source hmem f hfault
  have hok := hread source hmem
  rw [hfault] at hok
  cases hok

/-- Units of which none fails, and units of which one does. -/
theorem concludes_under_any_schedule_called_off :
    (∀ i < soundUnits.length, 3 ≤ [1, 0, 1, 0, 0, 1].count i) ∧
      (∃ outs, (State.run soundUnits {} [1, 0, 1, 0, 0, 1]).conclude = .ok outs ∧
        List.Forall₂ (fun source out => (source.compile {}).outcome = .ok out) soundUnits outs) ∧
      (∀ i < mixedUnits.length, 3 ≤ lateSchedule.count i) ∧
      ∃ source ∈ mixedUnits, ∃ p, (source.compile {}).outcome = .error (.problem p) ∧
        (State.run mixedUnits {} lateSchedule).conclude =
          .error (.failed (.problem (p.note (blaming source)))) ∧
        (p.note (blaming source)).report.item? (text "unit") = some (.str source.name) := by
  have hfair : ∀ i < soundUnits.length, 3 ≤ [1, 0, 1, 0, 0, 1].count i := by decide
  have hfair' : ∀ i < mixedUnits.length, 3 ≤ lateSchedule.count i := by decide
  have hcompile : ∀ source ∈ soundUnits, (source.compile {}).outcome.isOk = true := by
    decide +kernel
  have hfail : ¬ ∀ source ∈ mixedUnits, (source.compile {}).outcome.isOk = true := by
    decide +kernel
  simp only [isOk_iff] at hcompile hfail
  have hsub : ∀ source ∈ soundUnits, source ∈ mixedUnits := fun _ => List.mem_append_left _
  obtain ⟨hfinished, hends⟩ := concludes_under_any_schedule (o := {})
    (fun source hmem => read_mixedUnits source (hsub source hmem)) [1, 0, 1, 0, 0, 1]
  obtain ⟨hfinished', hends'⟩ :=
    concludes_under_any_schedule (o := {}) read_mixedUnits lateSchedule
  exact ⟨hfair, (hends (hfinished hfair)).1 hcompile, hfair', (hends' (hfinished' hfair')).2 hfail⟩

end Batch

end NamedStack
