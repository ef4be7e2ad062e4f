import Reshape.Proofs.Machine.Budget
import Reshape.Proofs.Machine.Ending
import Reshape.Proofs.Machine.Unrolled

/-!
# Tracing

With tracing on a machine reports when an instruction starts and when it has not failed. That is all
it does: the same program does the same with tracing off, and reports the same but for those. In the
reports of a run that succeeds every instruction that has started is done, and those that it has run
itself are done before it.

* `Event.plain?`, what is left of an event with tracing off;
* `Event.Balanced`, reports in which starts and ends of instructions belong together;
* `Outcome.Reports`, what a run adds to the log, and `Outcome.reports_law`;
* `Machine.TracedApart`, a machine with tracing on and one with tracing off, which run in step;
* `Machine.exists_untraces` and `Machine.exists_execute_traced`, from a call with tracing on to the
  one with tracing off and back;
* `Machine.execute_withTrace`, for both.
-/

namespace Reshape

/-- What is left of an event with tracing off. The start and the end of an instruction are not
reported. -/
def Event.plain? : Event → Option Event
  | executing instructions _ => some (executing instructions false)
  | step .. => none
  | done .. => none
  | event => some event

/-- Reports, the earliest first, in which an instruction that has started is done later, behind the
reports of what it has run. Starts and ends are like brackets, with the instruction to tell which
ones belong together. -/
inductive Event.Balanced : List Event → Prop
  | nil : Balanced []
  | plain {event : Event} {rest : List Event} (hevent : event.plain?.isSome)
      (hrest : Balanced rest) : Balanced (event :: rest)
  | instruction (i : Instruction) (path : String) {inner rest : List Event}
      (elements values : Nat) (document : Json) (hinner : Balanced inner) (hrest : Balanced rest) :
      Balanced (.step i.text path :: (inner ++ .done i.name elements values document :: rest))

theorem Event.Balanced.append {events rest : List Event} (h : Balanced events)
    (hrest : Balanced rest) : Balanced (events ++ rest) := by
  induction h with
  | nil => exact hrest
  | plain hevent _ ih => exact .plain hevent ih
  | instruction i path elements values document hinner _ _ ih =>
    rw [List.cons_append, List.append_assoc, List.cons_append]
    exact .instruction i path elements values document hinner ih

namespace Machine

variable {m m' : Machine}

/-! ### Single instructions -/

theorem announce_of_trace (h : m.trace = true) (i : Instruction) :
    m.announce i = m.record (.step i.text m.cursor.path) := if_pos h

theorem announce_of_not_trace (h : m.trace = false) (i : Instruction) : m.announce i = m :=
  if_neg (h ▸ Bool.false_ne_true)

theorem confirm_of_trace (h : m.trace = true) (i : Instruction) :
    m.confirm i = m.record (.done i.name m.elements.length m.values.length m.document) := if_pos h

theorem confirm_of_not_trace (h : m.trace = false) (i : Instruction) : m.confirm i = m :=
  if_neg (h ▸ Bool.false_ne_true)

theorem complete_reports (m : Machine) (i : Instruction) :
    (m.complete i).machine.trace = m.trace ∧ (m.complete i).machine.log = (m.confirm i).log := by
  obtain ⟨log, hlog, hcomplete⟩ := m.complete_eq i
  rw [hcomplete, hlog]
  split <;> exact ⟨rfl, rfl⟩

/-! ### With tracing off -/

/-- Tracing is off, and has been as long as anything has been reported. -/
def Untraced (m : Machine) : Prop := m.trace = false ∧ m.log.filterMap Event.plain? = m.log

theorem Untraced.record {event : Event} (h : m.Untraced) (hevent : event.plain? = some event) :
    (m.record event).Untraced := by
  refine ⟨h.1, ?_⟩
  rw [Machine.record, List.filterMap_cons_some hevent, h.2]

theorem Untraced.of_same (h : m.Untraced) (htrace : m'.trace = m.trace) (hlog : m'.log = m.log) :
    m'.Untraced := by
  unfold Untraced
  rw [htrace, hlog]
  exact h

end Machine

open Machine

/-- Without tracing no run reports anything that tracing off would leave out. -/
theorem Outcome.untraced_law : Outcome.Law fun m o => m.Untraced → o.machine.Untraced where
  refl _ := id
  bare _ _ := id
  trans h ho := ho ∘ h
  announce m i h := by
    rw [announce_of_not_trace h.1]
    exact h
  perform i m h := by
    obtain ⟨_, _, _, _, _, _, hleft⟩ := i.perform_frame m
    rw [Effect.machine_ofEffect, hleft]
    exact h
  complete m i h := by
    obtain ⟨htrace, hlog⟩ := m.complete_reports i
    rw [confirm_of_not_trace h.1] at hlog
    exact h.of_same htrace hlog
  fail _ h := h
  setCounter _ _ _ := id
  loop {m o} h hm := by
    have hloop : o.machine.Untraced := h hm
    cases o with
    | done m' => exact hloop.record rfl
    | failed e m' => exact hloop.record rfl
  item {m index item o} h hm := by
    have hitem : (m.record (.subMachine index m.cursor.path)).Untraced := hm.record rfl
    have hsub := h hitem
    cases o with
    | done sub => exact ⟨hm.1, hsub.2⟩
    | failed e sub => exact ⟨hm.1, hsub.2⟩

/-! ### With tracing on -/

/-- A run that succeeds with tracing on adds balanced reports to the log. -/
def Outcome.Balances (m : Machine) : Outcome → Prop
  | .done m' => m.trace = true →
      m'.trace = true ∧ ∃ events, Event.Balanced events ∧ m'.log = events.reverse ++ m.log
  | .failed .. => True

namespace Outcome.Balances

variable {m m' : Machine} {o : Outcome}

/-- Nothing is reported. -/
theorem of_same (htrace : m'.trace = m.trace) (hlog : m'.log = m.log) : Balances m (.done m') :=
  fun hm => ⟨htrace.trans hm, [], .nil, hlog⟩

theorem trans (h : Balances m (.done m')) (ho : Balances m' o) : Balances m o := by
  cases o with
  | failed e m'' => trivial
  | done m'' =>
    intro hm
    obtain ⟨hm', events, hevents, hlog⟩ := h hm
    obtain ⟨hm'', events', hevents', hlog'⟩ := ho hm'
    refine ⟨hm'', events ++ events', hevents.append hevents', ?_⟩
    rw [hlog', hlog, List.reverse_append, List.append_assoc]

theorem record {event : Event} (hevent : event.plain?.isSome) :
    Balances m (.done (m.record event)) :=
  fun hm => ⟨hm, [event], .plain hevent .nil, rfl⟩

/-- The reports of an instruction stand around those of what it runs. -/
theorem around (i : Instruction) (h : Balances (m.announce i) o) : Balances m (o.finish i) := by
  cases o with
  | failed e m' => trivial
  | done m' =>
    obtain ⟨htrace, hlog⟩ := m'.complete_reports i
    rw [finish]
    cases hcomplete : m'.complete i with
    | failed e m'' => trivial
    | done m'' =>
      intro hm
      rw [hcomplete] at htrace hlog
      rw [announce_of_trace hm] at h
      obtain ⟨hm', events, hevents, hrun⟩ := h hm
      refine ⟨htrace.trans hm', _, .instruction i m.cursor.path m'.elements.length
        m'.values.length m'.document hevents .nil, ?_⟩
      rw [confirm_of_trace hm'] at hlog
      simp only [machine, Machine.record] at hlog hrun
      simp [hlog, hrun]

end Outcome.Balances

theorem Outcome.balances_law : Outcome.RunLaw Outcome.Balances where
  refl _ := .of_same rfl rfl
  bare _ _ := trivial
  trans := .trans
  perform i m := by
    obtain ⟨_, _, _, _, _, _, hleft⟩ := i.perform_frame m
    rw [← Effect.machine_ofEffect] at hleft
    cases ho : ofEffect i.perform m with
    | failed e m' => trivial
    | done m' =>
      rw [ho, Outcome.machine] at hleft
      exact .of_same (by rw [hleft]) (by rw [hleft])
  around := .around
  setCounter _ _ _ := .of_same rfl rfl
  loop {m o} h := by
    cases o with
    | failed e m' => trivial
    | done m' =>
      have hloop : Balances m (.done m') := h
      have hleave : Balances m' (.done (m'.leaveLoop (m.loopLevel + 1) true)) :=
        fun hm' => ⟨hm', [.loopFinished _ _ _], .plain rfl .nil, rfl⟩
      exact hloop.trans hleave
  item {m index item o} h := by
    cases o with
    | failed e sub => trivial
    | done sub =>
      have hitem : Balances m (.done (m.record (.subMachine index m.cursor.path))) := .record rfl
      exact hitem.trans fun hm => ⟨hm, (h hm).2⟩

/-! ### Side by side -/

/-- A machine with tracing on and one with tracing off: they differ in that and in what they have
reported of single instructions. -/
def Machine.TracedApart (m m' : Machine) : Prop :=
  m.trace = true ∧ ∃ log, m' = { m with trace := false, log } ∧
    log.filterMap Event.plain? = m.log.filterMap Event.plain?

theorem Machine.TracedApart.lockstep :
    Lockstep (fun _ => True) (fun _ => False) TracedApart where
  alike := by
    rintro m _ ⟨-, log, rfl, -⟩
    exact ⟨_, _, _, log, rfl⟩
  bodies _ body _ := Program.everyCondition_true body
  data := by
    rintro m _ ⟨hm, log, rfl, hlog⟩ _ _ _
    exact ⟨hm, log, rfl, hlog⟩
  control := by
    rintro m _ ⟨hm, log, rfl, hlog⟩ _ _ _ _
    exact ⟨hm, log, rfl, hlog⟩
  record := by
    rintro m _ ⟨hm, log, rfl, hlog⟩ event
    refine ⟨hm, event :: log, rfl, ?_⟩
    rw [Machine.record, List.filterMap_cons, List.filterMap_cons, hlog]
  announce := by
    rintro m _ ⟨hm, log, rfl, hlog⟩ i
    rw [announce_of_trace hm, announce_of_not_trace rfl]
    exact ⟨hm, log, rfl, hlog⟩
  complete := by
    rintro m _ ⟨hm, log, rfl, hlog⟩ i
    obtain ⟨log₁, hlog₁, hcomplete⟩ := m.complete_eq i
    obtain ⟨log₂, hlog₂, hcomplete'⟩ := complete_eq { m with trace := false, log } i
    have hsame : log₂.filterMap Event.plain? = log₁.filterMap Event.plain? := by
      rw [← hlog₁, ← hlog₂, confirm_of_trace hm, confirm_of_not_trace rfl]
      exact hlog
    rw [hcomplete, hcomplete']
    split
    · exact .inr ⟨_, rfl, hm, log₂, rfl, hsame⟩
    · exact ⟨_, rfl, hm, log₂, rfl, hsame⟩
  custom := by
    rintro m _ predicate ⟨-, log, rfl, -⟩ -
    rfl
  padding := by
    rintro m _ ⟨-, log, rfl, -⟩
    exact .inl rfl
  rounds := by
    rintro m _ ⟨-, log, rfl, -⟩
    exact .inl rfl
  spawn := by
    rintro m _ ⟨hm, log, rfl, hlog⟩ item
    refine ⟨hm, log, ?_, hlog⟩
    rw [spawn, spawn, hm]
    rfl
  rejoin := by
    rintro m _ sub _ ⟨hm, _, rfl, -⟩ ⟨-, log, rfl, hlog⟩
    exact ⟨hm, log, rfl, hlog⟩

/-! ### Calls -/

/-- How a call ends with tracing on, and how it ends with tracing off. -/
structure Outcome.Untraces (traced plain : Outcome) : Prop where
  error : plain.error? = traced.error?
  machine : plain.machine = { traced.machine with
    trace := false, log := traced.machine.log.filterMap Event.plain? }
  balanced : traced.isDone = true → Event.Balanced traced.machine.log.reverse

namespace Machine

/-- A machine with tracing on or off, before it reports anything. -/
def withTrace (trace : Bool) (m : Machine) : Machine := { m with trace, log := [] }

theorem tracedApart_of_withTrace (m : Machine) (program : Program) :
    TracedApart ((m.withTrace true).record (.executing program.length true))
      ((m.withTrace false).record (.executing program.length false)) := ⟨rfl, _, rfl, rfl⟩

/-- A call that ends with tracing on ends in the same way with tracing off. -/
theorem exists_untraces {fuel : Nat} {program : Program} {m : Machine} {o : Outcome}
    (ho : (m.withTrace true).execute fuel program = some o) :
    ∃ o', (m.withTrace false).execute fuel program = some o' ∧ o.Untraces o' := by
  have htold := TracedApart.lockstep.run fuel program _ _ o (Program.everyCondition_true program)
    (tracedApart_of_withTrace m program) ho
  obtain ⟨o', ho', herror, -, log, hmachine, hlog⟩ := htold.exists_same
  have hplain := Outcome.untraced_law.run fuel program _ o' ho' ⟨rfl, rfl⟩
  have hbalances := Outcome.balances_law.run fuel program _ o ho
  refine ⟨o', ho', herror, ?_, fun hdone => ?_⟩
  · rw [hmachine] at hplain
    rw [hmachine, ← hlog, hplain.2]
  · cases o with
    | failed e t => cases hdone
    | done t =>
      obtain ⟨-, events, hevents, hreported⟩ := hbalances rfl
      rw [Outcome.machine, hreported, List.reverse_append, List.reverse_reverse]
      exact .plain rfl hevents

/-- A call that ends with tracing off ends with tracing on. -/
theorem exists_execute_traced {fuel : Nat} {program : Program} {m : Machine} {o' : Outcome}
    (ho' : (m.withTrace false).execute fuel program = some o') :
    ∃ o, (m.withTrace true).execute fuel program = some o ∧ o.Untraces o' := by
  obtain ⟨o, ho⟩ := TracedApart.lockstep.exists_run fuel program _ _ o'
    (Program.everyCondition_true program) (tracedApart_of_withTrace m program) ho'
  obtain ⟨plain, hplain, huntraces⟩ := exists_untraces (m := m) ho
  cases ho'.symm.trans hplain
  exact ⟨o, ho, huntraces⟩

/-- **Tracing is inert and balanced.** A program ends on a machine with tracing on if and only if it
ends with tracing off. It has the same result then, or the same error with the same frames, and
leaves the same machine. What is reported with tracing off is what is left of the reports with
tracing on, and these are balanced if the program succeeds. -/
theorem execute_withTrace (fuel : Nat) (program : Program) (m : Machine) :
    Option.Rel Outcome.Untraces ((m.withTrace true).execute fuel program)
      ((m.withTrace false).execute fuel program) := by
  cases ho : (m.withTrace true).execute fuel program with
  | none =>
    cases ho' : (m.withTrace false).execute fuel program with
    | none => exact .none
    | some o' =>
      obtain ⟨o, hends, -⟩ := exists_execute_traced ho'
      cases ho.symm.trans hends
  | some o =>
    obtain ⟨o', ho', huntraces⟩ := exists_untraces ho
    rw [ho']
    exact .some huntraces

/-- An item is replaced. With tracing on, the start and the end of the instruction that replaces it
are reported between those of the one that runs it; with tracing off, there is a report of the call
and one of the item. -/
theorem execute_withTrace_of_item :
    ∃ m m' : Machine,
      ((start (.array [.null]) {} false).withTrace true).execute 2 [.mapArray [.createObject]] =
        some (.done m) ∧
      ((start (.array [.null]) {} false).withTrace false).execute 2 [.mapArray [.createObject]] =
        some (.done m') ∧
      m.log.reverse = [.executing 1 true, .step "MapArray(1 instructions)" "$",
        .subMachine 0 "$", .step "CreateObject" "$", .done "CreateObject" 0 0 (.object []),
        .done "MapArray" 0 0 (.array [.object []])] ∧
      Event.Balanced m.log.reverse ∧
      m' = { m with trace := false, log := [.subMachine 0 "$", .executing 1 false] } := by
  have hrel := execute_withTrace 2 [.mapArray [.createObject]] (start (.array [.null]) {} false)
  obtain ⟨m, hm, hlog⟩ : ∃ m : Machine, ((start (.array [.null]) {} false).withTrace true).execute 2
      [.mapArray [.createObject]] = some (.done m) ∧
      m.log.reverse = [.executing 1 true, .step "MapArray(1 instructions)" "$",
        .subMachine 0 "$", .step "CreateObject" "$", .done "CreateObject" 0 0 (.object []),
        .done "MapArray" 0 0 (.array [.object []])] := ⟨_, rfl, rfl⟩
  rw [hm] at hrel
  cases ho : ((start (.array [.null]) {} false).withTrace false).execute 2
      [.mapArray [.createObject]] with
  | none =>
    rw [ho] at hrel
    cases hrel
  | some o =>
    rw [ho] at hrel
    cases hrel with
    | some huntraces =>
      cases o with
      | failed e m' => cases huntraces.error
      | done m' =>
        refine ⟨m, m', hm, rfl, hlog, huntraces.balanced rfl, ?_⟩
        have hplain : m.log.filterMap Event.plain? = [.subMachine 0 "$", .executing 1 false] := by
          rw [List.reverse_eq_iff.1 hlog]
          rfl
        rw [← hplain]
        exact huntraces.machine

end Machine

end Reshape
