import Reshape.Proofs.Machine.Ending
import Reshape.Proofs.Machine.Fresh
import Reshape.Proofs.Machine.Lens
import Reshape.Proofs.Machine.Unrolled

/-!
# Passes over an array

A body that is run on each item of an array makes of an item what it makes of a document of its own:
nothing passes from one item to another, and of the machine that runs the bodies only the document,
the count and the log are changed. So two passes over the items make of them what one pass does in
which the second body comes behind the first and a reset.

* `Machine.Yields`, what a body makes of an item;
* `yields_of_step` and `exists_step_of_yields`: a pass succeeds with what the body makes of each
  item;
* `exists_document_of_passes`, what passes change of the machine;
* `Yields.split` and `Yields.fuse`, two bodies with a reset in between;
* `mapArray_fuses`, one pass and two passes.
-/

namespace Reshape.Machine

variable {fuel : Nat} {body p q : Program} {limits : Limits} {trace : Bool} {m m' : Machine}
  {item value : Json} {items mapped : List Json}

/-- A body makes a value of an item on a fresh machine. -/
def Yields (fuel : Nat) (body : Program) (limits : Limits) (trace : Bool) (item value : Json) :
    Prop :=
  ∃ sub, run fuel body (start item limits trace) = some (.done sub) ∧ sub.document = value

/-! ### One pass -/

/-- What a body does on a machine does not depend on what is in the log. -/
theorem exists_done_of_logsApart (h : m.LogsApart m') {s : Machine}
    (ho : run fuel body m = some (.done s)) :
    ∃ s', run fuel body m' = some (.done s') ∧ s'.document = s.document := by
  obtain ⟨s', ho', log, rfl⟩ :=
    LogsApart.lockstep.run fuel body m m' _ (Program.everyCondition_true body) h ho
  exact ⟨_, ho', rfl⟩

theorem yields_iff (log : List Event) :
    Yields fuel body limits trace item value ↔
      ∃ sub, run fuel body { start item limits trace with log } = some (.done sub) ∧
        sub.document = value := by
  constructor
  · rintro ⟨sub, hsub, rfl⟩
    exact exists_done_of_logsApart ⟨log, rfl⟩ hsub
  · rintro ⟨sub, hsub, rfl⟩
    exact exists_done_of_logsApart ⟨[], rfl⟩ hsub

theorem yields_of_mapItems {index : Nat}
    (h : mapItems (run fuel body) m index items = some (m', .ok mapped)) :
    List.Forall₂ (Yields fuel body m.limits m.trace) items mapped := by
  induction items generalizing m index mapped with
  | nil =>
    cases h
    exact .nil
  | cons item rest ih =>
    unfold mapItems at h
    simp only at h
    split at h
    next => cases h
    next => cases h
    next sub hsub =>
      split at h
      next hrest =>
        cases h
        have htail := ih hrest
        exact .cons ((yields_iff _).2 ⟨sub, hsub, rfl⟩) htail
      next hnot => exact (hnot _ _ h).elim

theorem exists_mapItems_of_yields
    (h : List.Forall₂ (Yields fuel body m.limits m.trace) items mapped) (index : Nat) :
    ∃ m', mapItems (run fuel body) m index items = some (m', .ok mapped) := by
  induction items generalizing m index mapped with
  | nil =>
    cases h
    exact ⟨m, rfl⟩
  | cons item rest ih =>
    cases h with
    | cons hitem hrest =>
      let reported := m.record (.subMachine index m.cursor.path)
      obtain ⟨sub, hsub, rfl⟩ := (yields_iff reported.log).1 hitem
      obtain ⟨m', hmapped⟩ := ih (m := { reported with log := sub.log }) hrest (index + 1)
      have hspawned : run fuel body (reported.spawn item) = some (.done sub) := hsub
      unfold mapItems
      simp only [reported] at hspawned hmapped
      simp only [hspawned, hmapped]
      exact ⟨m', rfl⟩

/-- What is made of the items is written in their place. -/
theorem carryOut_mapArray_eq (hitems : m.cursor.current? = some (.array items)) (r : Runner) :
    m.carryOut r (.mapArray body) = match mapItems (r body) m 0 items with
      | none => none
      | some (m', .error e) => some (.failed e m')
      | some (m', .ok mapped) =>
        some (.done { m' with cursor := m.cursor.put (.array mapped) }) := by
  have hcurrent : m.cursor.current = .ok (.array items) := by rw [Cursor.current, hitems]
  rw [carryOut, mapArray, run_currentItems_of_current hcurrent]
  simp only
  cases hmapped : mapItems (r body) m 0 items with
  | none => rfl
  | some left =>
    obtain ⟨m', result⟩ := left
    obtain ⟨log, rfl⟩ := mapItems_frame hmapped
    cases result with
    | error e => rfl
    | ok mapped =>
      simp only
      rw [Outcome.ofEffect, Effect.write, Effect.run_moveCursor, Cursor.write_eq_put hitems]

/-- A pass succeeds with what the body makes of each item. -/
theorem yields_of_carryOut (hitems : m.cursor.current? = some (.array items))
    (h : m.carryOut (run fuel) (.mapArray body) = some (.done m')) :
    ∃ mapped log, List.Forall₂ (Yields fuel body m.limits m.trace) items mapped ∧
      m' = { m with cursor := m.cursor.put (.array mapped), log } := by
  rw [carryOut_mapArray_eq hitems] at h
  split at h
  next => cases h
  next => cases h
  next m₁ mapped hmapped =>
    obtain ⟨log, rfl⟩ := mapItems_frame hmapped
    cases h
    exact ⟨mapped, log, yields_of_mapItems hmapped, rfl⟩

theorem log_of_carryOut_failed {e : MachineError} (hitems : m.cursor.current? = some (.array items))
    (h : m.carryOut (run fuel) (.mapArray body) = some (.failed e m')) :
    ∃ log, m' = { m with log } := by
  rw [carryOut_mapArray_eq hitems] at h
  split at h
  next => cases h
  next hmapped =>
    cases h
    exact mapItems_frame hmapped
  next => cases h

theorem exists_carryOut_of_yields (hitems : m.cursor.current? = some (.array items))
    (h : List.Forall₂ (Yields fuel body m.limits m.trace) items mapped) :
    ∃ log, m.carryOut (run fuel) (.mapArray body) =
      some (.done { m with cursor := m.cursor.put (.array mapped), log }) := by
  obtain ⟨m', hmapped⟩ := exists_mapItems_of_yields h 0
  obtain ⟨log, rfl⟩ := mapItems_frame hmapped
  rw [carryOut_mapArray_eq hitems]
  simp only [hmapped]
  exact ⟨log, rfl⟩

theorem yields_of_step (hitems : m.cursor.current? = some (.array items))
    (h : step (run fuel) (.mapArray body) m = some (.done m')) :
    m.operations < m.limits.operations ∧
      ∃ mapped log, List.Forall₂ (Yields fuel body m.limits m.trace) items mapped ∧
        m' = { m with
          cursor := m.cursor.put (.array mapped), log, operations := m.operations + 1 } := by
  rw [step_eq] at h
  obtain ⟨carried, hcarried, hfinish⟩ := Option.map_eq_some_iff.1 h
  obtain ⟨log, hannounce⟩ := m.announce_eq (.mapArray body)
  rw [hannounce] at hcarried
  cases carried with
  | failed e m₁ => cases hfinish
  | done m₁ =>
    obtain ⟨mapped, log₁, hyields, rfl⟩ := yields_of_carryOut (m := { m with log }) hitems hcarried
    obtain ⟨log₂, -, hcomplete⟩ := complete_eq
      { m with cursor := m.cursor.put (.array mapped), log := log₁ } (.mapArray body)
    rw [Outcome.finish, hcomplete] at hfinish
    split at hfinish
    next => cases hfinish
    next hroom =>
      cases hfinish
      exact ⟨Nat.not_le.1 hroom, mapped, log₂, hyields, rfl⟩

theorem exists_step_of_yields (hitems : m.cursor.current? = some (.array items))
    (hroom : m.operations < m.limits.operations)
    (h : List.Forall₂ (Yields fuel body m.limits m.trace) items mapped) :
    ∃ log, step (run fuel) (.mapArray body) m = some (.done { m with
      cursor := m.cursor.put (.array mapped), log, operations := m.operations + 1 }) := by
  obtain ⟨log, hannounce⟩ := m.announce_eq (.mapArray body)
  obtain ⟨log₁, hcarried⟩ := exists_carryOut_of_yields (m := { m with log }) hitems h
  obtain ⟨log₂, -, hcomplete⟩ := complete_eq
    { m with cursor := m.cursor.put (.array mapped), log := log₁ } (.mapArray body)
  rw [if_neg (Nat.not_le.2 hroom)] at hcomplete
  have hstep : step (run fuel) (.mapArray body) m = _ :=
    step_eq_some (by rw [hannounce]; exact hcarried)
  exact ⟨log₂, hstep.trans (congrArg some hcomplete)⟩

/-! ### What passes leave alone -/

/-- A pass that fails has written nothing, unless it was one instruction too many. -/
theorem exists_document_of_step {o : Outcome} (hitems : m.cursor.current? = some (.array items))
    (h : step (run fuel) (.mapArray body) m = some o) :
    ∃ document log operations,
      o.machine = { m with cursor := { m.cursor with document }, log, operations } := by
  rw [step_eq] at h
  obtain ⟨carried, hcarried, rfl⟩ := Option.map_eq_some_iff.1 h
  obtain ⟨log, hannounce⟩ := m.announce_eq (.mapArray body)
  rw [hannounce] at hcarried
  cases carried with
  | done m₁ =>
    obtain ⟨mapped, log₁, -, rfl⟩ := yields_of_carryOut (m := { m with log }) hitems hcarried
    obtain ⟨log₂, -, hcomplete⟩ := complete_eq
      { m with cursor := m.cursor.put (.array mapped), log := log₁ } (.mapArray body)
    rw [Outcome.finish, hcomplete]
    split <;> exact ⟨_, log₂, _, rfl⟩
  | failed e m₁ =>
    obtain ⟨log₁, rfl⟩ := log_of_carryOut_failed (m := { m with log }) hitems hcarried
    exact ⟨m.cursor.document, log₁, m.operations, rfl⟩

/-- **Passes over an array change the document, the count and the log**, and nothing else of the
machine, whether they succeed or fail. -/
theorem exists_document_of_passes {bodies : List Program} {o : Outcome}
    (hitems : m.cursor.current? = some (.array items))
    (h : run (fuel + 1) (bodies.map .mapArray) m = some o) :
    ∃ document log operations,
      o.machine = { m with cursor := { m.cursor with document }, log, operations } := by
  rw [run] at h
  induction bodies generalizing m items with
  | nil =>
    cases h
    exact ⟨m.cursor.document, m.log, m.operations, rfl⟩
  | cons body rest ih =>
    rw [List.map_cons, inSequence] at h
    cases hstep : step (run fuel) (.mapArray body) m with
    | none => simp [hstep] at h
    | some first =>
      rw [hstep] at h
      cases first with
      | failed e m₁ =>
        cases h
        exact exists_document_of_step hitems hstep
      | done m₁ =>
        obtain ⟨-, mapped, log, -, hm₁⟩ := yields_of_step hitems hstep
        have hthere : m₁.cursor.current? = some (.array mapped) := by
          rw [hm₁]
          exact Cursor.current?_put hitems (.array mapped)
        obtain ⟨document, log', operations, ho⟩ := ih hthere h
        exact ⟨document, log', operations, by rw [ho, hm₁]; rfl⟩

/-! ### Two bodies with a reset in between -/

/-- A reset is one instruction too many, or it leaves a machine that is a fresh one but for its
count. -/
theorem Named.ahead_of_step_reset (hm : m.Named) (run : Runner) (trace : Bool) :
    (∃ e s, step run .reset m = some (.failed e s) ∧ e.cause.IsOperationLimit) ∨
      ∃ s, step run .reset m = some (.done s) ∧ s.Ahead (start m.document m.limits trace) := by
  obtain ⟨log, hannounce⟩ := m.announce_eq .reset
  have hreset : Effect.reset.left (m.announce .reset) =
      { start m.document m.limits m.trace with operations := m.operations, log } := by
    have hannounced : ({ m with log } : Machine).Named := hm.of_same rfl rfl rfl rfl
    rw [hannounce]
    exact hannounced.left_reset
  rw [step_reset_eq, hreset]
  obtain ⟨log₁, -, hcomplete⟩ := complete_eq
    { start m.document m.limits m.trace with operations := m.operations, log } .reset
  rw [hcomplete]
  split
  next => exact .inl ⟨_, _, rfl, trivial⟩
  next => exact .inr ⟨_, rfl, Nat.zero_le _, ⟨_, _, _, rfl⟩, fun _ hbody => nomatch hbody⟩

/-- What a body leaves in front of a reset. -/
theorem ahead_of_reset_behind {m₁ : Machine}
    (h : run fuel p (start item limits trace) = some (.done m₁)) (run : Runner) :
    (∃ e s, step run .reset m₁ = some (.failed e s) ∧ e.cause.IsOperationLimit) ∨
      ∃ s, step run .reset m₁ = some (.done s) ∧ s.Ahead (start m₁.document limits trace) := by
  have hlimits : m₁.limits = limits := (Outcome.charges_law.run fuel p _ _ h).limits
  have hnamed : m₁.Named := Named.of_run (named_start item limits trace) h
  rw [← hlimits]
  exact hnamed.ahead_of_step_reset run trace

theorem Ahead.document_eq (h : m.Ahead m') : m'.document = m.document := by
  obtain ⟨-, ⟨_, _, _, rfl⟩, -⟩ := h
  rfl

/-- What two bodies make of an item with a reset in between, the second one makes of what the first
one makes of it. -/
theorem Yields.split (hq : Program.EveryCondition StopCondition.IgnoresCount q)
    (h : Yields fuel (p ++ .reset :: q) limits trace item value) :
    ∃ between, Yields fuel p limits trace item between ∧
      Yields fuel q limits trace between value := by
  obtain ⟨sub, hsub, rfl⟩ := h
  obtain ⟨m₁, hfront, hback⟩ := exists_of_run_append hsub
  refine ⟨m₁.document, ⟨m₁, hfront, rfl⟩, ?_⟩
  cases fuel with
  | zero => cases hfront
  | succ fuel =>
    rw [run, inSequence] at hback
    rcases ahead_of_reset_behind hfront (run fuel) with ⟨e, s, hreset, -⟩ | ⟨s, hreset, hahead⟩
    · rw [hreset] at hback
      cases hback
    · rw [hreset] at hback
      obtain ⟨sub', hsub', hdone⟩ := Ahead.lockstep.run (fuel + 1) q s _ _ hq hahead hback
      exact ⟨sub', hsub', hdone.document_eq⟩

/-- It works the other way round if the count of both does not get to the ceiling. -/
theorem Yields.fuse {between : Json} (hq : Program.EveryCondition StopCondition.IgnoresCount q)
    (hfirst : Yields fuel p limits trace item between)
    (hsecond : Yields fuel q limits trace between value)
    (hroom : ∀ e sub,
      run fuel (p ++ .reset :: q) (start item limits trace) = some (.failed e sub) →
      ¬ e.cause.IsOperationLimit) :
    Yields fuel (p ++ .reset :: q) limits trace item value := by
  obtain ⟨m₁, hfront, rfl⟩ := hfirst
  obtain ⟨sub', hsub', rfl⟩ := hsecond
  cases fuel with
  | zero => cases hfront
  | succ fuel =>
    have hwhole : run (fuel + 1) (p ++ .reset :: q) (start item limits trace) =
        Outcome.andThen (run (fuel + 1) q) (step (run fuel) .reset m₁) := by
      rw [run] at hfront ⊢
      rw [inSequence_append, hfront]
      rfl
    rcases ahead_of_reset_behind hfront (run fuel) with ⟨e, s, hreset, hlimit⟩ | ⟨s, hreset, hahead⟩
    · rw [hreset] at hwhole
      exact (hroom e s hwhole hlimit).elim
    · rw [hreset] at hwhole
      replace hwhole : _ = run (fuel + 1) q s := hwhole
      -- What is known is the run on the fresh machine. The one behind the reset has counted more,
      -- so that it ends has to be shown before the two can be compared.
      obtain ⟨o, ho⟩ := Ahead.lockstep.exists_run (fuel + 1) q s _ _ hq hahead hsub'
      have htold := Ahead.lockstep.run (fuel + 1) q s _ o hq hahead ho
      cases o with
      | done sub =>
        obtain ⟨sub'', hsub'', hdone⟩ := htold
        cases hsub'.symm.trans hsub''
        exact ⟨sub, hwhole.trans ho, hdone.document_eq.symm⟩
      | failed e sub =>
        rcases htold with hlimit | ⟨sub'', hsub'', -⟩
        · exact (hroom e sub (hwhole.trans ho) hlimit).elim
        · cases hsub'.symm.trans hsub''

/-! ### One pass and two passes -/

theorem forall₂_split (hq : Program.EveryCondition StopCondition.IgnoresCount q)
    (h : List.Forall₂ (Yields fuel (p ++ .reset :: q) limits trace) items mapped) :
    ∃ between, List.Forall₂ (Yields fuel p limits trace) items between ∧
      List.Forall₂ (Yields fuel q limits trace) between mapped := by
  induction h with
  | nil => exact ⟨[], .nil, .nil⟩
  | cons hitem _ ih =>
    obtain ⟨value, hp, hq⟩ := hitem.split hq
    obtain ⟨between, hps, hqs⟩ := ih
    exact ⟨value :: between, .cons hp hps, .cons hq hqs⟩

theorem forall₂_fuse {between : List Json}
    (hq : Program.EveryCondition StopCondition.IgnoresCount q)
    (hfirst : List.Forall₂ (Yields fuel p limits trace) items between)
    (hsecond : List.Forall₂ (Yields fuel q limits trace) between mapped)
    (hroom : ∀ item ∈ items, ∀ e sub,
      run fuel (p ++ .reset :: q) (start item limits trace) = some (.failed e sub) →
      ¬ e.cause.IsOperationLimit) :
    List.Forall₂ (Yields fuel (p ++ .reset :: q) limits trace) items mapped := by
  induction hfirst generalizing mapped with
  | nil =>
    cases hsecond
    exact .nil
  | cons hitem _ ih =>
    cases hsecond with
    | cons hvalue hrest =>
      rw [List.forall_mem_cons] at hroom
      exact .cons (hitem.fuse hq hvalue hroom.1) (ih hrest hroom.2)

/-- **Passes over an array fuse.** Take a machine at an array and two bodies, of which the second
one asks for the count nowhere. A pass that succeeds has put in place of each item what its body
makes of it on a machine of its own. If one pass with both bodies and a reset in between succeeds,
then so do a pass with the first body and another one with the second, and they leave the same
document, as long as the machine may count two more instructions. If the two passes succeed, then so
does the one pass, and it leaves the same document, unless both bodies together reach the ceiling of
instructions on an item. Passes change nothing of the machine but the document, the count and the
log. -/
theorem mapArray_fuses (hitems : m.cursor.current? = some (.array items))
    (hq : Program.EveryCondition StopCondition.IgnoresCount q) :
    (∀ body m₁, run (fuel + 1) [.mapArray body] m = some (.done m₁) →
      ∃ mapped, List.Forall₂ (Yields fuel body m.limits m.trace) items mapped ∧
        m₁.cursor = m.cursor.put (.array mapped)) ∧
      (∀ m₁, run (fuel + 1) [.mapArray (p ++ .reset :: q)] m = some (.done m₁) →
        m.operations + 2 ≤ m.limits.operations →
        ∃ m₂, run (fuel + 1) [.mapArray p, .mapArray q] m = some (.done m₂) ∧
          m₂.document = m₁.document) ∧
      (∀ m₂, run (fuel + 1) [.mapArray p, .mapArray q] m = some (.done m₂) →
        (∀ item ∈ items, ∀ e sub,
          run fuel (p ++ .reset :: q) (start item m.limits m.trace) = some (.failed e sub) →
          ¬ e.cause.IsOperationLimit) →
        ∃ m₁, run (fuel + 1) [.mapArray (p ++ .reset :: q)] m = some (.done m₁) ∧
          m₁.document = m₂.document) ∧
      ∀ (bodies : List Program) (o : Outcome),
        run (fuel + 1) (bodies.map .mapArray) m = some o →
        ∃ document log operations,
          o.machine = { m with cursor := { m.cursor with document }, log, operations } := by
  refine ⟨fun body m₁ hpass => ?_, fun m₁ hone hroom => ?_, fun m₂ htwo hroom => ?_,
    fun bodies o => exists_document_of_passes hitems⟩
  · rw [run_singleton] at hpass
    obtain ⟨-, mapped, log, hmapped, rfl⟩ := yields_of_step hitems hpass
    exact ⟨mapped, hmapped, rfl⟩
  · rw [run_singleton] at hone
    obtain ⟨-, mapped, log, hmapped, rfl⟩ := yields_of_step hitems hone
    obtain ⟨between, hps, hqs⟩ := forall₂_split hq hmapped
    obtain ⟨log₁, hfirst⟩ := exists_step_of_yields hitems (by omega) hps
    obtain ⟨log₂, hsecond⟩ := exists_step_of_yields (m := { m with
      cursor := m.cursor.put (.array between), log := log₁, operations := m.operations + 1 })
      (Cursor.current?_put hitems (.array between)) hroom hqs
    refine ⟨_, inSequence_pair hfirst hsecond, ?_⟩
    exact congrArg Cursor.document (Cursor.put_put hitems (.array between) (.array mapped))
  · obtain ⟨m₁, hfirst, hsecond⟩ : ∃ m₁, run (fuel + 1) [.mapArray p] m = some (.done m₁) ∧
        run (fuel + 1) [.mapArray q] m₁ = some (.done m₂) := exists_of_run_append htwo
    rw [run_singleton] at hfirst hsecond
    obtain ⟨hcount, between, log₁, hps, rfl⟩ := yields_of_step hitems hfirst
    obtain ⟨-, mapped, log₂, hqs, rfl⟩ :=
      yields_of_step (Cursor.current?_put hitems (.array between)) hsecond
    obtain ⟨log, hone⟩ := exists_step_of_yields hitems hcount (forall₂_fuse hq hps hqs hroom)
    rw [run_singleton]
    refine ⟨_, hone, ?_⟩
    exact congrArg Cursor.document (Cursor.put_put hitems (.array between) (.array mapped)).symm

/-- The first body gives each of two objects a field, and the second one another field, which it
finds because the reset has gone back to the root of the object. -/
theorem mapArray_fuses_on_two_objects :
    ∃ (m m₁ m₂ : Machine) (p q : Program),
      m.cursor.current? = some (.array [.object [], .object [("a", .null)]]) ∧
      p = [.moveIntoField .leaf "a", .storeElement (.bool true)] ∧
      q = [.moveIntoField .leaf "b", .pushElement, .storeElement (.text "c")] ∧
      Program.EveryCondition StopCondition.IgnoresCount q ∧
      run 2 [.mapArray p, .mapArray q] m = some (.done m₂) ∧
      m₂.document = .array [.object [("a", .bool true), ("b", .text "c")],
        .object [("a", .bool true), ("b", .text "c")]] ∧
      run 2 [.mapArray (p ++ .reset :: q)] m = some (.done m₁) ∧
      m₁.document = m₂.document ∧ m₁.elements = m.elements := by
  let m : Machine := start (.array [.object [], .object [("a", .null)]]) {} false
  let p : Program := [.moveIntoField .leaf "a", .storeElement (.bool true)]
  let q : Program := [.moveIntoField .leaf "b", .pushElement, .storeElement (.text "c")]
  have hitems : m.cursor.current? = some (.array [.object [], .object [("a", .null)]]) := rfl
  have hq : Program.EveryCondition StopCondition.IgnoresCount q :=
    ⟨trivial, trivial, trivial, trivial⟩
  have htwo : ∃ m₂, run 2 [.mapArray p, .mapArray q] m = some (.done m₂) ∧
      m₂.document = .array [.object [("a", .bool true), ("b", .text "c")],
        .object [("a", .bool true), ("b", .text "c")]] := ⟨_, rfl, rfl⟩
  have hdone : ∀ item ∈ [Json.object [], .object [("a", .null)]],
      (run 1 (p ++ .reset :: q) (start item m.limits m.trace)).map Outcome.isDone = some true := by
    intro item hitem
    rcases List.mem_pair.1 hitem with rfl | rfl <;> decide +kernel
  obtain ⟨m₂, htwo, hdocument⟩ := htwo
  obtain ⟨-, -, hback, huntouched⟩ := mapArray_fuses (p := p) hitems hq
  obtain ⟨m₁, hone, hsame⟩ := hback m₂ htwo fun item hitem e sub hfailed => by
    have hitem := hdone item hitem
    rw [hfailed] at hitem
    cases hitem
  obtain ⟨document, log, operations, hm₁⟩ := huntouched [p ++ .reset :: q] _ hone
  have helements : m₁.elements = m.elements := by
    replace hm₁ : m₁ = { m with cursor := { m.cursor with document }, log, operations } := hm₁
    rw [hm₁]
  exact ⟨m, m₁, m₂, p, q, hitems, rfl, rfl, hq, htwo, hdocument, hone, hsame, helements⟩

end Reshape.Machine
