import Reshape.Proofs.Machine.Budget
import Reshape.Proofs.Machine.Lockstep
import Reshape.Proofs.Machine.Rounds

/-!
# Loops unrolled

A loop does what its body does that many times in a row, if the body leaves the command stack alone.
The loop keeps a level and a counter, which no other instruction sees, and it is counted itself.

* `Instruction.isFlat`, an instruction that leaves the command stack alone, and `Program.unrolled`;
* `Machine.FailsAt`, where a run fails;
* `Machine.OffLoop`, a machine in a loop and the same one outside, with `OffLoop.run`: a flat
  program runs in step on the two;
* `Rounds.exists_unrolled`, so many rounds of a loop;
* `loopUntil_unrolled`, for loops that succeed and for loops that fail.
-/

namespace Reshape

/-- The instruction neither changes the command stack nor runs what is on it. -/
def Instruction.isFlat : Instruction → Bool
  | pushCommand _ => false
  | popCommand => false
  | loopUntil _ => false
  | reset => false
  | _ => true

namespace Program

/-- A body so many times in a row. -/
def unrolled (count : Nat) (body : Program) : Program := (List.replicate count body).flatten

theorem unrolled_succ (count : Nat) (body : Program) :
    unrolled (count + 1) body = unrolled count body ++ body := by
  simp [unrolled, List.replicate_succ']

theorem length_unrolled (count : Nat) (body : Program) :
    (unrolled count body).length = count * body.length := by
  simp [unrolled]

/-- The instructions in front of one of the last round. -/
theorem take_unrolled (count index : Nat) (body : Program) :
    (unrolled (count + 1) body).take (count * body.length + index) =
      unrolled count body ++ body.take index := by
  rw [unrolled_succ, ← length_unrolled, List.take_length_add_append]

theorem getElem?_unrolled (count index : Nat) (body : Program) :
    (unrolled (count + 1) body)[count * body.length + index]? = body[index]? := by
  rw [unrolled_succ, ← length_unrolled, List.getElem?_append_right (Nat.le_add_right _ _),
    Nat.add_sub_cancel_left]

end Program

mutual
theorem Instruction.everyCondition_true (i : Instruction) :
    i.EveryCondition fun _ => True := by
  cases i with
  | pushCommand body => exact Program.everyCondition_true body
  | mapArray body => exact Program.everyCondition_true body
  | jumpIfTrue inner => exact Instruction.everyCondition_true inner
  | jumpIfFalse inner => exact Instruction.everyCondition_true inner
  | _ => trivial

theorem Program.everyCondition_true (program : List Instruction) :
    Program.EveryCondition (fun _ => True) program := by
  cases program with
  | nil => trivial
  | cons i rest => exact ⟨Instruction.everyCondition_true i, Program.everyCondition_true rest⟩
end

namespace Machine

variable {condition : StopCondition} {level limit rounds fuel index : Nat} {body program : Program}
  {start head m m' flat : Machine} {e : MachineError} {o : Outcome}

/-! ### Where a run fails -/

/-- The instructions of a program in front of an index succeed, and the one at the index fails. -/
def FailsAt (fuel : Nat) (program : Program) (m : Machine) (index : Nat) (e : MachineError) :
    Prop :=
  ∃ i before after, program[index]? = some i ∧
    Machine.run fuel (program.take index) m = some (.done before) ∧
    Machine.run fuel [i] before = some (.failed e after)

/-- A run that fails, fails somewhere. -/
theorem exists_failsAt (ho : Machine.run fuel program m = some (.failed e m')) :
    ∃ index, FailsAt fuel program m index e := by
  cases fuel with
  | zero => cases ho
  | succ fuel =>
    obtain ⟨before, i, after, m₁, rfl, hbefore, hi⟩ := exists_of_inSequence_failed ho
    refine ⟨before.length, i, m₁, m', by simp, ?_, (run_singleton fuel i m₁).trans hi⟩
    rw [List.take_left]
    exact hbefore

namespace FailsAt

/-- What fails somewhere, fails. -/
theorem run_failed (h : FailsAt fuel program m index e) :
    ∃ after, Machine.run fuel program m = some (.failed e after) := by
  obtain ⟨i, before, after, hi, hbefore, hafter⟩ := h
  cases fuel with
  | zero => cases hafter
  | succ fuel =>
    obtain ⟨hlt, hget⟩ := List.getElem?_eq_some_iff.1 hi
    rw [Machine.run] at hbefore hafter ⊢
    have hrest : inSequence (step (Machine.run fuel)) (i :: program.drop (index + 1)) before =
        some (.failed e after) := by
      rw [← List.singleton_append, inSequence_append, hafter]
    refine ⟨after, ?_⟩
    rw [← List.take_append_drop index program, List.drop_eq_getElem_cons hlt, hget,
      inSequence_append, hbefore]
    exact hrest

/-- What fails in a body, fails in the last round behind so many of them. -/
theorem unrolled {count : Nat} (h : FailsAt fuel body flat index e)
    (hflat : Machine.run fuel (Program.unrolled count body) m = some (.done flat)) :
    FailsAt fuel (Program.unrolled (count + 1) body) m (count * body.length + index) e := by
  obtain ⟨i, before, after, hi, hbefore, hafter⟩ := h
  refine ⟨i, before, after, ?_, ?_, hafter⟩
  · rw [Program.getElem?_unrolled, hi]
  · cases fuel with
    | zero => cases hflat
    | succ fuel =>
      rw [Machine.run] at hflat hbefore ⊢
      rw [Program.take_unrolled, inSequence_append, hflat]
      exact hbefore

theorem mono {more : Nat} (hle : fuel ≤ more) (h : FailsAt fuel program m index e) :
    FailsAt more program m index e := by
  obtain ⟨i, before, after, hi, hbefore, hafter⟩ := h
  exact ⟨i, before, after, hi, run_mono hle hbefore, run_mono hle hafter⟩

end FailsAt

/-! ### In a loop and outside -/

/-- Two machines differ in their logs only. -/
def LogsApart (m m' : Machine) : Prop := ∃ log, m' = { m with log }

/-- A machine in a loop, with bodies on its command stack, and the same machine outside: they differ
in their loops and logs only. -/
def OffLoop (commands : Stack Program) (m m' : Machine) : Prop :=
  m.commands = commands ∧ ∃ loopLevel loopCounters log, m' = { m with loopLevel, loopCounters, log }

/-- An instruction is counted in a loop as it is outside. -/
theorem complete_foretells {R : Machine → Machine → Prop} {Excused : Failure → Prop} {m : Machine}
    {loopLevel : Nat} {loopCounters : Entries Nat Nat} {log : List Event}
    (hR : ∀ operations log log',
      R { m with operations, log } { m with loopLevel, loopCounters, operations, log := log' })
    (i : Instruction) :
    (m.complete i).Foretells R Excused
      (some (complete { m with loopLevel, loopCounters, log } i)) := by
  obtain ⟨_, -, hcomplete⟩ := m.complete_eq i
  obtain ⟨_, -, hcomplete'⟩ := complete_eq { m with loopLevel, loopCounters, log } i
  rw [hcomplete, hcomplete']
  split
  · exact .inr ⟨_, rfl, hR _ _ _⟩
  · exact ⟨_, rfl, hR _ _ _⟩

theorem LogsApart.lockstep : Lockstep (fun _ => True) (fun _ => False) LogsApart where
  alike := by
    rintro m _ ⟨log, rfl⟩
    exact ⟨_, _, _, log, rfl⟩
  bodies _ body _ := Program.everyCondition_true body
  data := by
    rintro m _ ⟨log, rfl⟩ _ _ _
    exact ⟨log, rfl⟩
  control := by
    rintro m _ ⟨log, rfl⟩ _ _ _ _
    exact ⟨log, rfl⟩
  record := by
    rintro m _ ⟨log, rfl⟩ event
    exact ⟨event :: log, rfl⟩
  announce := by
    rintro m m' ⟨log, rfl⟩ i
    obtain ⟨_, hannounce⟩ := m.announce_eq i
    obtain ⟨log', hannounce'⟩ := announce_eq { m with log } i
    rw [hannounce, hannounce']
    exact ⟨log', rfl⟩
  complete := by
    rintro m _ ⟨log, rfl⟩ i
    exact complete_foretells (fun _ _ log' => ⟨log', rfl⟩) i
  custom := by
    rintro m _ predicate ⟨log, rfl⟩ -
    rfl
  padding := by
    rintro m _ ⟨log, rfl⟩
    exact .inl rfl
  rounds := by
    rintro m _ ⟨log, rfl⟩
    exact .inl rfl
  spawn := by
    rintro m _ ⟨log, rfl⟩ item
    exact ⟨log, rfl⟩
  rejoin := by
    rintro m _ sub _ ⟨log, rfl⟩ ⟨log', rfl⟩
    exact ⟨log', rfl⟩

namespace OffLoop

variable {commands : Stack Program}

theorem abreast (commands : Stack Program) :
    Abreast (fun _ => False) LogsApart (OffLoop commands) where
  similar := by
    rintro m _ ⟨-, loopLevel, loopCounters, log, rfl⟩
    exact ⟨loopLevel, loopCounters, _, _, _, log, rfl⟩
  data := by
    rintro m _ ⟨hcommands, loopLevel, loopCounters, log, rfl⟩ _ _ _
    exact ⟨hcommands, loopLevel, loopCounters, log, rfl⟩
  record := by
    rintro m _ ⟨hcommands, loopLevel, loopCounters, log, rfl⟩ event
    exact ⟨hcommands, loopLevel, loopCounters, event :: log, rfl⟩
  announce := by
    rintro m _ ⟨hcommands, loopLevel, loopCounters, log, rfl⟩ i
    obtain ⟨_, hannounce⟩ := m.announce_eq i
    obtain ⟨log', hannounce'⟩ := announce_eq { m with loopLevel, loopCounters, log } i
    rw [hannounce, hannounce']
    exact ⟨hcommands, loopLevel, loopCounters, log', rfl⟩
  complete := by
    rintro m _ ⟨hcommands, loopLevel, loopCounters, log, rfl⟩ i
    exact complete_foretells
      (fun _ _ log' => ⟨hcommands, loopLevel, loopCounters, log', rfl⟩) i
  padding := by
    rintro m _ ⟨-, loopLevel, loopCounters, log, rfl⟩
    exact .inl rfl
  spawn := by
    rintro m _ ⟨-, loopLevel, loopCounters, log, rfl⟩ item
    exact ⟨log, rfl⟩
  document := by
    rintro sub _ ⟨log, rfl⟩
    rfl
  rejoin := by
    rintro m _ sub _ ⟨hcommands, loopLevel, loopCounters, _, rfl⟩ ⟨log, rfl⟩
    exact ⟨hcommands, loopLevel, loopCounters, log, rfl⟩

/-- **A flat program does the same in a loop and outside.** -/
theorem run (fuel : Nat) {program : Program} {m m' : Machine} {o : Outcome}
    (hprogram : Program.everywhere Instruction.isFlat program = true)
    (h : OffLoop commands m m') (ho : Machine.run fuel program m = some o) :
    o.Foretells (OffLoop commands) (fun _ => False) (Machine.run fuel program m') := by
  induction fuel generalizing program m m' o with
  | zero => cases ho
  | succ fuel ih =>
    have hR := abreast commands
    refine .inSequence (fun i hi m m' o h ho => ?_) h ho
    refine hR.step (fun m m' o h ho => ?_) h ho
    have hflat := Program.everywhere_iff.1 hprogram i hi
    have hperform (hpush : ∀ body, i ≠ .pushCommand body) (hreset : i ≠ .reset) :=
      Outcome.Foretells.ofEffect (hR.perform hpush hreset) h
    cases i with
    | pushCommand body => cases hflat
    | popCommand => cases hflat
    | loopUntil condition => cases hflat
    | reset => cases hflat
    | jumpIfTrue inner =>
      have hinner : Program.everywhere Instruction.isFlat [inner] = true :=
        Bool.and_eq_true_iff.2 ⟨(Bool.and_eq_true_iff.1 hflat).2, rfl⟩
      exact hR.jump (fun _ _ _ h ho => ih hinner h ho) h ho
    | jumpIfFalse inner =>
      have hinner : Program.everywhere Instruction.isFlat [inner] = true :=
        Bool.and_eq_true_iff.2 ⟨(Bool.and_eq_true_iff.1 hflat).2, rfl⟩
      exact hR.jump (fun _ _ _ h ho => ih hinner h ho) h ho
    | mapArray body =>
      -- What the body does with the items is no matter of the loop.
      have hitems := LogsApart.lockstep.run fuel body
      exact hR.mapArray (fun m m' o => hitems m m' o (Program.everyCondition_true body)) h ho
    | _ =>
      cases ho
      exact hperform nofun nofun

theorem run_done (hprogram : Program.everywhere Instruction.isFlat program = true)
    (h : OffLoop commands m m') {done : Machine}
    (ho : Machine.run fuel program m = some (.done done)) :
    ∃ done', Machine.run fuel program m' = some (.done done') ∧ OffLoop commands done done' :=
  run fuel hprogram h ho

theorem run_failed (hprogram : Program.everywhere Instruction.isFlat program = true)
    (h : OffLoop commands m m') {failed : Machine}
    (ho : Machine.run fuel program m = some (.failed e failed)) :
    ∃ failed', Machine.run fuel program m' = some (.failed e failed') := by
  rcases run fuel hprogram h ho with hexcused | ⟨failed', ho', -⟩
  · exact hexcused.elim
  · exact ⟨failed', ho'⟩

/-- It fails at the same instruction. -/
theorem failsAt (hprogram : Program.everywhere Instruction.isFlat program = true)
    (h : OffLoop commands m m') (hfails : FailsAt fuel program m index e) :
    FailsAt fuel program m' index e := by
  obtain ⟨i, before, after, hi, hbefore, hafter⟩ := hfails
  rw [Program.everywhere_iff] at hprogram
  have hfront : Program.everywhere Instruction.isFlat (program.take index) = true :=
    Program.everywhere_iff.2 fun j hj => hprogram j (List.mem_of_mem_take hj)
  have hfirst : Program.everywhere Instruction.isFlat [i] = true :=
    Program.everywhere_iff.2 fun j hj => by
      rw [List.mem_singleton.1 hj]
      exact hprogram i (List.mem_of_getElem? hi)
  obtain ⟨before', hbefore', hrelated⟩ := h.run_done hfront hbefore
  obtain ⟨after', hafter'⟩ := hrelated.run_failed hfirst hafter
  exact ⟨i, before', after', hi, hbefore', hafter'⟩

end OffLoop

/-- So many rounds of a loop, without the loop. -/
theorem Rounds.exists_unrolled {commands : Stack Program} (hpeek : commands.peek = .ok body)
    (hbody : Program.everywhere Instruction.isFlat body = true)
    (hstart : OffLoop commands start m)
    (h : Rounds (Machine.run fuel) condition level limit start rounds head) :
    ∃ flat, Machine.run (fuel + 1) (Program.unrolled rounds body) m = some (.done flat) ∧
      OffLoop commands head flat := by
  induction h with
  | zero => exact ⟨m, rfl, hstart⟩
  | @succ rounds head after top h hunmet hbelow htop hround ih =>
    obtain ⟨flat, hflat, hhead⟩ := ih
    obtain rfl : top = body := by
      rw [hhead.1, hpeek] at htop
      cases htop
      rfl
    obtain ⟨flat', hflat', hafter⟩ := hhead.run_done hbody hround
    refine ⟨flat', ?_, ?_⟩
    · replace hflat' := run_mono (Nat.le_succ fuel) hflat'
      rw [Machine.run] at hflat hflat' ⊢
      rw [Program.unrolled_succ, inSequence_append, hflat]
      exact hflat'
    · obtain ⟨hcommands, loopLevel, loopCounters, log, rfl⟩ := hafter
      exact ⟨hcommands, loopLevel, loopCounters, log, rfl⟩

/-- A round that fails behind so many others fails at the same instruction without the loop. -/
theorem Rounds.exists_failsAt_unrolled {commands : Stack Program}
    (hbody : Program.everywhere Instruction.isFlat body = true)
    (hflat : Machine.run (fuel + 1) (Program.unrolled rounds body) m = some (.done flat))
    (hhead : OffLoop commands head flat)
    (hround : Machine.run fuel body head = some (.failed e m')) :
    ∃ index, FailsAt fuel body head index e ∧
      FailsAt (fuel + 1) (Program.unrolled (rounds + 1) body) m (rounds * body.length + index) e := by
  obtain ⟨index, hfails⟩ := exists_failsAt hround
  exact ⟨index, hfails, ((hhead.failsAt hbody hfails).mono (Nat.le_succ fuel)).unrolled hflat⟩

/-- A program that is a loop ends where the loop ends, and the loop is counted. -/
theorem exists_ends_of_run (ho : Machine.run (fuel + 1) [.loopUntil condition] m = some o) :
    ∃ starts ending,
      LoopEnds (Machine.run fuel) condition (m.loopLevel + 1) m.limits.loopIterations
        (m.announce (.loopUntil condition)).enterLoop starts ending ∧
      o = (ending.map (leaveLoop (m.loopLevel + 1) ending.isDone)).finish (.loopUntil condition) := by
  obtain ⟨log, hannounce⟩ := m.announce_eq (.loopUntil condition)
  rw [run_singleton, step_eq, hannounce] at ho
  obtain ⟨carried, hcarried, rfl⟩ := Option.map_eq_some_iff.1 ho
  obtain ⟨starts, ending, hends, rfl⟩ := loopUntil_eq_some_iff.1 hcarried
  rw [hannounce]
  exact ⟨starts, ending, hends, rfl⟩

/-- **A loop equals its unrolling.** Take any machine with a body on top of its command stack that
leaves the stack alone, also in its jumps, and any condition, and let the loop end. The rounds that
it has completed do what the body does that many times in a row without the loop. If the loop
succeeds, the cursor with its document, the elements and the values are those of the unrolled
program, and one instruction more has been counted. If it fails, then its condition has no answer,
or its ceiling of rounds is reached, or it is itself one instruction too many; or else it fails in
its next round, and with one round more the unrolled program fails at the same instruction of the
body with the same cause. -/
theorem loopUntil_unrolled {condition : StopCondition} {body : Program} {below : List Program}
    {fuel : Nat} {m : Machine} {o : Outcome} (hcommands : m.commands.items = body :: below)
    (hbody : Program.everywhere Instruction.isFlat body = true)
    (ho : Machine.run (fuel + 1) [.loopUntil condition] m = some o) :
    ∃ rounds head flat,
      Rounds (Machine.run fuel) condition (m.loopLevel + 1) m.limits.loopIterations
        (m.announce (.loopUntil condition)).enterLoop rounds head ∧
      Machine.run (fuel + 1) (Program.unrolled rounds body) m = some (.done flat) ∧
      (∀ m', o = .done m' →
        condition.isMet head = .ok true ∧ m'.cursor = flat.cursor ∧ m'.elements = flat.elements ∧
          m'.values = flat.values ∧ m'.operations = flat.operations + 1) ∧
      (∀ e m', o = .failed e m' →
        condition.isMet head = .error e.cause ∨
        (condition.isMet head = .ok false ∧ rounds = m.limits.loopIterations ∧
          e.cause = .loopLimitExceeded (m.loopLevel + 1) m.limits.loopIterations) ∨
        (condition.isMet head = .ok true ∧
          e.cause = .operationLimitExceeded m.limits.operations) ∨
        (condition.isMet head = .ok false ∧ rounds < m.limits.loopIterations ∧
          ∃ index inner failed,
            FailsAt fuel body head index inner ∧
            FailsAt (fuel + 1) (Program.unrolled (rounds + 1) body) m
              (rounds * body.length + index) inner ∧
            Machine.run (fuel + 1) (Program.unrolled (rounds + 1) body) m =
              some (.failed inner failed) ∧
            e.cause = inner.cause)) := by
  have hpeek : m.commands.peek = .ok body := by
    rw [Stack.peek, Stack.peekAt, hcommands]
    rfl
  have hstart : OffLoop m.commands (m.announce (.loopUntil condition)).enterLoop m := by
    obtain ⟨log, hannounce⟩ := m.announce_eq (.loopUntil condition)
    rw [hannounce]
    exact ⟨rfl, m.loopLevel, m.loopCounters, m.log, rfl⟩
  have hcounted : (m.announce (.loopUntil condition)).enterLoop.counted (m.loopLevel + 1) = 0 := by
    obtain ⟨log, hannounce⟩ := m.announce_eq (.loopUntil condition)
    rw [hannounce]
    exact counted_enterLoop { m with log }
  obtain ⟨starts, ending, hends, rfl⟩ := exists_ends_of_run ho
  cases hends with
  | @met _ head h hmet =>
    obtain ⟨flat, hflat, hhead⟩ := h.exists_unrolled hpeek hbody hstart
    have hlimits := (Outcome.charges_law.run _ _ _ _ hflat).limits
    obtain ⟨_, -, hcomplete⟩ := complete_eq (head.leaveLoop (m.loopLevel + 1) true)
      (.loopUntil condition)
    obtain ⟨-, _, _, _, rfl⟩ := hhead
    refine ⟨starts, head, _, h, hflat, fun m' hm' => ?_, fun e m' he => ?_⟩
    · replace hm' := hcomplete.symm.trans hm'
      split at hm' <;> cases hm'
      exact ⟨hmet, rfl, rfl, rfl, rfl⟩
    · replace he := hcomplete.symm.trans he
      split at he <;> cases he
      rw [← hlimits]
      exact .inr (.inr (.inl ⟨hmet, rfl⟩))
  | unanswered h hcause =>
    obtain ⟨flat, hflat, -⟩ := h.exists_unrolled hpeek hbody hstart
    refine ⟨starts, _, flat, h, hflat, nofun, fun e m' he => ?_⟩
    cases he
    exact .inl hcause
  | exceeded h hunmet hfull =>
    obtain ⟨flat, hflat, -⟩ := h.exists_unrolled hpeek hbody hstart
    rw [h.counted_eq hcounted] at hfull
    refine ⟨starts, _, flat, h, hflat, nofun, fun e m' he => ?_⟩
    cases he
    exact .inr (.inl ⟨hunmet, Nat.le_antisymm (h.le_limit hcounted) hfull, rfl⟩)
  | bodiless h _ _ htop =>
    -- The body is still on top of the command stack.
    obtain ⟨flat, -, hhead⟩ := h.exists_unrolled hpeek hbody hstart
    rw [hhead.1, hpeek] at htop
    cases htop
  | @failed rounds head _ top inner h hunmet hbelow htop hround =>
    obtain ⟨flat, hflat, hhead⟩ := h.exists_unrolled hpeek hbody hstart
    rw [h.counted_eq hcounted] at hbelow
    rw [hhead.1, hpeek] at htop
    cases htop
    obtain ⟨index, hfails, hunrolled⟩ :=
      Rounds.exists_failsAt_unrolled hbody hflat hhead hround
    obtain ⟨failed, hfailed⟩ := hunrolled.run_failed
    refine ⟨rounds, head, flat, h, hflat, nofun, fun e m' he => ?_⟩
    cases he
    exact .inr (.inr (.inr
      ⟨hunmet, hbelow, index, inner, failed, hfails, hunrolled, hfailed, rfl⟩))

/-- A loop that pushes elements until there are two pushes as many as its unrolling, and is counted
itself. A loop that maps an array and jumps in each round fails when it has run out of values, and so
does its unrolling, at the same place. -/
theorem loopUntil_unrolled_both_ways :
    (∃ (m m' flat : Machine) (rounds : Nat), m.commands.items = [[.pushElement]] ∧
      Machine.run 2 [.loopUntil (.custom ⟨0, View.elementsAtLeast 2⟩)] m = some (.done m') ∧
      m'.elements.length = 2 ∧
      Machine.run 2 (Program.unrolled rounds [.pushElement]) m = some (.done flat) ∧
      m'.elements = flat.elements ∧ m'.operations = flat.operations + 1) ∧
    ∃ (never : StopCondition) (m : Machine) (body : Program) (e inner : MachineError)
        (m' : Machine) (rounds index : Nat),
      body = [.mapArray [.pushElement, .createArray], .jumpIfTrue .popValue] ∧
      m.commands.items = [body] ∧ m.values.items = [.bool true, .null, .null] ∧
      Machine.run 3 [.loopUntil never] m = some (.failed e m') ∧
      FailsAt 3 (Program.unrolled (rounds + 1) body) m (rounds * 2 + index) inner ∧
      inner.cause = .stackUnderflow ⟨"value", 0, 0⟩ := by
  constructor
  · obtain ⟨m', ho, hlength⟩ : ∃ m', Machine.run 2
        [.loopUntil (.custom ⟨0, View.elementsAtLeast 2⟩)]
        { start .null {} false with commands := ⟨"command", [[.pushElement]]⟩ } =
          some (.done m') ∧ m'.elements.length = 2 := ⟨_, rfl, rfl⟩
    obtain ⟨rounds, _, flat, -, hflat, hdone, -⟩ := loopUntil_unrolled rfl rfl ho
    obtain ⟨-, -, helements, -, hcount⟩ := hdone m' rfl
    exact ⟨_, m', flat, rounds, rfl, ho, hlength, hflat, helements, hcount⟩
  · obtain ⟨e, m', ho, hcause⟩ : ∃ e m', Machine.run 3 [.loopUntil (.custom ⟨0, fun _ => false⟩)]
        { start (.array [.null]) {} false with
          commands := ⟨"command",
            [[.mapArray [.pushElement, .createArray], .jumpIfTrue .popValue]]⟩,
          values := ⟨"value", [.bool true, .null, .null]⟩ } = some (.failed e m') ∧
        e.cause = .stackUnderflow ⟨"value", 0, 0⟩ := ⟨_, _, rfl, rfl⟩
    obtain ⟨rounds, _, flat, -, -, -, hfailed⟩ := loopUntil_unrolled rfl rfl ho
    rcases hfailed e m' rfl with hunanswered | ⟨-, -, hceiling⟩ | ⟨-, hcount⟩ |
      ⟨-, -, index, inner, _, -, hinner, -, hsame⟩
    · cases hunanswered
    · rw [hcause] at hceiling
      cases hceiling
    · rw [hcause] at hcount
      cases hcount
    · exact ⟨_, _, _, e, inner, m', rounds, index, rfl, rfl, rfl, ho, hinner, hsame ▸ hcause⟩

end Machine

end Reshape
