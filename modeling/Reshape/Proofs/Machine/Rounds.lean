import Reshape.Proofs.Machine.Allowed

/-!
# The rounds of a loop

A loop reads off the table of counters how many rounds it has completed, and writes their number
back behind each round. In between the table is at the mercy of the body, which may reset the
machine or run other loops at the same level. All the same the loop counts its rounds, and runs its
body no more often than it may.

* `Machine.counted`, `Machine.Rounds` and `Machine.LoopEnds`, a loop that goes by the table;
* `Rounds.counted_eq`: what the table tells in front of a round;
* `loopUntil_eq_some_iff`: the loop that is run is the one that goes by the table;
* `loopUntil_bounded`, how often a loop starts its body, when it fails at its own ceiling, and what
  becomes of the loop level.
-/

namespace Reshape

theorem Outcome.error?_map (f : Machine → Machine) (o : Outcome) :
    (o.map f).error? = o.error? := by
  cases o <;> rfl

namespace Machine

/-- How many rounds the loop at a level has completed, as the table tells it. -/
def counted (m : Machine) (level : Nat) : Nat := (m.loopCounters.get? level).getD 0

/-- The machine `head` after so many rounds of a loop that was entered on `start`, when the loop asks
whether it is to stop. In each round the body is what is on top of the command stack. The limit is
compared with what the table tells in front of the round, and behind the round one more is written
to the table. -/
inductive Rounds (run : Runner) (condition : StopCondition) (level limit : Nat) (start : Machine) :
    (rounds : Nat) → (head : Machine) → Prop
  | zero : Rounds run condition level limit start 0 start
  | succ {rounds : Nat} {head m : Machine} {body : Program}
      (h : Rounds run condition level limit start rounds head)
      (hunmet : condition.isMet head = .ok false) (hbelow : head.counted level < limit)
      (hbody : head.commands.peek = .ok body) (hround : run body head = some (.done m)) :
      Rounds run condition level limit start (rounds + 1)
        (m.setCounter level (head.counted level + 1))

/-- A loop that was entered on `start` ends, and has started its body so many times. -/
inductive LoopEnds (run : Runner) (condition : StopCondition) (level limit : Nat)
    (start : Machine) : (starts : Nat) → Outcome → Prop
  | met {rounds : Nat} {head : Machine} (h : Rounds run condition level limit start rounds head)
      (hmet : condition.isMet head = .ok true) :
      LoopEnds run condition level limit start rounds (.done head)
  | unanswered {rounds : Nat} {head : Machine} {cause : Failure}
      (h : Rounds run condition level limit start rounds head)
      (hcause : condition.isMet head = .error cause) :
      LoopEnds run condition level limit start rounds (.bare cause head)
  | exceeded {rounds : Nat} {head : Machine}
      (h : Rounds run condition level limit start rounds head)
      (hunmet : condition.isMet head = .ok false) (hfull : limit ≤ head.counted level) :
      LoopEnds run condition level limit start rounds (.bare (.loopLimitExceeded level limit) head)
  | bodiless {rounds : Nat} {head : Machine} {e : Underflow}
      (h : Rounds run condition level limit start rounds head)
      (hunmet : condition.isMet head = .ok false) (hbelow : head.counted level < limit)
      (hbody : head.commands.peek = .error e) :
      LoopEnds run condition level limit start rounds (.bare (.stackUnderflow e) head)
  | failed {rounds : Nat} {head m : Machine} {body : Program} {e : MachineError}
      (h : Rounds run condition level limit start rounds head)
      (hunmet : condition.isMet head = .ok false) (hbelow : head.counted level < limit)
      (hbody : head.commands.peek = .ok body) (hround : run body head = some (.failed e m)) :
      LoopEnds run condition level limit start (rounds + 1) (.failed e m)

variable {run : Runner} {condition : StopCondition} {level limit rounds starts : Nat}
  {start head m : Machine} {o : Outcome}

/-! ### The table in front of a round -/

theorem counted_setCounter (m : Machine) (level count : Nat) :
    (m.setCounter level count).counted level = count := by
  unfold counted setCounter
  rw [Entries.get?_insert_self]
  rfl

theorem counted_enterLoop (m : Machine) : m.enterLoop.counted (m.loopLevel + 1) = 0 :=
  counted_setCounter _ _ _

/-- **In front of each round the table tells how many rounds have been completed**, whatever has
become of it inside the rounds: each round ends with an entry that was counted up before the body
was started. -/
theorem Rounds.counted_eq (h : Rounds run condition level limit start rounds head)
    (hstart : start.counted level = 0) : head.counted level = rounds := by
  induction h with
  | zero => exact hstart
  | succ _ _ _ _ _ ih => rw [counted_setCounter, ih]

theorem Rounds.le_limit (h : Rounds run condition level limit start rounds head)
    (hstart : start.counted level = 0) : rounds ≤ limit := by
  cases h with
  | zero => exact Nat.zero_le limit
  | succ h _ hbelow _ _ =>
    rw [h.counted_eq hstart] at hbelow
    exact hbelow

/-- A loop starts its body no more often than it may. -/
theorem LoopEnds.le_limit (h : LoopEnds run condition level limit start starts o)
    (hstart : start.counted level = 0) : starts ≤ limit := by
  cases h with
  | met h _ => exact h.le_limit hstart
  | unanswered h _ => exact h.le_limit hstart
  | exceeded h _ _ => exact h.le_limit hstart
  | bodiless h _ _ _ => exact h.le_limit hstart
  | failed h _ hbelow _ _ =>
    rw [h.counted_eq hstart] at hbelow
    exact hbelow

/-! ### The loop that is run -/

theorem runCommand_of_peek {body : Program} (hbody : m.commands.peek = .ok body) :
    m.runCommand run = run body m := by
  rw [runCommand, hbody]

/-- Behind so many rounds the loop goes on with the rest of them. -/
theorem Rounds.iterate_eq (h : Rounds run condition level limit start rounds head)
    (hstart : start.counted level = 0) :
    iterate run condition level limit limit start =
      iterate run condition level limit (limit - rounds) head := by
  induction h with
  | zero => rfl
  | @succ rounds head m body h hunmet hbelow hbody hround ih =>
    have hcounted := h.counted_eq hstart
    obtain ⟨remaining, hremaining⟩ : ∃ remaining, limit - rounds = remaining + 1 :=
      ⟨limit - rounds - 1, by omega⟩
    have hcount : limit - remaining = rounds + 1 := by omega
    have hrest : limit - (rounds + 1) = remaining := by omega
    rw [ih, hremaining, hrest, hcounted, iterate, hunmet]
    simp only [runCommand_of_peek hbody, hround, hcount]

theorem LoopEnds.iterate_eq (h : LoopEnds run condition level limit start starts o)
    (hstart : start.counted level = 0) :
    iterate run condition level limit limit start = some o := by
  cases h with
  | met h hmet =>
    rw [h.iterate_eq hstart]
    unfold iterate
    rw [hmet]
  | unanswered h hcause =>
    rw [h.iterate_eq hstart]
    unfold iterate
    rw [hcause]
  | exceeded h hunmet hfull =>
    have hcounted := h.counted_eq hstart
    have hzero : limit - starts = 0 := by omega
    rw [h.iterate_eq hstart, hzero, iterate, hunmet]
  | bodiless h hunmet hbelow hbody =>
    have hcounted := h.counted_eq hstart
    obtain ⟨remaining, hremaining⟩ : ∃ remaining, limit - starts = remaining + 1 :=
      ⟨limit - starts - 1, by omega⟩
    rw [h.iterate_eq hstart, hremaining, iterate, hunmet]
    simp only [runCommand, hbody]
    rfl
  | @failed rounds head m body e h hunmet hbelow hbody hround =>
    have hcounted := h.counted_eq hstart
    obtain ⟨remaining, hremaining⟩ : ∃ remaining, limit - rounds = remaining + 1 :=
      ⟨limit - rounds - 1, by omega⟩
    rw [h.iterate_eq hstart, hremaining, iterate, hunmet]
    simp only [runCommand_of_peek hbody, hround]

/-- The rounds that are left of a loop lead to an end of the loop. -/
theorem Rounds.exists_ends {remaining : Nat}
    (h : Rounds run condition level limit start rounds head) (hstart : start.counted level = 0)
    (hrounds : rounds + remaining = limit)
    (ho : iterate run condition level limit remaining head = some o) :
    ∃ starts, LoopEnds run condition level limit start starts o := by
  induction remaining generalizing rounds head with
  | zero =>
    have hcounted := h.counted_eq hstart
    rw [iterate] at ho
    split at ho
    · rename_i hcause
      cases ho
      exact ⟨rounds, .unanswered h hcause⟩
    · rename_i hmet
      cases ho
      exact ⟨rounds, .met h hmet⟩
    · rename_i hunmet
      cases ho
      exact ⟨rounds, .exceeded h hunmet (by omega)⟩
  | succ remaining ih =>
    have hcounted := h.counted_eq hstart
    have hbelow : head.counted level < limit := by omega
    rw [iterate] at ho
    split at ho
    · rename_i hcause
      cases ho
      exact ⟨rounds, .unanswered h hcause⟩
    · rename_i hmet
      cases ho
      exact ⟨rounds, .met h hmet⟩
    · rename_i hunmet
      cases hbody : head.commands.peek with
      | error e =>
        simp only [runCommand, hbody] at ho
        cases ho
        exact ⟨rounds, .bodiless h hunmet hbelow hbody⟩
      | ok body =>
        simp only [runCommand_of_peek hbody] at ho
        split at ho
        · rename_i m hround
          have hcount : limit - remaining = head.counted level + 1 := by omega
          rw [hcount] at ho
          exact ih (.succ h hunmet hbelow hbody hround) (by omega) ho
        · rename_i hnot
          cases o with
          | done m => exact (hnot m ho).elim
          | failed e m => exact ⟨rounds + 1, .failed h hunmet hbelow hbody ho⟩

theorem iterate_eq_some_iff (hstart : start.counted level = 0) :
    iterate run condition level limit limit start = some o ↔
      ∃ starts, LoopEnds run condition level limit start starts o :=
  ⟨Rounds.zero.exists_ends hstart (Nat.zero_add limit), fun ⟨_, h⟩ => h.iterate_eq hstart⟩

/-- **The loop that is run is the one that goes by the table.** -/
theorem loopUntil_eq_some_iff :
    m.loopUntil run condition = some o ↔
      ∃ starts ending,
        LoopEnds run condition (m.loopLevel + 1) m.limits.loopIterations m.enterLoop starts
          ending ∧
        o = ending.map (leaveLoop (m.loopLevel + 1) ending.isDone) := by
  unfold loopUntil
  simp only
  constructor
  · intro ho
    split at ho
    · rename_i ending hending
      obtain ⟨starts, hends⟩ := (iterate_eq_some_iff m.counted_enterLoop).1 hending
      cases ho
      exact ⟨starts, ending, hends, rfl⟩
    · cases ho
  · rintro ⟨starts, ending, hends, rfl⟩
    rw [hends.iterate_eq m.counted_enterLoop]

/-! ### The error of a loop -/

theorem ne_loopLimitExceeded_of_isMet {cause : Failure}
    (h : condition.isMet m = .error cause) : cause ≠ .loopLimitExceeded level limit := by
  have hnumber (depth : Nat) : m.numberAt depth ≠ .error (.loopLimitExceeded level limit) := by
    unfold numberAt
    split
    · exact nofun
    · split <;> exact nofun
  rintro rfl
  cases condition with
  | custom predicate => cases h
  | reached counter bound =>
    rw [StopCondition.isMet] at h
    split at h
    · cases h
    · split at h
      · cases h
      · rename_i hcause
        cases h
        exact hnumber counter hcause
      · rename_i hcause _
        cases h
        exact hnumber bound hcause

/-- An error without a frame comes from the count of instructions. -/
theorem exists_limit_of_run {fuel : Nat} {program : Program} {e : MachineError}
    (ho : Machine.run fuel program m = some (.failed e head)) (hframes : e.frames = []) :
    ∃ limit, e.cause = .operationLimitExceeded limit := by
  cases fuel with
  | zero => cases ho
  | succ fuel =>
    obtain ⟨_, i, _, m₁, -, -, hi⟩ := exists_of_inSequence_failed ho
    rw [step_eq] at hi
    obtain ⟨carried, -, hfinish⟩ := Option.map_eq_some_iff.1 hi
    cases carried with
    | failed e m =>
      cases hfinish
      cases hframes
    | done m =>
      obtain ⟨log, -, hcomplete⟩ := m.complete_eq i
      rw [Outcome.finish, hcomplete] at hfinish
      split at hfinish <;> cases hfinish
      exact ⟨_, rfl⟩

/-- A loop fails at its own ceiling if and only if its condition is not met behind the last round
that it may run. -/
theorem LoopEnds.error?_eq_iff {fuel : Nat}
    (h : LoopEnds (Machine.run fuel) condition level limit start starts o)
    (hstart : start.counted level = 0) :
    o.error? = some (.bare (.loopLimitExceeded level limit)) ↔
      ∃ head, Rounds (Machine.run fuel) condition level limit start limit head ∧
        condition.isMet head = .ok false := by
  constructor
  · intro herror
    cases h with
    | met => cases herror
    | unanswered h hcause =>
      cases herror
      exact (ne_loopLimitExceeded_of_isMet hcause rfl).elim
    | exceeded h hunmet hfull =>
      have hle := h.le_limit hstart
      rw [h.counted_eq hstart] at hfull
      obtain rfl : starts = limit := by omega
      exact ⟨_, h, hunmet⟩
    | bodiless => cases herror
    | failed h hunmet hbelow hbody hround =>
      cases herror
      obtain ⟨_, hcause⟩ := exists_limit_of_run hround rfl
      cases hcause
  · rintro ⟨head, hhead, hunmet⟩
    have hfull : limit ≤ head.counted level := Nat.le_of_eq (hhead.counted_eq hstart).symm
    have hends := LoopEnds.iterate_eq (.exceeded hhead hunmet hfull) hstart
    rw [h.iterate_eq hstart] at hends
    cases hends
    rfl

/-! ### The level of a loop -/

/-- Only a reset leaves the loops. -/
theorem along_loopLevel : Along (· ≠ .reset) fun m m' => m'.loopLevel = m.loopLevel where
  refl _ := rfl
  trans h h' := h'.trans h
  bookkeeping _ _ _ := rfl
  perform hi m := Instruction.loopLevel_perform hi m
  takeValue m := by
    obtain ⟨_, _, _, hleft⟩ := Effect.Local.takeValue m
    rw [hleft]
  write _ value m := by
    obtain ⟨_, _, _, hleft⟩ := Effect.Local.write value m
    rw [hleft]
  setCounter _ _ _ := rfl
  loop h _ := congrArg (· - 1) h

/-- A loop whose first round does not succeed gets no further than to its start. -/
theorem LoopHead.eq_start (h : LoopHead condition level limit start rounds head)
    (hfails : ∀ fuel m, start.runCommand (Machine.run fuel) ≠ some (.done m)) : head = start := by
  induction h with
  | zero => rfl
  | succ _ _ _ hround ih =>
    rw [ih] at hround
    exact (hfails _ _ hround).elim

/-- **How often a loop runs its body.** Take any machine, whatever is on its command stack, any
condition and any ceilings, and a loop that is carried out to an end. Its rounds are those of a loop
that goes by the table of counters; in each of them it runs the body that is on top of the command
stack. It has started a body no more often than the ceiling allows, and it fails at this ceiling, at
its own level, if and only if its condition is still not met behind the last round that it may run.
That holds whatever the bodies do to the table, the level and the command stack. If no instruction
inside is a reset, the loop level is what it was, whether the loop succeeds or fails. -/
theorem loopUntil_bounded {condition : StopCondition} {m : Machine} {fuel : Nat} {o : Outcome}
    (ho : m.carryOut (Machine.run fuel) (.loopUntil condition) = some o) :
    (∃ starts ending,
      LoopEnds (Machine.run fuel) condition (m.loopLevel + 1) m.limits.loopIterations m.enterLoop
        starts ending ∧
      o = ending.map (leaveLoop (m.loopLevel + 1) ending.isDone) ∧
      starts ≤ m.limits.loopIterations) ∧
    (o.error? = some (.bare (.loopLimitExceeded (m.loopLevel + 1) m.limits.loopIterations)) ↔
      ∃ head, Rounds (Machine.run fuel) condition (m.loopLevel + 1) m.limits.loopIterations
          m.enterLoop m.limits.loopIterations head ∧
        condition.isMet head = .ok false) ∧
    ((∀ body head, Calls (.loopUntil condition) m body head → RunsOnly (· ≠ .reset) body head) →
      o.machine.loopLevel = m.loopLevel) := by
  obtain ⟨starts, ending, hends, hleft⟩ := loopUntil_eq_some_iff.1 ho
  have hstart := m.counted_enterLoop
  refine ⟨⟨starts, ending, hends, hleft, hends.le_limit hstart⟩, ?_, fun hcalls => ?_⟩
  · rw [hleft, Outcome.error?_map]
    exact hends.error?_eq_iff hstart
  · have hloop : Instruction.loopUntil condition ≠ .reset := nofun
    exact along_loopLevel.carryOut (along_loopLevel.run (RunsOnly.admission _) fuel) hloop
      (fun body head h _ _ => hcalls body head h) ho

/-- Under a ceiling of three rounds, a loop without an end fails behind its third one, although its
first body resets the machine, runs a loop at the same level and puts another body in its place. A
loop whose body fails in its first round is left at the level at which it was entered. -/
theorem loopUntil_bounded_by_three :
    (∃ (always never : StopCondition) (m : Machine) (e : MachineError) (m' head : Machine),
      m.limits.loopIterations = 3 ∧
      m.commands.items = [[.reset, .pushCommand [], .pushCommand [], .loopUntil always]] ∧
      m.carryOut (Machine.run 2) (.loopUntil never) = some (.failed e m') ∧
      e = .bare (.loopLimitExceeded 1 3) ∧
      Rounds (Machine.run 2) never 1 3 m.enterLoop 3 head ∧ never.isMet head = .ok false) ∧
    ∃ (never : StopCondition) (m : Machine) (e : MachineError) (m' : Machine),
      m.loopLevel = 1 ∧ m.commands.items = [[.popValue]] ∧
      m.carryOut (Machine.run 1) (.loopUntil never) = some (.failed e m') ∧ m'.loopLevel = 1 := by
  constructor
  · obtain ⟨o, ho, herror⟩ : ∃ o, carryOut (Machine.run 2)
        (.loopUntil (.custom ⟨0, fun _ => false⟩))
        { start .null { loopIterations := 3 } false with
          commands := ⟨"command", [[.reset, .pushCommand [], .pushCommand [],
            .loopUntil (.custom ⟨1, fun _ => true⟩)]]⟩ } = some o ∧
        o.error? = some (.bare (.loopLimitExceeded 1 3)) := ⟨_, rfl, rfl⟩
    obtain ⟨-, herror?, -⟩ := loopUntil_bounded ho
    obtain ⟨head, hrounds, hunmet⟩ := herror?.1 herror
    cases o with
    | done m' => cases herror
    | failed e m' =>
      cases herror
      exact ⟨_, _, _, _, m', head, rfl, rfl, ho, rfl, hrounds, hunmet⟩
  · obtain ⟨e, m', ho⟩ : ∃ e m', carryOut (Machine.run 1)
        (.loopUntil (.custom ⟨0, fun _ => false⟩))
        { start .null {} false with loopLevel := 1, commands := ⟨"command", [[.popValue]]⟩ } =
          some (.failed e m') := ⟨_, _, rfl⟩
    refine ⟨_, _, e, m', rfl, rfl, ho, (loopUntil_bounded ho).2.2 ?_⟩
    intro body head h
    cases h with
    | loop hhead _ _ hbody =>
      rw [hhead.eq_start fun fuel m hround => by cases fuel <;> cases hround] at hbody ⊢
      cases hbody
      refine .cons nofun fun rest m' hnext => ?_
      cases hnext with
      | done => exact .nil
      | failed => exact .nil
      | enters hcalls => cases hcalls

end Machine

end Reshape
