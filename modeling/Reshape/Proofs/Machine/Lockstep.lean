import Reshape.Proofs.Machine.Abreast

/-!
# Machines in step

Two machines that differ in what they count, report or are allowed only run a program in step: what
the first one does, the second one does too. Which differences are kept up is a relation between
machines. It may excuse some failures, such as those of a ceiling that the second machine lifts;
behind one that is excused nothing is said of the second machine.

* `Instruction.EveryCondition` and `Program.EveryCondition`, of the loop conditions at every depth;
* `Machine.Lockstep`, what the relation has to be kept by; such machines are abreast;
* `Lockstep.perform`, `Lockstep.loopUntil` and `Lockstep.run`, for single instructions, loops and,
  by induction on the fuel, programs.
-/

namespace Reshape

open Machine

mutual
/-- Every loop condition in an instruction, at any depth, is allowed. -/
def Instruction.EveryCondition (allowed : StopCondition → Prop) : Instruction → Prop
  | .pushCommand body => Program.EveryCondition allowed body
  | .mapArray body => Program.EveryCondition allowed body
  | .jumpIfTrue inner => Instruction.EveryCondition allowed inner
  | .jumpIfFalse inner => Instruction.EveryCondition allowed inner
  | .loopUntil condition => allowed condition
  | _ => True

/-- Every loop condition in a program, at any depth, is allowed. -/
def Program.EveryCondition (allowed : StopCondition → Prop) : List Instruction → Prop
  | [] => True
  | i :: rest => Instruction.EveryCondition allowed i ∧ Program.EveryCondition allowed rest
end

namespace Machine

/-- Two machines differ in their counts, ceilings and reports only. -/
def Alike (m m' : Machine) : Prop :=
  ∃ operations limits trace log, m' = { m with operations, limits, trace, log }

/-- A relation between machines that are alike, and what they do with their counts, ceilings and
logs keeps it. A ceiling for loops or for padding is the same for both, or it is higher on the second
machine and its failures are excused. -/
structure Lockstep (allowed : StopCondition → Prop) (Excused : Failure → Prop)
    (R : Machine → Machine → Prop) : Prop where
  alike : ∀ {m m'}, R m m' → m.Alike m'
  bodies : ∀ {m m'}, R m m' → ∀ body ∈ m.commands.items, Program.EveryCondition allowed body
  data : ∀ {m m'}, R m m' → ∀ cursor elements values,
    R { m with cursor, elements, values } { m' with cursor, elements, values }
  control : ∀ {m m'}, R m m' → ∀ (commands : Stack Program) loopLevel loopCounters,
    (∀ body ∈ commands.items, Program.EveryCondition allowed body) →
    R { m with commands, loopLevel, loopCounters } { m' with commands, loopLevel, loopCounters }
  record : ∀ {m m'}, R m m' → ∀ event, R (m.record event) (m'.record event)
  announce : ∀ {m m'}, R m m' → ∀ i, R (m.announce i) (m'.announce i)
  complete : ∀ {m m'}, R m m' → ∀ i, (m.complete i).Foretells R Excused (some (m'.complete i))
  custom : ∀ {m m' predicate}, R m m' → allowed (.custom predicate) →
    predicate.holds m'.view = predicate.holds m.view
  padding : ∀ {m m'}, R m m' → m'.limits.arrayPadding = m.limits.arrayPadding ∨
    m.limits.arrayPadding ≤ m'.limits.arrayPadding ∧
      ∀ position length limit, Excused (.paddingLimitExceeded position length limit)
  rounds : ∀ {m m'}, R m m' → m'.limits.loopIterations = m.limits.loopIterations ∨
    m.limits.loopIterations ≤ m'.limits.loopIterations ∧
      ∀ level limit, Excused (.loopLimitExceeded level limit)
  spawn : ∀ {m m'}, R m m' → ∀ item, R (m.spawn item) (m'.spawn item)
  rejoin : ∀ {m m' sub sub'}, R m m' → R sub sub' →
    R { m with log := sub.log } { m' with log := sub'.log }

end Machine

/-! ### Single instructions -/

namespace Machine.Lockstep

variable {allowed : StopCondition → Prop} {Excused : Failure → Prop}
  {R : Machine → Machine → Prop} (hR : Lockstep allowed Excused R)

include hR

theorem abreast : Abreast Excused R R where
  similar h := by
    obtain ⟨operations, limits, trace, log, hm'⟩ := hR.alike h
    exact ⟨_, _, operations, limits, trace, log, hm'⟩
  data := hR.data
  record := hR.record
  announce := hR.announce
  complete := hR.complete
  padding := hR.padding
  spawn := hR.spawn
  document h := by
    obtain ⟨_, _, _, _, rfl⟩ := hR.alike h
    rfl
  rejoin := hR.rejoin

/-- A single instruction does the same on related machines. -/
theorem perform {i : Instruction} (hi : i.EveryCondition allowed) :
    Effect.InStep R Excused i.perform := by
  cases i with
  | pushCommand body =>
    intro m m' h
    obtain ⟨_, _, _, _, rfl⟩ := hR.alike h
    refine ⟨_, rfl, hR.control h (m.commands.push body) m.loopLevel m.loopCounters ?_⟩
    intro pushed hpushed
    rcases List.mem_cons.1 hpushed with rfl | hbelow
    · exact hi
    · exact hR.bodies h pushed hbelow
  | reset =>
    intro m m' h
    obtain ⟨_, _, _, _, rfl⟩ := hR.alike h
    have hcleared := hR.control h m.commands.clear 0 [] fun _ hbody => nomatch hbody
    exact ⟨_, rfl, hR.data hcleared m.cursor.toRoot m.elements.clear m.values.clear⟩
  | _ => exact hR.abreast.perform nofun nofun

end Machine.Lockstep

/-! ### Programs -/

/-- A way of running programs does the same on related machines. -/
def Runner.InStep (allowed : StopCondition → Prop) (Excused : Failure → Prop)
    (R : Machine → Machine → Prop) (r : Runner) : Prop :=
  ∀ program m m' o, Program.EveryCondition allowed program → R m m' → r program m = some o →
    o.Foretells R Excused (r program m')

theorem Program.EveryCondition.of_mem {allowed : StopCondition → Prop} {program : Program}
    (h : Program.EveryCondition allowed program) : ∀ i ∈ program, i.EveryCondition allowed := by
  induction program with
  | nil => exact nofun
  | cons first rest ih =>
    intro i hi
    rcases List.mem_cons.1 hi with rfl | hrest
    · exact h.1
    · exact ih h.2 i hrest

namespace Machine.Lockstep

variable {allowed : StopCondition → Prop} {Excused : Failure → Prop}
  {R : Machine → Machine → Prop} (hR : Lockstep allowed Excused R) {r : Runner} {m m' : Machine}
  {o : Outcome} {i : Instruction}

include hR

theorem runCommand (hr : r.InStep allowed Excused R) (h : R m m')
    (ho : m.runCommand r = some o) : o.Foretells R Excused (m'.runCommand r) := by
  have hbodies := hR.bodies h
  obtain ⟨_, _, _, _, rfl⟩ := hR.alike h
  unfold Machine.runCommand at ho ⊢
  cases hp : m.commands.peek with
  | error e =>
    simp only [hp] at ho ⊢
    cases ho
    exact Outcome.Foretells.bare h _
  | ok body =>
    simp only [hp] at ho ⊢
    exact hr body m _ o (hbodies body (Stack.mem_of_peek hp)) h ho

theorem setCounter (h : R m m') (level count : Nat) :
    R (m.setCounter level count) (m'.setCounter level count) := by
  have hbodies := hR.bodies h
  obtain ⟨_, _, _, _, rfl⟩ := hR.alike h
  exact hR.control h m.commands m.loopLevel _ hbodies

theorem enterLoop (h : R m m') : R m.enterLoop m'.enterLoop := by
  have hbodies := hR.bodies h
  obtain ⟨_, _, _, _, rfl⟩ := hR.alike h
  exact hR.control h m.commands _ _ hbodies

theorem leaveLoop (h : R m m') (level : Nat) (ok : Bool) :
    R (m.leaveLoop level ok) (m'.leaveLoop level ok) := by
  have hbodies := hR.bodies h
  obtain ⟨_, _, _, _, rfl⟩ := hR.alike h
  exact hR.record (hR.control h { m.commands with items := m.commands.items.tail } _ _
    fun body hbody => hbodies body (List.mem_of_mem_tail hbody)) _

theorem isMet (h : R m m') {condition : StopCondition} (hallowed : allowed condition) :
    condition.isMet m' = condition.isMet m := by
  cases condition with
  | reached counter bound =>
    obtain ⟨_, _, _, _, rfl⟩ := hR.alike h
    rfl
  | custom predicate => exact congrArg Except.ok (hR.custom h hallowed)

/-- The rounds of a loop, which may go on for longer on the second machine. -/
theorem iterate (hr : r.InStep allowed Excused R) {condition : StopCondition}
    (hallowed : allowed condition) {level limit limit' remaining remaining' : Nat}
    (hlimits : limit' = limit ∨
      limit ≤ limit' ∧ ∀ level limit, Excused (.loopLimitExceeded level limit))
    (hremaining : remaining ≤ limit) (hrounds : limit + remaining' = limit' + remaining)
    (h : R m m') (ho : Machine.iterate r condition level limit remaining m = some o) :
    o.Foretells R Excused (Machine.iterate r condition level limit' remaining' m') := by
  induction remaining generalizing m m' remaining' with
  | zero =>
    unfold Machine.iterate at ho ⊢
    rw [hR.isMet h hallowed]
    cases hmet : condition.isMet m with
    | error cause =>
      simp only [hmet] at ho
      cases ho
      exact Outcome.Foretells.bare h cause
    | ok met =>
      simp only [hmet] at ho
      cases met with
      | true =>
        cases ho
        exact ⟨m', rfl, h⟩
      | false =>
        cases ho
        rcases hlimits with rfl | ⟨_, hexcused⟩
        · have hzero : remaining' = 0 := by omega
          rw [hzero]
          exact Outcome.Foretells.bare h _
        · exact .inl (hexcused level limit)
  | succ remaining ih =>
    obtain ⟨further, rfl⟩ : ∃ further, remaining' = further + 1 := ⟨remaining' - 1, by omega⟩
    unfold Machine.iterate at ho ⊢
    rw [hR.isMet h hallowed]
    cases hmet : condition.isMet m with
    | error cause =>
      simp only [hmet] at ho
      cases ho
      exact Outcome.Foretells.bare h cause
    | ok met =>
      simp only [hmet] at ho ⊢
      cases met with
      | true =>
        cases ho
        exact ⟨m', rfl, h⟩
      | false =>
        simp only at ho ⊢
        cases hround : m.runCommand r with
        | none => simp [hround] at ho
        | some first =>
          rw [hround] at ho
          have hfirst := hR.runCommand hr h hround
          cases first with
          | failed e m₁ =>
            cases ho
            rcases hfirst with hexcused | ⟨m₁', hround', h₁⟩
            · exact .inl hexcused
            · rw [hround']
              exact .inr ⟨m₁', rfl, h₁⟩
          | done m₁ =>
            obtain ⟨m₁', hround', h₁⟩ := hfirst
            have hcount : limit' - further = limit - remaining := by omega
            rw [hround', hcount]
            exact ih (by omega) (by omega) (hR.setCounter h₁ level _) ho

theorem loopUntil (hr : r.InStep allowed Excused R) {condition : StopCondition}
    (hallowed : allowed condition) (h : R m m') (ho : m.loopUntil r condition = some o) :
    o.Foretells R Excused (m'.loopUntil r condition) := by
  have hlevel : m'.loopLevel = m.loopLevel := by
    obtain ⟨_, _, _, _, rfl⟩ := hR.alike h
    rfl
  unfold Machine.loopUntil at ho ⊢
  simp only at ho ⊢
  rw [hlevel]
  cases hi : Machine.iterate r condition (m.loopLevel + 1) m.limits.loopIterations
      m.limits.loopIterations m.enterLoop with
  | none => simp [hi] at ho
  | some rounds =>
    rw [hi] at ho
    cases ho
    have hloop := hR.iterate hr hallowed (hR.rounds h) (Nat.le_refl _) (Nat.add_comm _ _)
      (hR.enterLoop h) hi
    cases rounds with
    | done m₁ =>
      obtain ⟨m₁', hi', h₁⟩ := hloop
      rw [hi']
      exact ⟨_, rfl, hR.leaveLoop h₁ _ _⟩
    | failed e m₁ =>
      rcases hloop with hexcused | ⟨m₁', hi', h₁⟩
      · exact .inl hexcused
      · rw [hi']
        exact .inr ⟨_, rfl, hR.leaveLoop h₁ _ _⟩

theorem carryOut (hr : r.InStep allowed Excused R) (hi : i.EveryCondition allowed) (h : R m m')
    (ho : m.carryOut r i = some o) : o.Foretells R Excused (m'.carryOut r i) := by
  have hjump {inner : Instruction} (hinner : inner.EveryCondition allowed) (m m' o)
      (h : R m m') (ho : r [inner] m = some o) : o.Foretells R Excused (r [inner] m') :=
    hr [inner] m m' o ⟨hinner, trivial⟩ h ho
  cases i with
  | popCommand => exact hR.runCommand hr h ho
  | loopUntil condition => exact hR.loopUntil hr hi h ho
  | jumpIfTrue inner => exact hR.abreast.jump (hjump hi) h ho
  | jumpIfFalse inner => exact hR.abreast.jump (hjump hi) h ho
  | mapArray body => exact hR.abreast.mapArray (fun m m' o => hr body m m' o hi) h ho
  | _ =>
    cases ho
    exact Outcome.Foretells.ofEffect (hR.perform hi) h

/-- **Programs run in step.** -/
theorem run (fuel : Nat) : (Machine.run fuel).InStep allowed Excused R := by
  induction fuel with
  | zero => intro program m m' o _ _ ho; cases ho
  | succ fuel ih =>
    intro program m m' o hprogram h ho
    refine .inSequence (fun i hi m m' o h ho => ?_) h ho
    exact hR.abreast.step (fun _ _ _ => hR.carryOut ih (hprogram.of_mem i hi)) h ho

end Machine.Lockstep

end Reshape
