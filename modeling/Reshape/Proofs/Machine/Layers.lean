import Reshape.Proofs.Machine.Halting
import Reshape.Proofs.Machine.Rounds

/-!
# The layers of an error

An error is the cause of a failure with a frame for each instruction that was being run. A run
breaks off at one instruction, inside of the bodies of others. These others and the instruction
itself, unless it was only one too many, are the frames, and the outermost frame shows the machine
that the call leaves.

* `Machine.Active`, the point that a run has got to and the instructions whose bodies it is in;
* `FailsItself` and `Breaks`, the instruction at which a run breaks off;
* `frames_or_calls`: an instruction whose error has frames has run a body with the same error;
* `Active.frames_eq`, from the point at which a run breaks off to its error, and `exists_breaks`,
  from the error to the point;
* `Machine.error_layers`, for calls.
-/

namespace Reshape.Machine

variable {fuel index : Nat} {i : Instruction} {program body rest : Program} {point : Point}
  {m m' at' : Machine} {e : MachineError} {o : Outcome} {cause : Failure}
  {outer own : List Instruction}

/-! ### Where a run breaks off -/

/-- A run gets from one point to another, which is in the bodies of so many instructions, the
outermost first. -/
inductive Active : Point → List Instruction → Point → Prop
  | here (point : Point) : Active point [] point
  | behind {fuel : Nat} {i : Instruction} {rest : Program} {m m' : Machine}
      {outer : List Instruction} {point : Point} (hdone : step (run fuel) i m = some (.done m'))
      (h : Active (rest, m') outer point) : Active (i :: rest, m) outer point
  | inside {i : Instruction} {rest body : Program} {m m' : Machine} {outer : List Instruction}
      {point : Point} (hcalls : Calls i (m.announce i) body m')
      (h : Active (body, m') outer point) : Active (i :: rest, m) (i :: outer) point

/-- An instruction fails itself: it fails, and none of the bodies that it runs does. -/
structure FailsItself (i : Instruction) (m : Machine) (cause : Failure) : Prop where
  fails : ∃ fuel e m', m.carryOut (run fuel) i = some (.failed e m') ∧ e.cause = cause
  bodies : ∀ body head, Calls i m body head →
    ∀ fuel e m', run fuel body head ≠ some (.failed e m')

/-- A run breaks off at an instruction that is carried out on `m`. The instruction fails itself, or
it succeeds and is one too many; then there is no frame for it. -/
inductive Breaks (i : Instruction) (m : Machine) : List Instruction → Failure → Prop
  | itself {cause : Failure} (h : FailsItself i m cause) : Breaks i m [i] cause
  | ceiling {fuel : Nat} {m' : Machine} (hdone : m.carryOut (run fuel) i = some (.done m'))
      (hfull : m'.limits.operations ≤ m'.operations) :
      Breaks i m [] (.operationLimitExceeded m'.limits.operations)

/-! ### Instructions that fail -/

/-- The rounds of a loop that goes by the table are its heads. -/
theorem Rounds.loopHead {condition : StopCondition} {level limit rounds : Nat}
    {start head : Machine} (h : Rounds (run fuel) condition level limit start rounds head)
    (hstart : start.counted level = 0) :
    LoopHead condition level limit start rounds head := by
  induction h with
  | zero => exact .zero
  | @succ rounds head m body h hunmet hbelow hbody hround ih =>
    rw [h.counted_eq hstart] at hbelow ⊢
    exact .succ ih hunmet hbelow ((runCommand_of_peek hbody).trans hround)

/-- What goes wrong with the items of an array, goes wrong with one of them. -/
theorem exists_item_of_mapItems {items : List Json}
    (h : mapItems (run fuel body) m index items = some (m', .error e)) :
    ∃ before item after mapped m₁ sub, items = before ++ item :: after ∧
      mapItems (run fuel body) m index before = some (m₁, .ok mapped) ∧
      run fuel body ((m₁.record (.subMachine (index + before.length) m₁.cursor.path)).spawn item) =
        some (.failed e sub) := by
  induction items generalizing m index with
  | nil => cases h
  | cons item rest ih =>
    rw [mapItems] at h
    split at h
    · cases h
    next hfailed =>
      cases h
      exact ⟨[], item, rest, [], m, _, rfl, rfl, hfailed⟩
    next sub hdone =>
      split at h
      · cases h
      · obtain ⟨before, next, after, mapped, m₁, sub', rfl, hbefore, hfailed⟩ := ih h
        refine ⟨item :: before, next, after, sub.document :: mapped, m₁, sub', rfl, ?_, ?_⟩
        · simp only [mapItems, hdone, hbefore]
        · rwa [List.length_cons, Nat.add_comm before.length, ← Nat.add_assoc]

/-- A single instruction fails without a frame inside. -/
theorem frames_of_ofEffect {effect : Effect Unit}
    (ho : Outcome.ofEffect effect m = .failed e m') : e.frames = [] := by
  unfold Outcome.ofEffect at ho
  split at ho <;> cases ho
  rfl

/-- A jump fails for want of a value, or with the error of its inner instruction. -/
theorem frames_or_takes {expected : Bool} {inner : Instruction}
    (ho : m.jump (run fuel) expected inner = some (.failed e m')) :
    e.frames = [] ∨ ∃ value head, Effect.takeValue.run m = .ok value head ∧
      value.truthiness = some expected ∧ run fuel [inner] head = some (.failed e m') := by
  rw [jump] at ho
  split at ho
  next =>
    cases ho
    exact .inl rfl
  next value head hvalue =>
    split at ho
    next hexpected => exact .inr ⟨value, head, hvalue, hexpected, ho⟩
    next => cases ho

/-- **The frames of an error come from a body.** An instruction fails without a frame inside, or one
of the bodies that it runs fails with the same error. -/
theorem frames_or_calls (ho : m.carryOut (run fuel) i = some (.failed e m')) :
    e.frames = [] ∨ ∃ body head sub, Calls i m body head ∧
      run fuel body head = some (.failed e sub) := by
  cases i with
  | popCommand =>
    replace ho : m.runCommand (run fuel) = some (.failed e m') := ho
    cases hbody : m.commands.peek with
    | error _ =>
      rw [runCommand, hbody] at ho
      cases ho
      exact .inl rfl
    | ok body =>
      rw [runCommand_of_peek hbody] at ho
      exact .inr ⟨body, m, m', .command hbody, ho⟩
  | loopUntil condition =>
    obtain ⟨starts, ending, hends, hleft⟩ := loopUntil_eq_some_iff.1 ho
    cases hends with
    | met => cases hleft
    | unanswered =>
      cases hleft
      exact .inl rfl
    | exceeded =>
      cases hleft
      exact .inl rfl
    | bodiless =>
      cases hleft
      exact .inl rfl
    | failed h hunmet hbelow hbody hround =>
      cases hleft
      have hhead := h.loopHead m.counted_enterLoop
      rw [h.counted_eq m.counted_enterLoop] at hbelow
      exact .inr ⟨_, _, _, .loop hhead hunmet hbelow hbody, hround⟩
  | jumpIfTrue inner =>
    refine (frames_or_takes ho).imp_right ?_
    rintro ⟨value, head, hvalue, htrue, hinner⟩
    exact ⟨[inner], head, m', .jumpIfTrue hvalue htrue, hinner⟩
  | jumpIfFalse inner =>
    refine (frames_or_takes ho).imp_right ?_
    rintro ⟨value, head, hvalue, hfalse, hinner⟩
    exact ⟨[inner], head, m', .jumpIfFalse hvalue hfalse, hinner⟩
  | mapArray body =>
    replace ho : m.mapArray (run fuel) body = some (.failed e m') := ho
    unfold mapArray at ho
    rcases run_currentItems "MapArray" m with ⟨items, hitems⟩ | ⟨cause, hcause⟩
    · rw [hitems] at ho
      simp only at ho
      split at ho
      next => cases ho
      next hmapped =>
        cases ho
        obtain ⟨before, item, after, mapped, m₁, sub, rfl, hbefore, hfailed⟩ :=
          exists_item_of_mapItems hmapped
        rw [Nat.zero_add] at hfailed
        exact .inr ⟨body, _, sub, .item (current_of_run_currentItems hitems) hbefore, hfailed⟩
      next => exact .inl (frames_of_ofEffect (Option.some.inj ho))
    · rw [hcause] at ho
      cases ho
      exact .inl rfl
  | _ => exact .inl (frames_of_ofEffect (Option.some.inj ho))

/-! ### From the point to the error -/

theorem FailsItself.eq_bare (h : FailsItself i m cause)
    (ho : m.carryOut (run fuel) i = some o) : ∃ m', o = .failed (.bare cause) m' := by
  obtain ⟨fuel', e, m', hfails, rfl⟩ := h.fails
  cases carryOut_unique ho hfails
  rcases frames_or_calls hfails with hframes | ⟨body, head, sub, hcalls, hrun⟩
  · refine ⟨m', ?_⟩
    rw [MachineError.bare, ← hframes]
  · exact (h.bodies body head hcalls fuel' e sub hrun).elim

/-- An instruction at which a run breaks off fails, and is the one frame of its error if it has
failed itself. -/
theorem Breaks.step_fails (h : Breaks i (m.announce i) own cause)
    (ho : step (run fuel) i m = some o) :
    ∃ e m', o = .failed e m' ∧ e.cause = cause ∧
      e.frames.map Frame.instruction = own.map Instruction.text := by
  rw [step_eq] at ho
  obtain ⟨carried, hcarried, rfl⟩ := Option.map_eq_some_iff.1 ho
  cases h with
  | itself h =>
    obtain ⟨m', rfl⟩ := h.eq_bare hcarried
    exact ⟨_, m', rfl, rfl, rfl⟩
  | ceiling hdone hfull =>
    cases carryOut_unique hcarried hdone
    obtain ⟨log, -, hcomplete⟩ := complete_eq _ i
    rw [Outcome.finish, hcomplete, if_pos hfull]
    exact ⟨_, _, rfl, rfl, rfl⟩

/-- A run that ends has carried out its first instruction, and goes on behind it or ends with it. -/
theorem exists_step_of_run (ho : run fuel (i :: rest) m = some o) :
    ∃ less first, fuel = less + 1 ∧ step (run less) i m = some first ∧
      (∀ m₁, first = .done m₁ → run fuel rest m₁ = some o) ∧
      ∀ e m₁, first = .failed e m₁ → o = first := by
  cases fuel with
  | zero => cases ho
  | succ less =>
    rw [run, inSequence] at ho
    cases hstep : step (run less) i m with
    | none => simp [hstep] at ho
    | some first =>
      refine ⟨less, first, rfl, hstep, ?_, ?_⟩
      · rintro m₁ rfl
        simp only [hstep] at ho
        exact ho
      · rintro e m₁ rfl
        simp only [hstep, Option.some.injEq] at ho
        exact ho.symm

/-- **The frames of an error are the instructions that were being run**, when the run broke off. -/
theorem Active.frames_eq (h : Active (program, m) outer (i :: rest, at'))
    (hbreaks : Breaks i (at'.announce i) own cause) (ho : run fuel program m = some o) :
    ∃ e m', o = .failed e m' ∧ e.cause = cause ∧
      e.frames.map Frame.instruction = (outer ++ own).map Instruction.text := by
  generalize hstart : (program, m) = start at h
  generalize hend : (i :: rest, at') = point at h
  induction h generalizing program m fuel o with
  | here =>
    cases hend
    cases hstart
    obtain ⟨less, first, -, hstep, -, hfailed⟩ := exists_step_of_run ho
    obtain ⟨e, m', rfl, hcause, hframes⟩ := hbreaks.step_fails hstep
    exact ⟨e, m', hfailed e m' rfl, hcause, hframes⟩
  | behind hdone _ ih =>
    cases hstart
    obtain ⟨less, first, -, hstep, hnext, -⟩ := exists_step_of_run ho
    cases step_unique hstep hdone
    exact ih (hnext _ rfl) rfl hend
  | @inside j _ body m m₁ outer _ hcalls _ ih =>
    cases hstart
    obtain ⟨less, first, -, hstep, -, hfailed⟩ := exists_step_of_run ho
    rw [step_eq] at hstep
    obtain ⟨carried, hcarried, rfl⟩ := Option.map_eq_some_iff.1 hstep
    obtain ⟨inner, hinner, hfails⟩ := run_of_calls hcalls hcarried
    obtain ⟨e, sub, rfl, hcause, hframes⟩ := ih hinner rfl hend
    obtain ⟨m₂, rfl⟩ := hfails e sub rfl
    refine ⟨_, m₂, hfailed _ m₂ rfl, hcause, ?_⟩
    rw [List.cons_append, List.map_cons, ← hframes]
    rfl

/-! ### From the error to the point -/

theorem Active.append (hbefore : run fuel program m = some (.done m'))
    (h : Active (rest, m') outer point) : Active (program ++ rest, m) outer point := by
  induction program generalizing m with
  | nil =>
    cases fuel <;> cases hbefore
    exact h
  | cons i program ih =>
    obtain ⟨less, first, -, hstep, hnext, hfailed⟩ := exists_step_of_run hbefore
    cases first with
    | done m₁ => exact .behind hstep (ih (hnext m₁ rfl))
    | failed e m₁ => cases hfailed e m₁ rfl

/-- **A run that fails breaks off somewhere.** -/
theorem exists_breaks (ho : run fuel program m = some (.failed e m')) :
    ∃ outer i rest at' own, Active (program, m) outer (i :: rest, at') ∧
      Breaks i (at'.announce i) own e.cause := by
  induction fuel generalizing program m e m' with
  | zero => cases ho
  | succ fuel ih =>
    obtain ⟨before, i, after, m₁, rfl, hbefore, hi⟩ := exists_of_inSequence_failed ho
    replace hbefore : run (fuel + 1) before m = some (.done m₁) := hbefore
    rw [step_eq] at hi
    obtain ⟨carried, hcarried, hfinish⟩ := Option.map_eq_some_iff.1 hi
    cases carried with
    | done m₂ =>
      -- The instruction succeeds, so it is the count that fails.
      obtain ⟨log, -, hcomplete⟩ := m₂.complete_eq i
      rw [Outcome.finish, hcomplete] at hfinish
      split at hfinish
      next hfull =>
        cases hfinish
        exact ⟨[], i, after, m₁, [], .append hbefore (.here _), .ceiling hcarried hfull⟩
      next => cases hfinish
    | failed e₁ m₂ =>
      cases hfinish
      by_cases hbody : ∃ body head fuel' e' sub, Calls i (m₁.announce i) body head ∧
          run fuel' body head = some (.failed e' sub)
      · -- The body that fails is run to the same end with the fuel that is left.
        obtain ⟨body, head, fuel', e', sub, hcalls, hfailed⟩ := hbody
        obtain ⟨o', ho', hfails⟩ := run_of_calls hcalls hcarried
        cases run_eq_of_run ho' hfailed
        obtain ⟨_, heq⟩ := hfails e' sub rfl
        cases heq
        obtain ⟨outer, j, rest, at', own, hactive, hbreaks⟩ := ih ho'
        exact ⟨i :: outer, j, rest, at', own, .append hbefore (.inside hcalls hactive), hbreaks⟩
      · have hitself : FailsItself i (m₁.announce i) e₁.cause :=
          ⟨⟨fuel, e₁, m', hcarried, rfl⟩, fun body head hcalls fuel' e' sub hfailed =>
            hbody ⟨body, head, fuel', e', sub, hcalls, hfailed⟩⟩
        exact ⟨[], i, after, m₁, [i], .append hbefore (.here _), .itself hitself⟩

/-! ### Calls that fail -/

/-- **The layers of an error tell where the run broke off.** Take any machine and any call that fails.
The instruction of the program at which it fails was one too many, and the error is the ceiling
without a frame; or else the outermost frame has the text of this instruction, and the path and the
stacks of the machine that the call leaves. The run breaks off at some point, and wherever it does,
the frames are the instructions in whose bodies that is, the outermost first, and the instruction
that has failed itself. Below the frames there is the cause. -/
theorem error_layers (ho : m.execute fuel program = some (.failed e m')) :
    (∃ before top after m₁, program = before ++ top :: after ∧
      run fuel before (m.record (.executing program.length m.trace)) = some (.done m₁) ∧
      ((∃ m₂, (m₁.announce top).carryOut (run fuel) top = some (.done m₂) ∧
          m₂.complete top = .failed e m' ∧
          e = .bare (.operationLimitExceeded m'.limits.operations)) ∨
        ∃ inner, (m₁.announce top).carryOut (run fuel) top = some (.failed inner m') ∧
          e = inner.within ⟨top.text, m'.cursor.path, m'.stackReport⟩)) ∧
    (∃ outer i rest at' own,
      Active (program, m.record (.executing program.length m.trace)) outer (i :: rest, at') ∧
      Breaks i (at'.announce i) own e.cause) ∧
    ∀ outer i rest at' own cause,
      Active (program, m.record (.executing program.length m.trace)) outer (i :: rest, at') →
      Breaks i (at'.announce i) own cause →
      e.cause = cause ∧ e.frames.map Frame.instruction = (outer ++ own).map Instruction.text := by
  rw [execute] at ho
  refine ⟨?_, exists_breaks ho, fun outer i rest at' own cause hactive hbreaks => ?_⟩
  · cases fuel with
    | zero => cases ho
    | succ fuel =>
      obtain ⟨before, top, after, m₁, hprogram, hbefore, htop⟩ := exists_of_inSequence_failed ho
      refine ⟨before, top, after, m₁, hprogram, hbefore, ?_⟩
      rw [step_eq] at htop
      obtain ⟨carried, hcarried, hfinish⟩ := Option.map_eq_some_iff.1 htop
      replace hcarried := (refines_of_le (Nat.le_succ fuel)).carryOut hcarried
      cases carried with
      | done m₂ =>
        obtain ⟨log, -, hcomplete⟩ := m₂.complete_eq top
        refine .inl ⟨m₂, hcarried, hfinish, ?_⟩
        rw [Outcome.finish, hcomplete] at hfinish
        split at hfinish <;> cases hfinish
        rfl
      | failed inner m₂ =>
        cases hfinish
        exact .inr ⟨inner, hcarried, rfl⟩
  · obtain ⟨e', m₂, herror, hcause, hframes⟩ := hactive.frames_eq hbreaks ho
    cases herror
    exact ⟨hcause, hframes⟩

/-- A loop jumps to an array, for an item of which there is no element to pop. A loop goes on until
an instruction of its body is one too many. -/
theorem error_layers_of_nested_bodies :
    (∃ (never : StopCondition) (e : MachineError) (m' : Machine) (outer own : List Instruction),
      (start (.array [.null]) {} false).execute 5
        [.pushCommand [.storeValue (.given (.bool true)), .jumpIfTrue (.mapArray [.popElement])],
          .loopUntil never] = some (.failed e m') ∧
      e.cause = .stackUnderflow ⟨"element", 0, 0⟩ ∧
      (outer ++ own).map Instruction.text = [.loopUntil never, .jumpIfTrue (.mapArray [.popElement]),
        .mapArray [.popElement], .popElement].map Instruction.text ∧
      ∃ i rest at', Breaks i (announce at' i) own e.cause ∧
        Active ([.pushCommand [.storeValue (.given (.bool true)),
            .jumpIfTrue (.mapArray [.popElement])], .loopUntil never],
          (start (.array [.null]) {} false).record (.executing 2 false)) outer (i :: rest, at')) ∧
    ∃ (never : StopCondition) (e : MachineError) (m' : Machine),
      (start .null { operations := 3 } false).execute 2
        [.pushCommand [.pushElement], .loopUntil never] = some (.failed e m') ∧
      e.cause = .operationLimitExceeded 3 ∧
      ∃ (inner : MachineError) (top : Instruction), inner.frames = [] ∧
        e = inner.within ⟨top.text, m'.cursor.path, m'.stackReport⟩ := by
  constructor
  · obtain ⟨e, m', ho, hframes, hcause⟩ : ∃ e m', (start (.array [.null]) {} false).execute 5
        [.pushCommand [.storeValue (.given (.bool true)), .jumpIfTrue (.mapArray [.popElement])],
          .loopUntil (.custom ⟨0, fun _ => false⟩)] = some (.failed e m') ∧
        e.frames.map Frame.instruction = [.loopUntil (.custom ⟨0, fun _ => false⟩),
          .jumpIfTrue (.mapArray [.popElement]), .mapArray [.popElement],
          .popElement].map Instruction.text ∧
        e.cause = .stackUnderflow ⟨"element", 0, 0⟩ := ⟨_, _, rfl, rfl, rfl⟩
    obtain ⟨-, ⟨outer, i, rest, at', own, hactive, hbreaks⟩, hall⟩ := error_layers ho
    have htexts := (hall outer i rest at' own e.cause hactive hbreaks).2
    exact ⟨_, e, m', outer, own, ho, hcause, htexts.symm.trans hframes, i, rest, at', hbreaks,
      hactive⟩
  · obtain ⟨e, m', ho, hframes, hcause⟩ : ∃ e m', (start .null { operations := 3 } false).execute 2
        [.pushCommand [.pushElement], .loopUntil (.custom ⟨0, fun _ => false⟩)] =
          some (.failed e m') ∧
        e.frames.length = 1 ∧ e.cause = .operationLimitExceeded 3 := ⟨_, _, rfl, rfl, rfl⟩
    obtain ⟨⟨before, top, after, m₁, -, -, hlayer⟩, -, -⟩ := error_layers ho
    rcases hlayer with ⟨m₂, -, -, rfl⟩ | ⟨inner, -, rfl⟩
    · cases hframes
    · exact ⟨_, _, m', ho, hcause, inner, top, List.length_eq_zero_iff.1 (Nat.succ.inj hframes), rfl⟩

end Reshape.Machine
