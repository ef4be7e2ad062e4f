import Reshape.Proofs.Machine.CleanUp

/-!
# Structured programs halt

A program is structured if it pushes bodies only in front of the loops that run them, and runs no
body otherwise. It may reset the machine wherever it likes, also inside its loops, which then find
their body gone from the command stack and their level given to other loops. It halts all the same,
on every machine.

* `Machine.Holds`: the command stack holds given bodies, or none, as after a reset;
* `Program.Halts` and `Program.Structured.halts`, for programs, with `loopUntil_halts` for loops;
* `run_of_calls`: the bodies that an instruction runs end if it ends, and fail only if it fails;
* `acc_of_run`: behind a run that ends there is no endless way through its instructions and bodies;
* `execute_halts_of_structured`, for calls.
-/

namespace Reshape

/-- The command stack of a machine holds these bodies, or it has been cleared. -/
def Machine.Holds (below : List Program) (m : Machine) : Prop :=
  m.commands.items = below ∨ m.commands.items = []

/-- A run that succeeds leaves these bodies on the command stack, or none. -/
def Outcome.Holds (below : List Program) : Outcome → Prop
  | .done m => m.Holds below
  | .failed _ _ => True

/-- On every machine, the run of a program ends, and leaves the bodies on the command stack or
clears it. -/
def Program.Halts (fuel : Nat) (program : Program) : Prop :=
  ∀ (below : List Program) (m : Machine), m.Holds below →
    ∃ o, Machine.run fuel program m = some o ∧ o.Holds below

variable {m m' : Machine} {i : Instruction} {program body rest : Program}
  {below above : List Program} {fuel : Nat} {o : Outcome}

namespace Machine.Holds

/-- The command stack is all that counts. -/
theorem of_same (h : m.Holds below) (hcommands : m'.commands = m.commands) : m'.Holds below := by
  unfold Holds
  rw [hcommands]
  exact h

/-- What a loop has of its body when it comes back to it: the body is on top, or nothing is. -/
theorem peek (h : m.Holds (body :: below)) :
    m.commands.peek = .ok body ∨ ∃ e, m.commands.peek = .error e := by
  unfold Stack.peek Stack.peekAt
  rcases h with h | h
  · exact .inl (by rw [h]; rfl)
  · exact .inr ⟨_, by rw [h]; rfl⟩

theorem leaveLoop (h : m.Holds (body :: below)) (level : Nat) (ok : Bool) :
    (m.leaveLoop level ok).Holds below := by
  rcases h with h | h
  · exact .inl (congrArg List.tail h)
  · exact .inr (congrArg List.tail h)

end Machine.Holds

/-- To count an instruction leaves the command stack. -/
theorem Outcome.Holds.finish (h : o.Holds below) (i : Instruction) : (o.finish i).Holds below := by
  cases o with
  | failed e m => exact trivial
  | done m =>
    have hm : m.Holds below := h
    obtain ⟨log, -, hcomplete⟩ := m.complete_eq i
    rw [Outcome.finish, hcomplete]
    split
    · exact trivial
    · exact hm.of_same rfl

/-! ### Programs -/

namespace Program.Halts

/-- The first instruction of a program, and the rest of it. -/
theorem run_cons (hcarry : (m.announce i).carryOut (Machine.run fuel) i = some o)
    (ho : o.Holds above)
    (hrest : ∀ m' : Machine, m'.Holds above →
      ∃ o, Machine.run (fuel + 1) rest m' = some o ∧ o.Holds below) :
    ∃ o, Machine.run (fuel + 1) (i :: rest) m = some o ∧ o.Holds below := by
  rw [Machine.run, inSequence, Machine.step_eq_some hcarry]
  have hfinish := ho.finish i
  generalize o.finish i = finished at hfinish ⊢
  cases finished with
  | failed e m' => exact ⟨_, rfl, trivial⟩
  | done m' => exact hrest m' hfinish

theorem cons (hrest : rest.Halts (fuel + 1))
    (hi : ∀ below (m : Machine), m.Holds below →
      ∃ o, m.carryOut (Machine.run fuel) i = some o ∧ o.Holds below) :
    Halts (fuel + 1) (i :: rest) := by
  intro below m hm
  obtain ⟨log, hannounce⟩ := m.announce_eq i
  have hannounced : (m.announce i).Holds below := hm.of_same (by rw [hannounce])
  obtain ⟨o, ho, hholds⟩ := hi below _ hannounced
  exact run_cons ho hholds fun m' hm' => hrest below m' hm'

theorem single (hi : i.isSingle = true) (hrest : rest.Halts (fuel + 1)) :
    Halts (fuel + 1) (i :: rest) := by
  refine hrest.cons fun below m hm => ⟨_, Instruction.carryOut_of_isSingle hi _ m, ?_⟩
  have hleft : (Outcome.ofEffect i.perform m).machine.Holds below := by
    by_cases hreset : i = .reset
    · subst hreset
      exact .inr rfl
    · obtain ⟨cursor, elements, values, hleft⟩ :=
        (Instruction.perform_local_of_isSingle hi hreset).machine_ofEffect m
      rw [hleft]
      exact hm.of_same rfl
  generalize Outcome.ofEffect i.perform m = left at hleft ⊢
  cases left with
  | done m' => exact hleft
  | failed e m' => exact trivial

theorem jump {expected : Bool} {inner : Instruction}
    (hcarry : ∀ run m, Machine.carryOut run i m = m.jump run expected inner)
    (hinner : Halts fuel [inner]) (hrest : rest.Halts (fuel + 1)) :
    Halts (fuel + 1) (i :: rest) := by
  refine hrest.cons fun below m hm => ?_
  rw [hcarry, Machine.jump_eq]
  cases m.values.pop with
  | error e => exact ⟨_, rfl, trivial⟩
  | ok popped =>
    have htaken : ({ m with values := popped.2 } : Machine).Holds below := hm.of_same rfl
    simp only
    split
    · exact hinner below _ htaken
    · exact ⟨_, rfl, htaken⟩

theorem mapArray (hbody : body.Halts fuel) (hrest : rest.Halts (fuel + 1)) :
    Halts (fuel + 1) (.mapArray body :: rest) := by
  refine hrest.cons fun below m hm => ?_
  have hends (m : Machine) : ∃ o, Machine.run fuel body m = some o :=
    (hbody m.commands.items m (.inl rfl)).imp fun _ ho => ho.1
  obtain ⟨o, ho⟩ := m.mapArray_ends hends
  refine ⟨o, ho, ?_⟩
  obtain ⟨cursor, elements, values, log, hleft⟩ := Machine.mapArray_frame ho
  cases o with
  | failed e m' => exact trivial
  | done m' =>
    have hm' : m' = { m with cursor, elements, values, log } := hleft
    exact hm.of_same (by rw [hm'])

/-! ### Loops -/

/-- As long as its body is on top, a loop runs it; a round that has cleared the command stack is the
last one. -/
theorem iterate_halts (hbody : body.Halts fuel) (condition : StopCondition) (level limit : Nat)
    (remaining : Nat) (hm : m.Holds (body :: below)) :
    ∃ o, Machine.iterate (Machine.run fuel) condition level limit remaining m = some o ∧
      o.Holds (body :: below) := by
  induction remaining generalizing m with
  | zero =>
    rw [Machine.iterate]
    split
    · exact ⟨_, rfl, trivial⟩
    · exact ⟨_, rfl, hm⟩
    · exact ⟨_, rfl, trivial⟩
  | succ remaining ih =>
    rw [Machine.iterate]
    split
    · exact ⟨_, rfl, trivial⟩
    · exact ⟨_, rfl, hm⟩
    · rw [Machine.runCommand]
      rcases hm.peek with hpeek | ⟨e, hpeek⟩
      · obtain ⟨o, ho, hholds⟩ := hbody (body :: below) m hm
        simp only [hpeek, ho]
        cases o with
        | failed e m' => exact ⟨_, rfl, trivial⟩
        | done m' => exact ih (hholds.of_same rfl)
      · rw [hpeek]
        exact ⟨_, rfl, trivial⟩

theorem loopUntil_halts (hbody : body.Halts fuel) (condition : StopCondition)
    (hm : m.Holds (body :: below)) :
    ∃ o, m.loopUntil (Machine.run fuel) condition = some o ∧ o.Holds below := by
  have henter : m.enterLoop.Holds (body :: below) := hm.of_same rfl
  obtain ⟨o, ho, hholds⟩ := iterate_halts hbody condition (m.loopLevel + 1)
    m.limits.loopIterations m.limits.loopIterations henter
  unfold Machine.loopUntil
  simp only [ho]
  refine ⟨_, rfl, ?_⟩
  cases o with
  | failed e m' => exact trivial
  | done m' => exact Machine.Holds.leaveLoop hholds _ _

/-- A body is pushed onto whatever the command stack holds, and the loop behind takes it off. -/
theorem loop (hbody : body.Halts fuel) (condition : StopCondition) (hrest : rest.Halts (fuel + 1)) :
    Halts (fuel + 1) (.pushCommand body :: .loopUntil condition :: rest) := by
  intro below m hm
  have hcarry : (m.announce (.pushCommand body)).carryOut (Machine.run fuel) (.pushCommand body) =
      some (.done { m.announce (.pushCommand body) with
        commands := (m.announce (.pushCommand body)).commands.push body }) := rfl
  obtain ⟨log, hannounce⟩ := m.announce_eq (.pushCommand body)
  have hpushed : (Outcome.done { m.announce (.pushCommand body) with
      commands := (m.announce (.pushCommand body)).commands.push body }).Holds
        (body :: m.commands.items) := by
    rw [hannounce]
    exact .inl rfl
  refine run_cons hcarry hpushed fun m' hm' => ?_
  obtain ⟨log', hannounce'⟩ := m'.announce_eq (.loopUntil condition)
  have hannounced : (m'.announce (.loopUntil condition)).Holds (body :: m.commands.items) :=
    hm'.of_same (by rw [hannounce'])
  obtain ⟨o, ho, hholds⟩ := loopUntil_halts hbody condition hannounced
  refine run_cons ho hholds fun m'' hm'' => hrest below m'' ?_
  rcases hm'' with hm'' | hm''
  · unfold Machine.Holds
    rw [hm'']
    exact hm
  · exact .inr hm''

end Program.Halts

/-- **A structured program halts**, if the fuel is enough for its bodies. -/
theorem Program.Structured.halts {allowed : Instruction → Prop} (h : program.Structured allowed)
    (hfuel : Program.nesting program ≤ fuel) : program.Halts fuel := by
  refine h.induction_on_nesting (motive := fun fuel program => program.Halts fuel)
    ?nil ?single ?jumpIfTrue ?jumpIfFalse ?mapArray ?loop hfuel
  case nil => exact fun _ below m hm => ⟨_, rfl, hm⟩
  case single => exact fun hi _ hrest => .single hi hrest
  case jumpIfTrue => exact fun hinner hrest => .jump (fun _ _ => rfl) hinner hrest
  case jumpIfFalse => exact fun hinner hrest => .jump (fun _ _ => rfl) hinner hrest
  case mapArray => exact fun hbody hrest => .mapArray hbody hrest
  case loop => exact fun condition hbody hrest => .loop hbody condition hrest

/-! ### No endless way -/

namespace Machine

variable {fuel' : Nat} {o' : Outcome}

theorem refines_of_le (hle : fuel ≤ fuel') : Runner.Refines (run fuel) (run fuel') :=
  fun _ _ _ ho => run_mono hle ho

/-- Two rounds that end, end alike. -/
theorem runCommand_eq (h : m.runCommand (run fuel) = some o)
    (h' : m.runCommand (run fuel') = some o') : o = o' := by
  have hmore := (refines_of_le (Nat.le_max_left fuel fuel')).runCommand h
  have hmore' := (refines_of_le (Nat.le_max_right fuel fuel')).runCommand h'
  exact Option.some.inj (hmore.symm.trans hmore')

/-- Two instructions that are carried out to an end, end alike. -/
theorem carryOut_unique (h : m.carryOut (run fuel) i = some o)
    (h' : m.carryOut (run fuel') i = some o') : o = o' := by
  have hmore := (refines_of_le (Nat.le_max_left fuel fuel')).carryOut h
  have hmore' := (refines_of_le (Nat.le_max_right fuel fuel')).carryOut h'
  exact Option.some.inj (hmore.symm.trans hmore')

/-- Two instructions that end, end alike. -/
theorem step_unique (h : step (run fuel) i m = some o) (h' : step (run fuel') i m = some o') :
    o = o' := by
  have hmore := (refines_of_le (Nat.le_max_left fuel fuel')).step h
  have hmore' := (refines_of_le (Nat.le_max_right fuel fuel')).step h'
  exact Option.some.inj (hmore.symm.trans hmore')

/-- A loop that ends gets to that end from each of its heads. -/
theorem iterate_of_loopHead {condition : StopCondition} {level limit rounds : Nat}
    {start head : Machine} (hhead : LoopHead condition level limit start rounds head)
    (ho : iterate (run fuel) condition level limit limit start = some o) :
    iterate (run fuel) condition level limit (limit - rounds) head = some o := by
  induction hhead with
  | zero => exact ho
  | @succ rounds fuel' m m' _ hunmet hlimit hround ih =>
    obtain ⟨remaining, hremaining⟩ : ∃ remaining, limit - rounds = remaining + 1 :=
      ⟨limit - rounds - 1, by omega⟩
    have hnext : limit - (rounds + 1) = remaining := by omega
    have hcount : limit - remaining = rounds + 1 := by omega
    rw [hremaining, iterate, hunmet] at ih
    rw [hnext]
    cases hcommand : m.runCommand (run fuel) with
    | none => simp [hcommand] at ih
    | some first =>
      cases runCommand_eq hcommand hround
      simpa only [hcommand, hcount] using ih

/-- The body runs to an end on each item of an array that is worked through, and no further item is
worked through if it fails. -/
theorem exists_run_of_mapItems {before after mapped : List Json} {item : Json} {index : Nat}
    {result : Machine × Except MachineError (List Json)}
    (hbefore : mapItems (run fuel' body) m index before = some (m', .ok mapped))
    (hall : mapItems (run fuel body) m index (before ++ item :: after) = some result) :
    ∃ o, run fuel body
        ((m'.record (.subMachine (index + before.length) m'.cursor.path)).spawn item) = some o ∧
      ∀ e sub, o = .failed e sub → result.2 = .error e := by
  induction before generalizing m index mapped result with
  | nil =>
    cases hbefore
    rw [List.nil_append, mapItems] at hall
    split at hall
    · cases hall
    next hfailed =>
      refine ⟨_, hfailed, ?_⟩
      rintro e sub ⟨⟩
      cases hall
      rfl
    next hdone =>
      refine ⟨_, hdone, ?_⟩
      rintro e sub ⟨⟩
  | cons first before ih =>
    rw [mapItems] at hbefore
    rw [List.cons_append, mapItems] at hall
    cases hfirst' : run fuel' body ((m.record (.subMachine index m.cursor.path)).spawn first) with
    | none => simp [hfirst'] at hbefore
    | some o' =>
      cases hfirst : run fuel body ((m.record (.subMachine index m.cursor.path)).spawn first) with
      | none => simp [hfirst] at hall
      | some o =>
        obtain rfl := run_eq_of_run hfirst' hfirst
        cases o' with
        | failed e sub => simp [hfirst'] at hbefore
        | done sub =>
          simp only [hfirst', hfirst] at hbefore hall
          rw [List.length_cons, Nat.add_comm before.length, ← Nat.add_assoc]
          split at hbefore
          · rename_i hbefore'
            cases hbefore
            split at hall
            · rename_i hall'
              obtain ⟨o, ho, hfails⟩ := ih hbefore' hall'
              refine ⟨o, ho, fun e sub he => ?_⟩
              cases hfails e sub he
            · exact ih hbefore' hall
          · rename_i hnot
            exact (hnot _ _ hbefore).elim

/-- **Every body that an instruction runs on its way to an end runs to an end**, and if it fails, the
instruction fails with the same error. -/
theorem run_of_calls (hcalls : Calls i m body m') (ho : m.carryOut (run fuel) i = some o) :
    ∃ o', run fuel body m' = some o' ∧ ∀ e sub, o' = .failed e sub → ∃ m'', o = .failed e m'' := by
  cases hcalls with
  | command hbody =>
    rw [carryOut, runCommand, hbody] at ho
    exact ⟨o, ho, fun e sub he => ⟨sub, he⟩⟩
  | @loop condition rounds _ _ _ hhead hunmet hlimit hbody =>
    rw [carryOut, loopUntil] at ho
    cases hrounds : iterate (run fuel) condition (m.loopLevel + 1) m.limits.loopIterations
        m.limits.loopIterations m.enterLoop with
    | none => simp [hrounds] at ho
    | some all =>
      have hhere := iterate_of_loopHead hhead hrounds
      obtain ⟨remaining, hremaining⟩ : ∃ remaining,
          m.limits.loopIterations - rounds = remaining + 1 :=
        ⟨m.limits.loopIterations - rounds - 1, by omega⟩
      rw [hremaining, iterate, hunmet] at hhere
      simp only [runCommand, hbody] at hhere
      cases hrun : run fuel body m' with
      | none => simp [hrun] at hhere
      | some o' =>
        refine ⟨o', rfl, ?_⟩
        rintro e sub rfl
        simp only [hrun] at hhere
        cases hhere
        simp only [hrounds] at ho
        cases ho
        exact ⟨_, rfl⟩
  | jumpIfTrue hvalue htrue =>
    rw [carryOut, jump, hvalue] at ho
    simp only [htrue, if_true] at ho
    exact ⟨o, ho, fun e sub he => ⟨sub, he⟩⟩
  | jumpIfFalse hvalue hfalse =>
    rw [carryOut, jump, hvalue] at ho
    simp only [hfalse, if_true] at ho
    exact ⟨o, ho, fun e sub he => ⟨sub, he⟩⟩
  | @item fuel' _ m' _ before after mapped item hitems hbefore =>
    rw [carryOut, mapArray, run_currentItems_of_current hitems] at ho
    simp only at ho
    cases hall : mapItems (run fuel body) m 0 (before ++ item :: after) with
    | none => simp [hall] at ho
    | some result =>
      obtain ⟨o', ho', hfails⟩ := exists_run_of_mapItems hbefore hall
      rw [Nat.zero_add] at ho'
      refine ⟨o', ho', fun e sub he => ?_⟩
      obtain ⟨left, mapped⟩ := result
      cases hfails e sub he
      simp only [hall] at ho
      cases ho
      exact ⟨_, rfl⟩

/-- **Behind a run that ends there is no endless way**: from one point to the next, from the
instructions into the bodies that they run, only so many steps can be made. -/
theorem acc_of_run (ho : run fuel program m = some o) :
    Acc (fun next point => Next point next) (program, m) := by
  have hend (m : Machine) : Acc (fun next point => Next point next) (([] : Program), m) :=
    ⟨_, fun _ hnext => nomatch hnext⟩
  induction fuel generalizing program m o with
  | zero => cases ho
  | succ fuel ih =>
    rw [run] at ho
    induction program generalizing m with
    | nil => exact hend m
    | cons i rest ihrest =>
      refine ⟨_, fun next hnext => ?_⟩
      cases hstep : step (run fuel) i m with
      | none => simp [inSequence, hstep] at ho
      | some first =>
        cases hnext with
        | done h =>
          cases step_unique hstep h
          rw [inSequence, hstep] at ho
          exact ihrest ho
        | failed _ => exact hend _
        | enters hcalls =>
          rw [step_eq] at hstep
          obtain ⟨carried, hcarried, -⟩ := Option.map_eq_some_iff.1 hstep
          obtain ⟨o', ho', -⟩ := run_of_calls hcalls hcarried
          exact ih ho'

/-- **A structured program halts** on every machine, under whatever ceilings, whatever its loop
conditions are and whatever is left on the stacks: the call has an outcome, for which the nesting of
the bodies is fuel enough, and it comes to it in finitely many steps. -/
theorem execute_halts_of_structured (h : program.Structured fun _ => True) (m : Machine) :
    ∃ o, (∀ fuel, Program.nesting program ≤ fuel → m.execute fuel program = some o) ∧
      Acc (fun next point => Next point next)
        (program, m.record (.executing program.length m.trace)) := by
  obtain ⟨o, ho, -⟩ := h.halts (Nat.le_refl _) m.commands.items
    (m.record (.executing program.length m.trace)) (.inl rfl)
  exact ⟨o, fun fuel hfuel => run_mono hfuel ho, acc_of_run ho⟩

/-- A loop that resets the machine and has a loop of its own, both without an end: the inner loop is
as deep as the outer one after the reset, and stops at the ceiling of rounds. The body that an
earlier call has left on the command stack is lost. -/
theorem execute_halts_of_endless_loops :
    ∃ (never : StopCondition) (program : Program) (m : Machine) (e : MachineError) (m' : Machine),
      program = [.pushCommand [.reset, .pushCommand [], .loopUntil never], .loopUntil never] ∧
      (start .null { loopIterations := 2 } false).execute 1 [.pushCommand [.delete]] =
        some (.done m) ∧
      m.execute 3 program = some (.failed e m') ∧ e.cause = .loopLimitExceeded 1 2 ∧
      m'.commands.items = [] ∧
      Acc (fun next point => Next point next)
        (program, m.record (.executing program.length m.trace)) := by
  have h : Program.Structured (fun _ => True)
      [.pushCommand [.reset, .pushCommand [], .loopUntil (.custom ⟨0, fun _ => false⟩)],
        .loopUntil (.custom ⟨0, fun _ => false⟩)] :=
    .loop _ (.single rfl trivial (.loop _ .nil .nil)) .nil
  obtain ⟨m, hm⟩ : ∃ m, (start .null { loopIterations := 2 } false).execute 1
      [.pushCommand [.delete]] = some (.done m) := ⟨_, rfl⟩
  obtain ⟨o, hends, hacc⟩ := execute_halts_of_structured h m
  cases hm
  cases hends 3 (Nat.le_refl _)
  exact ⟨_, _, _, _, _, rfl, rfl, hends 3 (Nat.le_refl _), rfl, rfl, hacc⟩

end Machine

end Reshape
