import Reshape.Proofs.Machine.Budget
import Reshape.Proofs.Machine.CleanUp
import Reshape.Proofs.Machine.Realize

/-!
# Programs within their ceilings

A program that realizes a result may stop at a ceiling before it comes to it. It does not, if the
count of instructions that it would come to is within its ceiling.

* `Effect.Uncounted` and `Instruction.uncounted_perform`: a single instruction never fails at a
  ceiling on what is run;
* `Program.IsStraight`, programs of single instructions, and `run_straight`, what they cost;
* `Completes`, for programs that end on a scene, with `Realizes.completes` for straight programs,
  and `completes_jumpIfFalse_false`, `completes_jumpIfFalse_true` and `completes_countingLoop`.
-/

namespace Reshape

/-! ### Single instructions -/

/-- An effect never fails at a ceiling on what is run. -/
def Effect.Uncounted {α : Type} (e : Effect α) : Prop :=
  ∀ m cause m', e.run m = .error cause m' → ¬ cause.IsCeiling

namespace Effect.Uncounted

variable {α β : Type}

theorem bind {e : Effect α} {f : α → Effect β} (he : Uncounted e) (hf : ∀ a, Uncounted (f a)) :
    Uncounted (e >>= f) := by
  intro m cause m' h
  rw [EStateM.run_bind] at h
  cases hr : e.run m with
  | ok a m₁ =>
    rw [hr] at h
    exact hf a m₁ cause m' h
  | error e m₁ =>
    rw [hr] at h
    cases h
    exact he m _ _ hr

theorem get : Uncounted (MonadState.get : Effect Machine) := by
  intro m cause m' h
  cases h

theorem set (m : Machine) : Uncounted (MonadStateOf.set m : Effect PUnit) := by
  intro m₁ cause m' h
  cases h

theorem pure (a : α) : Uncounted (Pure.pure a : Effect α) := by
  intro m cause m' h
  cases h

theorem throw {e : Failure} (he : ¬ e.IsCeiling) :
    Uncounted (MonadExcept.throw e : Effect α) := by
  intro m cause m' h
  cases h
  exact he

theorem lift_mapError {ε : Type} {f : ε → Failure} (x : Except ε α) (h : ∀ e, ¬ (f e).IsCeiling) :
    Uncounted (Effect.lift (x.mapError f)) := by
  cases x with
  | ok a => exact pure a
  | error e => exact throw (h e)

theorem lift_underflow (x : Except Underflow α) :
    Uncounted (Effect.lift (x.mapError Failure.stackUnderflow)) :=
  lift_mapError x fun _ => not_false

theorem lift_navigation (x : Except CursorError α) :
    Uncounted (Effect.lift (x.mapError Failure.navigation)) :=
  lift_mapError x fun _ => not_false

theorem moveCursor (f : Cursor → Except CursorError Cursor) : Uncounted (Effect.moveCursor f) :=
  get.bind fun _ => (lift_navigation _).bind fun _ => set _

theorem resolve (operand : Operand) (m : Machine) :
    Uncounted (Effect.lift (operand.resolve m)) := by
  cases operand with
  | given value => exact pure value
  | field name =>
    simp only [Operand.resolve]
    cases m.cursor.current with
    | ok node => exact pure _
    | error e => exact throw not_false
  | value depth => exact lift_underflow _
  | current => exact lift_navigation _

theorem intoIndex (index : Json) : Uncounted (Effect.intoIndex index) := by
  unfold Effect.intoIndex
  cases index.toIndex? with
  | none => cases index <;> exact throw not_false
  | some position =>
    refine get.bind fun m => ?_
    cases m.cursor.intoIndex m.limits.arrayPadding position with
    | ok cursor => exact set _
    | error e => cases e <;> exact throw not_false

theorem closedInside : ClosedInside Uncounted where
  bind := bind
  pure := pure
  throw := throw
  resolve operand hf := get.bind fun m => (resolve operand m).bind hf
  current := get.bind fun _ => lift_navigation _
  takeElement := get.bind fun _ => (lift_underflow _).bind fun _ => (set _).bind fun _ => pure _
  takeValue := get.bind fun _ => (lift_underflow _).bind fun _ => (set _).bind fun _ => pure _
  giveElement element := by
    intro m cause m' h
    cases h
  giveValue value := by
    intro m cause m' h
    cases h
  arrangeElements _ := get.bind fun _ => (lift_underflow _).bind fun _ => set _
  arrangeValues _ := get.bind fun _ => (lift_underflow _).bind fun _ => set _
  intoField _ _ := moveCursor _
  intoIndex := intoIndex
  write _ := moveCursor _
  delete := moveCursor _

end Effect.Uncounted

/-- What a single instruction fails for is not how much has been run. -/
theorem Instruction.uncounted_perform (i : Instruction) : Effect.Uncounted i.perform := by
  cases i with
  | moveToRoot | moveOut | pushCommand | reset =>
    intro m cause m' h
    cases h
  | _ => exact Effect.Uncounted.closedInside.perform rfl nofun

/-! ### Straight programs -/

/-- A program of single instructions. -/
def Program.IsStraight (program : Program) : Prop := ∀ i ∈ program, i.isSingle = true

theorem Program.IsStraight.nil : Program.IsStraight [] := List.forall_mem_nil _

theorem Program.IsStraight.cons {i : Instruction} {rest : Program} (hi : i.isSingle = true)
    (h : rest.IsStraight) : Program.IsStraight (i :: rest) :=
  List.forall_mem_cons.2 ⟨hi, h⟩

theorem Program.IsStraight.append {first second : Program} (h : first.IsStraight)
    (h' : second.IsStraight) : (first ++ second).IsStraight := by
  intro i hi
  rcases List.mem_append.1 hi with hi | hi
  · exact h i hi
  · exact h' i hi

theorem Program.IsStraight.not_mem {program : Program} (h : program.IsStraight) (body : Program) :
    .pushCommand body ∉ program := by
  intro hbody
  cases h _ hbody

/-- The end of a run that completes so many instructions, or stops at a ceiling before. -/
def Outcome.Costs (m : Machine) (cost : Nat) : Outcome → Prop
  | .done m' => m'.limits = m.limits ∧ m'.operations = m.operations + cost
  | .failed e _ => e.cause.IsCeiling → m.limits.operations < m.operations + cost

namespace Machine

theorem step_costs {i : Instruction} (hi : i.isSingle = true) (run : Runner) (m : Machine) :
    ∃ o, step run i m = some o ∧ o.Costs m 1 := by
  obtain ⟨log, hannounce⟩ := m.announce_eq i
  refine ⟨_, step_eq_some (Instruction.carryOut_of_isSingle hi run _), ?_⟩
  obtain ⟨hlimits, hoperations, -⟩ := i.perform_accounts (m.announce i)
  rw [hannounce] at hlimits hoperations ⊢
  have hfails := i.uncounted_perform { m with log }
  unfold Outcome.ofEffect
  unfold Effect.left at hlimits hoperations
  cases hr : i.perform.run { m with log } with
  | error cause m' => exact fun hceiling => (hfails cause m' hr hceiling).elim
  | ok _ m' =>
    rw [hr] at hlimits hoperations
    replace hlimits : m'.limits = m.limits := hlimits
    replace hoperations : m'.operations = m.operations := hoperations
    obtain ⟨log', -, hcomplete⟩ := m'.complete_eq i
    show (m'.complete i).Costs m 1
    rw [hcomplete, hlimits, hoperations]
    split
    · exact fun _ => by omega
    · exact ⟨rfl, rfl⟩

theorem run_straight {program : Program} (h : program.IsStraight) (fuel : Nat) (m : Machine) :
    ∃ o, run (fuel + 1) program m = some o ∧ o.Costs m program.length := by
  induction program generalizing m with
  | nil => exact ⟨.done m, rfl, rfl, rfl⟩
  | cons i rest ih =>
    obtain ⟨hi, hrest⟩ := List.forall_mem_cons.1 h
    obtain ⟨o, ho, hcosts⟩ := step_costs hi (run fuel) m
    rw [run, inSequence, ho]
    cases o with
    | failed e m' =>
      refine ⟨_, rfl, fun hceiling => ?_⟩
      have hone := hcosts hceiling
      rw [List.length_cons]
      omega
    | done m' =>
      obtain ⟨hlimits, hoperations⟩ := hcosts
      obtain ⟨o', ho', hcosts'⟩ := ih hrest m'
      refine ⟨o', ho', ?_⟩
      rw [List.length_cons]
      cases o' with
      | failed e m'' =>
        intro hceiling
        have hover := hcosts' hceiling
        rw [hlimits] at hover
        omega
      | done m'' =>
        obtain ⟨hlimits', hoperations'⟩ := hcosts'
        exact ⟨hlimits'.trans hlimits, by omega⟩

end Machine

/-! ### Programs that complete -/

section Completes

variable {α β : Type} {limits : Limits} {fuel : Nat} {program rest : Program} {s : Scene}
  {P P' : Scene → Prop}

/-- On a scene, a program succeeds and leaves a scene of which something holds. -/
def Completes (limits : Limits) (fuel : Nat) (program : Program) (s : Scene) (P : Scene → Prop) :
    Prop :=
  ∀ m, m.At limits s → ∃ m' t, Machine.run fuel program m = some (.done m') ∧ m'.At limits t ∧ P t

/-- A straight program comes to the result that it realizes, if it may complete as many instructions
as it has. -/
theorem Realizes.completes {a : α} {r : Except Fault α} {Q : α → Scene → Prop}
    (h : Realizes limits (fuel + 1) program s r Q) (hr : r = .ok a)
    (hstraight : program.IsStraight)
    (hcost : s.operations + program.length ≤ limits.operations) :
    Completes limits (fuel + 1) program s (Q a) := by
  intro m hm
  obtain ⟨o, ho, hagrees⟩ := h m hm
  obtain ⟨o', ho', hcosts⟩ := Machine.run_straight hstraight fuel m
  cases ho.symm.trans ho'
  rcases hagrees with ⟨hr', hm', hq⟩ | ⟨m', hceiling⟩ | ⟨m', hr', he⟩
  · cases hr.symm.trans hr'
    exact ⟨_, _, ho, hm', hq⟩
  · have hover := hcosts hceiling
    rw [hm.limits, hm.operations] at hover
    omega
  · cases hr.symm.trans hr'

namespace Completes

theorem mono (h : Completes limits fuel program s P) (hp : ∀ t, P t → P' t) :
    Completes limits fuel program s P' := by
  intro m hm
  obtain ⟨m', t, ho, hm', ht⟩ := h m hm
  exact ⟨m', t, ho, hm', hp t ht⟩

theorem nil (hp : P s) : Completes limits (fuel + 1) [] s P := fun m hm => ⟨m, s, rfl, hm, hp⟩

theorem append (h : Completes limits fuel program s P)
    (h' : ∀ t, P t → Completes limits fuel rest t P') :
    Completes limits fuel (program ++ rest) s P' := by
  intro m hm
  obtain ⟨m', t, ho, hm', ht⟩ := h m hm
  cases fuel with
  | zero => cases ho
  | succ fuel =>
    replace ho : inSequence (Machine.step (Machine.run fuel)) program m = some (.done m') := ho
    rw [Machine.run, inSequence_append, ho]
    exact h' t ht m' hm'

theorem cons {i : Instruction} (h : Completes limits fuel [i] s P)
    (h' : ∀ t, P t → Completes limits fuel rest t P') : Completes limits fuel (i :: rest) s P' :=
  h.append h'

end Completes

/-- An instruction that is carried out below the ceiling is completed. -/
theorem completes_of_carryOut {i : Instruction}
    (h : ∀ m : Machine, m.At limits s → ∃ m' t,
      Machine.carryOut (Machine.run fuel) i m = some (.done m') ∧ m'.At limits t ∧ P t ∧
        t.operations < limits.operations) :
    Completes limits (fuel + 1) [i] s fun s' => ∃ t, P t ∧ s' = t.tick := by
  intro m hm
  obtain ⟨m', t, ho, hm', ht, hlt⟩ := h _ (hm.announce i)
  have hconfirm := hm'.confirm i
  have htick : ({ m'.confirm i with operations := (m'.confirm i).operations + 1 } :
      Machine).At limits t.tick :=
    { hconfirm with operations := congrArg (· + 1) hconfirm.operations }
  refine ⟨_, _, ?_, htick, t, ht, rfl⟩
  have hfits : ¬ (m'.confirm i).limits.operations < (m'.confirm i).operations + 1 := by
    rw [hconfirm.limits, hconfirm.operations]
    omega
  rw [Machine.run, inSequence, Machine.step_eq_some ho]
  simp only [Outcome.finish, Machine.complete, if_neg hfits, inSequence]

/-- An instruction that cannot fail, in front of a program. -/
theorem Completes.next {i : Instruction} {s' : Scene} (h : Acts limits i s (.ok s'))
    (hcost : s'.operations < limits.operations)
    (h' : Completes limits (fuel + 1) rest s'.tick P) :
    Completes limits (fuel + 1) (i :: rest) s P := by
  refine Completes.cons (completes_of_carryOut (P := (· = s')) fun m hm => ?_) ?_
  · have hshows := h.2 m hm
    rw [h.1, Outcome.ofEffect]
    generalize i.perform.run m = left at hshows ⊢
    cases hshows with
    | @ok _ m' hm' => exact ⟨m', s', rfl, hm', rfl, hcost⟩
  · rintro _ ⟨_, rfl, rfl⟩
    exact h'

variable {p : Place} {elements values : List Json} {commands : List Program} {operations : Nat}

theorem completes_jumpIfFalse_false {inner : Instruction}
    (h : Completes limits fuel [inner] ⟨p, elements, values, commands, operations⟩ fun t =>
      P t ∧ t.operations < limits.operations) :
    Completes limits (fuel + 1) [.jumpIfFalse inner]
      ⟨p, elements, .bool false :: values, commands, operations⟩ fun s =>
        ∃ t, P t ∧ s = t.tick := by
  refine completes_of_carryOut fun m hm => ?_
  have hpop := Stack.pop_of_items hm.values
  simp only [Machine.carryOut, Machine.jump, Effect.run_takeValue, hpop]
  obtain ⟨m', t, ho, hm', ht, hlt⟩ := h _ (hm.leaveValues values)
  exact ⟨m', t, ho, hm', ht, hlt⟩

theorem completes_jumpIfFalse_true (inner : Instruction) (hcost : operations < limits.operations) :
    Completes limits (fuel + 1) [.jumpIfFalse inner]
      ⟨p, elements, .bool true :: values, commands, operations⟩ fun s =>
        s = ⟨p, elements, values, commands, operations + 1⟩ := by
  refine (completes_of_carryOut (P := (· = ⟨p, elements, values, commands, operations⟩))
    fun m hm => ?_).mono ?_
  · have hpop := Stack.pop_of_items hm.values
    simp only [Machine.carryOut, Machine.jump, Effect.run_takeValue, hpop]
    exact ⟨_, _, rfl, hm.leaveValues values, rfl, hcost⟩
  · rintro _ ⟨_, rfl, rfl⟩
    rfl

/-- **A counting loop completes** if its body completes each step of a fold that succeeds, and its
rounds are within their ceiling. -/
theorem completes_countingLoop {body : Program} {count : Nat} {step : Nat → α → Except Fault α}
    {R : Nat → α → Place → Nat → Prop} {start final : α} (hcount : count ≤ 2 ^ 53)
    (hrounds : count ≤ limits.loopIterations)
    (hfold : (List.range count).foldlM (fun a i => step i a) start = .ok final)
    (hbody : ∀ i a a' s, i < count → step i a = .ok a' →
      HeadScene elements values commands body count R i a s →
      Completes limits fuel body s (HeadScene elements values commands body count R (i + 1) a'))
    (hstart : R 0 start p (operations + 1)) (hpush : operations < limits.operations)
    (hend : ∀ p total, R count final p total → total < limits.operations) :
    Completes limits (fuel + 1) (Move.countingLoop body)
      ⟨p, elements, Json.ofNat 0 :: Json.ofNat count :: values, commands, operations⟩ fun s =>
        ∃ p operations, R count final p operations ∧
          s = ⟨p, elements, Json.ofNat count :: Json.ofNat count :: values, commands,
            operations + 1⟩ := by
  refine .next (acts_pushCommand body) hpush ?_
  have hhead : HeadScene elements values commands body count R 0 start
      ⟨p, elements, Json.ofNat 0 :: Json.ofNat count :: values, body :: commands,
        operations + 1⟩ := ⟨p, _, hstart, rfl⟩
  refine (completes_of_carryOut (P := fun s => ∃ p operations, R count final p operations ∧
    s = ⟨p, elements, Json.ofNat count :: Json.ofNat count :: values, commands, operations⟩)
    fun m hm => ?_).mono ?_
  · obtain rfl := hm.limits
    obtain ⟨o, ho, hends⟩ : ∃ o, Machine.iterate (Machine.run fuel) (.reached 0 1)
        (m.loopLevel + 1) m.limits.loopIterations m.limits.loopIterations m.enterLoop = some o ∧
        o.Ends (fun m' => ∃ a s, (List.range count).foldlM (fun a i => step i a) start = .ok a ∧
          HeadScene elements values commands body count R count a s ∧ m'.At m.limits s)
          fun _ _ => False := by
      refine iterate_ends (H := fun i m' => ∃ a s,
        (List.range i).foldlM (fun a i => step i a) start = .ok a ∧
          HeadScene elements values commands body count R i a s ∧ m'.At m.limits s)
        _ body _ hcount ?_ ?_ ?_ (Nat.zero_le count) (Nat.zero_add _)
        ⟨start, _, rfl, hhead, { hm with }⟩
      · rintro i m' ⟨a, s, -, hs, hm'⟩
        exact hs.head hm'
      · rintro i m₁ hi - ⟨a, s, hbefore, hs, hm₁⟩
        -- The fold succeeds, so its next step does.
        cases hstep : step i a with
        | error fault =>
          cases hfold.symm.trans (foldlM_range_error hbefore hstep hi)
        | ok a' =>
          obtain ⟨m₂, t, hrun, hm₂, ht⟩ := hbody i a a' s hi hstep hs m₁ hm₁
          exact ⟨_, hrun, a', t, foldlM_range_succ hbefore hstep, ht, { hm₂ with }⟩
      · exact fun hover _ => by omega
    cases o with
    | failed e m' => exact hends.elim
    | done m' =>
      obtain ⟨a, s, ha, ⟨p, total, hR, rfl⟩, hm'⟩ := hends
      cases hfold.symm.trans ha
      refine ⟨m'.leaveLoop (m.loopLevel + 1) true,
        ⟨p, elements, Json.ofNat count :: Json.ofNat count :: values, commands, total⟩, ?_,
        { hm' with commands := ?_ }, ⟨p, total, hR, rfl⟩, hend p total hR⟩
      · simp only [Machine.carryOut, Machine.loopUntil, ho, Outcome.map, Outcome.isDone]
      · exact congrArg List.tail hm'.commands
  · rintro _ ⟨t, ⟨p, operations, hR, rfl⟩, rfl⟩
    exact ⟨p, operations, hR, rfl⟩

end Completes

end Reshape
