import Reshape.Proofs.Machine.Step

/-!
# Machines abreast

Two machines with the same cursor and the same stacks do the same with an instruction, unless it
pushes a body, resets the machine, or runs what is on the command stack: they may differ in their
loops, counts, ceilings and reports. A difference may excuse some failures, such as those of a
ceiling that the second machine lifts; behind one that is excused nothing is said of the second
machine.

* `Outcome.Foretells`, what the outcome on the first machine says of the outcome on the second, and
  `Foretells.inSequence`;
* `Effect.InStep`, an effect that does the same on related machines;
* `Machine.Abreast`, what a relation between such machines has to be kept by;
* `Abreast.perform`, single instructions; `Abreast.jump` and `Abreast.mapArray`, given what the
  bodies do; `Abreast.step`.
-/

namespace Reshape

/-- The outcome on a second machine, as the outcome on a first one tells it: the same, on related
machines, unless the first one fails with an excused cause. -/
def Outcome.Foretells (R : Machine → Machine → Prop) (Excused : Failure → Prop) :
    Outcome → Option Outcome → Prop
  | .done m, r => ∃ m', r = some (.done m') ∧ R m m'
  | .failed e m, r => Excused e.cause ∨ ∃ m', r = some (.failed e m') ∧ R m m'

/-- A padding that stays under its ceiling stays under a higher one, and what fails for another
reason fails there too. -/
theorem Cursor.intoIndex_of_le {limit limit' : Nat} (hle : limit ≤ limit') (c : Cursor)
    (position : Nat) :
    (∃ length, c.intoIndex limit position = .error (.padding position length limit)) ∨
      c.intoIndex limit' position = c.intoIndex limit position := by
  unfold Cursor.intoIndex Cursor.modify
  cases c.current? with
  | none => exact .inr rfl
  | some node =>
    cases node with
    | array items =>
      simp only [Cursor.withIndex]
      by_cases hmissing : Cursor.missingItems position items.length = 0
      · exact .inr (by simp only [if_pos hmissing])
      · by_cases hlimit : limit < Cursor.missingItems position items.length
        · exact .inl ⟨items.length, by simp only [if_neg hmissing, if_pos hlimit]; rfl⟩
        · have hlimit' : ¬ limit' < Cursor.missingItems position items.length := by omega
          exact .inr (by simp only [if_neg hmissing, if_neg hlimit, if_neg hlimit'])
    | _ => exact .inr rfl

/-! ### Effects -/

/-- An effect does the same on related machines, unless it fails with an excused cause. -/
def Effect.InStep {α : Type} (R : Machine → Machine → Prop) (Excused : Failure → Prop)
    (e : Effect α) : Prop :=
  ∀ m m', R m m' → match e.run m with
    | .ok a m₁ => ∃ m₁', e.run m' = .ok a m₁' ∧ R m₁ m₁'
    | .error cause m₁ => Excused cause ∨ ∃ m₁', e.run m' = .error cause m₁' ∧ R m₁ m₁'

namespace Effect.InStep

variable {R : Machine → Machine → Prop} {Excused : Failure → Prop} {α β : Type}

theorem bind {e : Effect α} {f : α → Effect β} (he : InStep R Excused e)
    (hf : ∀ a, InStep R Excused (f a)) : InStep R Excused (e >>= f) := by
  intro m m' h
  have hstep := he m m' h
  rw [EStateM.run_bind, EStateM.run_bind]
  cases hr : e.run m with
  | ok a m₁ =>
    rw [hr] at hstep
    obtain ⟨m₁', hr', h₁⟩ := hstep
    rw [hr']
    exact hf a m₁ m₁' h₁
  | error cause m₁ =>
    rw [hr] at hstep
    rcases hstep with hexcused | ⟨m₁', hr', h₁⟩
    · exact .inl hexcused
    · rw [hr']
      exact .inr ⟨m₁', rfl, h₁⟩

theorem pure (a : α) : InStep R Excused (Pure.pure a : Effect α) := fun _ m' h => ⟨m', rfl, h⟩

theorem throw (e : Failure) : InStep R Excused (MonadExcept.throw e : Effect α) :=
  fun _ m' h => .inr ⟨m', rfl, h⟩

theorem lift (x : Except Failure α) : InStep R Excused (Effect.lift x) := by
  cases x
  · exact throw _
  · exact pure _

/-- What is read has to be the same on both machines. -/
theorem read {f : Machine → Except Failure α} {g : α → Effect β}
    (hf : ∀ m m', R m m' → f m' = f m) (hg : ∀ a, InStep R Excused (g a)) :
    InStep R Excused (MonadState.get >>= fun m => Effect.lift (f m) >>= g) := by
  intro m m' h
  have hstep := (lift (f m)).bind hg m m' h
  show match (Effect.lift (f m) >>= g).run m with
    | .ok a m₁ => ∃ m₁', (Effect.lift (f m') >>= g).run m' = .ok a m₁' ∧ R m₁ m₁'
    | .error cause m₁ =>
      Excused cause ∨ ∃ m₁', (Effect.lift (f m') >>= g).run m' = .error cause m₁' ∧ R m₁ m₁'
  rw [hf m m' h]
  exact hstep

end Effect.InStep

namespace Outcome.Foretells

variable {R : Machine → Machine → Prop} {Excused : Failure → Prop}

theorem ofEffect {e : Effect Unit} (he : Effect.InStep R Excused e) {m m' : Machine} (h : R m m') :
    (Outcome.ofEffect e m).Foretells R Excused (some (.ofEffect e m')) := by
  have hstep := he m m' h
  unfold Outcome.ofEffect
  cases hr : e.run m with
  | ok _ m₁ =>
    rw [hr] at hstep
    obtain ⟨m₁', hr', h₁⟩ := hstep
    rw [hr']
    exact ⟨m₁', rfl, h₁⟩
  | error cause m₁ =>
    rw [hr] at hstep
    rcases hstep with hexcused | ⟨m₁', hr', h₁⟩
    · exact .inl hexcused
    · rw [hr']
      exact .inr ⟨m₁', rfl, h₁⟩

theorem bare {m m' : Machine} (h : R m m') (cause : Failure) :
    (Outcome.bare cause m).Foretells R Excused (some (.bare cause m')) :=
  .inr ⟨m', rfl, h⟩

/-- Instructions one after the other do the same on related machines if each of them does. -/
theorem inSequence {step : Instruction → Machine → Option Outcome} {program : Program}
    (hstep : ∀ i ∈ program, ∀ m m' o, R m m' → step i m = some o →
      o.Foretells R Excused (step i m'))
    {m m' : Machine} {o : Outcome} (h : R m m') (ho : Reshape.inSequence step program m = some o) :
    o.Foretells R Excused (Reshape.inSequence step program m') := by
  induction program generalizing m m' with
  | nil =>
    cases ho
    exact ⟨m', rfl, h⟩
  | cons i rest ih =>
    unfold Reshape.inSequence at ho
    cases hi : step i m with
    | none => simp [hi] at ho
    | some first =>
      rw [hi] at ho
      have hfirst := hstep i List.mem_cons_self m m' first h hi
      cases first with
      | done m₁ =>
        obtain ⟨m₁', hi', h₁⟩ := hfirst
        rw [Reshape.inSequence, hi']
        exact ih (fun j hj => hstep j (List.mem_cons_of_mem i hj)) h₁ ho
      | failed e m₁ =>
        cases ho
        rcases hfirst with hexcused | ⟨m₁', hi', h₁⟩
        · exact .inl hexcused
        · rw [Reshape.inSequence, hi']
          exact .inr ⟨m₁', rfl, h₁⟩

/-- Where no failure is excused, the outcome is the same on related machines. -/
theorem exists_same {o : Outcome} {r : Option Outcome}
    (h : o.Foretells R (fun _ => False) r) :
    ∃ o', r = some o' ∧ o'.error? = o.error? ∧ R o.machine o'.machine := by
  cases o with
  | done m =>
    obtain ⟨m', hr, hm⟩ := h
    exact ⟨.done m', hr, rfl, hm⟩
  | failed e m =>
    rcases h with hexcused | ⟨m', hr, hm⟩
    · exact hexcused.elim
    · exact ⟨.failed e m', hr, rfl, hm⟩

end Outcome.Foretells

/-! ### Single instructions -/

namespace Machine

/-- Two machines have the same cursor and the same stacks. -/
def Similar (m m' : Machine) : Prop :=
  ∃ loopLevel loopCounters operations limits trace log,
    m' = { m with loopLevel, loopCounters, operations, limits, trace, log }

theorem Similar.resolve {m m' : Machine} (h : m.Similar m') (operand : Operand) :
    operand.resolve m' = operand.resolve m := by
  obtain ⟨_, _, _, _, _, _, rfl⟩ := h
  cases operand <;> rfl

/-- A relation `R` between similar machines, and what they do with their cursors, stacks of data,
counts, ceilings and logs keeps it. Their machines for items are related by `S`. -/
structure Abreast (Excused : Failure → Prop) (S R : Machine → Machine → Prop) : Prop where
  similar : ∀ {m m'}, R m m' → m.Similar m'
  data : ∀ {m m'}, R m m' → ∀ cursor elements values,
    R { m with cursor, elements, values } { m' with cursor, elements, values }
  record : ∀ {m m'}, R m m' → ∀ event, R (m.record event) (m'.record event)
  announce : ∀ {m m'}, R m m' → ∀ i, R (m.announce i) (m'.announce i)
  complete : ∀ {m m'}, R m m' → ∀ i, (m.complete i).Foretells R Excused (some (m'.complete i))
  padding : ∀ {m m'}, R m m' → m'.limits.arrayPadding = m.limits.arrayPadding ∨
    m.limits.arrayPadding ≤ m'.limits.arrayPadding ∧
      ∀ position length limit, Excused (.paddingLimitExceeded position length limit)
  spawn : ∀ {m m'}, R m m' → ∀ item, S (m.spawn item) (m'.spawn item)
  document : ∀ {sub sub'}, S sub sub' → sub'.document = sub.document
  rejoin : ∀ {m m' sub sub'}, R m m' → S sub sub' →
    R { m with log := sub.log } { m' with log := sub'.log }

end Machine

namespace Machine.Abreast

variable {Excused : Failure → Prop} {S R : Machine → Machine → Prop} (hR : Abreast Excused S R)

include hR

theorem resolve {f : Json → Effect Unit} (operand : Operand)
    (hf : ∀ value, Effect.InStep R Excused (f value)) :
    Effect.InStep R Excused (MonadState.get >>= fun m => Effect.lift (operand.resolve m) >>= f) :=
  .read (fun _ _ h => (hR.similar h).resolve operand) hf

theorem moveCursor (f : Cursor → Except CursorError Cursor) :
    Effect.InStep R Excused (Effect.moveCursor f) := by
  intro m m' h
  obtain ⟨_, _, _, _, _, _, rfl⟩ := hR.similar h
  rw [Effect.run_moveCursor, Effect.run_moveCursor]
  cases f m.cursor with
  | error e => exact .inr ⟨_, rfl, h⟩
  | ok cursor => exact ⟨_, rfl, hR.data h cursor m.elements m.values⟩

theorem write (value : Json) : Effect.InStep R Excused (Effect.write value) := hR.moveCursor _

theorem giveElement (element : Json) : Effect.InStep R Excused (Effect.giveElement element) := by
  intro m m' h
  obtain ⟨_, _, _, _, _, _, rfl⟩ := hR.similar h
  exact ⟨_, rfl, hR.data h m.cursor (m.elements.push element) m.values⟩

theorem giveValue (value : Json) : Effect.InStep R Excused (Effect.giveValue value) := by
  intro m m' h
  obtain ⟨_, _, _, _, _, _, rfl⟩ := hR.similar h
  exact ⟨_, rfl, hR.data h m.cursor m.elements (m.values.push value)⟩

theorem takeElement : Effect.InStep R Excused Effect.takeElement := by
  intro m m' h
  obtain ⟨_, _, _, _, _, _, rfl⟩ := hR.similar h
  rw [Effect.run_takeElement, Effect.run_takeElement]
  cases m.elements.pop with
  | error e => exact .inr ⟨_, rfl, h⟩
  | ok popped => exact ⟨_, rfl, hR.data h m.cursor popped.2 m.values⟩

theorem takeValue : Effect.InStep R Excused Effect.takeValue := by
  intro m m' h
  obtain ⟨_, _, _, _, _, _, rfl⟩ := hR.similar h
  rw [Effect.run_takeValue, Effect.run_takeValue]
  cases m.values.pop with
  | error e => exact .inr ⟨_, rfl, h⟩
  | ok popped => exact ⟨_, rfl, hR.data h m.cursor m.elements popped.2⟩

theorem arrangeElements (f : Stack Json → Except Underflow (Stack Json)) :
    Effect.InStep R Excused (Effect.arrangeElements f) := by
  intro m m' h
  obtain ⟨_, _, _, _, _, _, rfl⟩ := hR.similar h
  rw [Effect.run_arrangeElements, Effect.run_arrangeElements]
  cases f m.elements with
  | error e => exact .inr ⟨_, rfl, h⟩
  | ok elements => exact ⟨_, rfl, hR.data h m.cursor elements m.values⟩

theorem arrangeValues (f : Stack Json → Except Underflow (Stack Json)) :
    Effect.InStep R Excused (Effect.arrangeValues f) := by
  intro m m' h
  obtain ⟨_, _, _, _, _, _, rfl⟩ := hR.similar h
  rw [Effect.run_arrangeValues, Effect.run_arrangeValues]
  cases f m.values with
  | error e => exact .inr ⟨_, rfl, h⟩
  | ok values => exact ⟨_, rfl, hR.data h m.cursor m.elements values⟩

theorem current : Effect.InStep R Excused Effect.current := by
  intro m m' h
  obtain ⟨_, _, _, _, _, _, rfl⟩ := hR.similar h
  rw [Effect.run_current, Effect.run_current]
  cases m.cursor.current with
  | error e => exact .inr ⟨_, rfl, h⟩
  | ok node => exact ⟨_, rfl, h⟩

/-- To move to a position is where the ceiling for padding counts. -/
theorem intoIndex (index : Json) : Effect.InStep R Excused (Effect.intoIndex index) := by
  intro m m' h
  cases hi : index.toIndex? with
  | none =>
    unfold Effect.intoIndex
    rw [hi]
    cases index <;> exact .inr ⟨m', rfl, h⟩
  | some position =>
    rw [Effect.run_intoIndex hi, Effect.run_intoIndex hi]
    have hsame : (∃ length limit, m.cursor.intoIndex m.limits.arrayPadding position =
          .error (.padding position length limit) ∧
          Excused (.paddingLimitExceeded position length limit)) ∨
        m'.cursor.intoIndex m'.limits.arrayPadding position =
          m.cursor.intoIndex m.limits.arrayPadding position := by
      have hcursor : m'.cursor = m.cursor := by
        obtain ⟨_, _, _, _, _, _, rfl⟩ := hR.similar h
        rfl
      rw [hcursor]
      rcases hR.padding h with heq | ⟨hle, hexcused⟩
      · exact .inr (by rw [heq])
      · rcases Cursor.intoIndex_of_le hle m.cursor position with ⟨length, hfailed⟩ | hsame
        · exact .inl ⟨length, _, hfailed, hexcused _ _ _⟩
        · exact .inr hsame
    rcases hsame with ⟨length, limit, hfailed, hexcused⟩ | hsame
    · rw [hfailed]
      exact .inl hexcused
    · rw [hsame]
      obtain ⟨_, _, _, _, _, _, rfl⟩ := hR.similar h
      cases m.cursor.intoIndex m.limits.arrayPadding position with
      | ok cursor => exact ⟨_, rfl, hR.data h cursor m.elements m.values⟩
      | error e => cases e <;> exact .inr ⟨_, rfl, h⟩

theorem closedInside : Effect.ClosedInside (Effect.InStep R Excused) where
  bind := .bind
  pure := .pure
  throw _ := .throw _
  resolve := hR.resolve
  current := hR.current
  takeElement := hR.takeElement
  takeValue := hR.takeValue
  giveElement := hR.giveElement
  giveValue := hR.giveValue
  arrangeElements _ := hR.arrangeElements _
  arrangeValues _ := hR.arrangeValues _
  intoField _ _ := hR.moveCursor _
  intoIndex := hR.intoIndex
  write := hR.write
  delete := hR.moveCursor _

/-- A single instruction that neither pushes a body nor resets the machine does the same on related
machines. -/
theorem perform {i : Instruction} (hpush : ∀ body, i ≠ .pushCommand body) (hreset : i ≠ .reset) :
    Effect.InStep R Excused i.perform := by
  cases i with
  | moveToRoot =>
    intro m m' h
    obtain ⟨_, _, _, _, _, _, rfl⟩ := hR.similar h
    exact ⟨_, rfl, hR.data h m.cursor.toRoot m.elements m.values⟩
  | moveOut =>
    intro m m' h
    obtain ⟨_, _, _, _, _, _, rfl⟩ := hR.similar h
    exact ⟨_, rfl, hR.data h m.cursor.moveOut m.elements m.values⟩
  | reset => exact (hreset rfl).elim
  | _ => exact hR.closedInside.perform rfl fun body hbody => (hpush body hbody).elim

/-! ### Instructions that run bodies -/

variable {r : Runner} {m m' : Machine} {o : Outcome} {i : Instruction}

theorem jump {expected : Bool} {inner : Instruction}
    (hinner : ∀ m m' o, R m m' → r [inner] m = some o → o.Foretells R Excused (r [inner] m'))
    (h : R m m') (ho : m.jump r expected inner = some o) :
    o.Foretells R Excused (m'.jump r expected inner) := by
  have htaken := hR.takeValue m m' h
  unfold Machine.jump at ho ⊢
  cases hv : Effect.takeValue.run m with
  | error cause m₁ =>
    rw [hv] at ho htaken
    cases ho
    rcases htaken with hexcused | ⟨m₁', hv', h₁⟩
    · exact .inl hexcused
    · rw [hv']
      exact Outcome.Foretells.bare h₁ cause
  | ok value m₁ =>
    rw [hv] at ho htaken
    obtain ⟨m₁', hv', h₁⟩ := htaken
    rw [hv']
    simp only at ho ⊢
    split at ho
    · rename_i hexpected
      rw [if_pos hexpected]
      exact hinner m₁ m₁' o h₁ ho
    · rename_i hexpected
      rw [if_neg hexpected]
      cases ho
      exact ⟨m₁', rfl, h₁⟩

theorem mapItems {run : Machine → Option Outcome}
    (hrun : ∀ m m' o, S m m' → run m = some o → o.Foretells S Excused (run m')) {items : List Json}
    {index : Nat} {m₁ : Machine} {result : Except MachineError (List Json)} (h : R m m')
    (ho : Machine.mapItems run m index items = some (m₁, result)) :
    (∃ e, result = .error e ∧ Excused e.cause) ∨
      ∃ m₁', Machine.mapItems run m' index items = some (m₁', result) ∧ R m₁ m₁' := by
  induction items generalizing m m' m₁ index result with
  | nil =>
    cases ho
    exact .inr ⟨m', rfl, h⟩
  | cons item rest ih =>
    have hpath : m'.cursor.path = m.cursor.path := by
      obtain ⟨_, _, _, _, _, _, rfl⟩ := hR.similar h
      rfl
    unfold Machine.mapItems at ho ⊢
    simp only at ho ⊢
    rw [hpath]
    have hreported := hR.record h (.subMachine index m.cursor.path)
    cases hitem : run ((m.record (.subMachine index m.cursor.path)).spawn item) with
    | none => simp [hitem] at ho
    | some first =>
      rw [hitem] at ho
      have hfirst := hrun _ _ first (hR.spawn hreported item) hitem
      cases first with
      | failed e sub =>
        cases ho
        rcases hfirst with hexcused | ⟨sub', hitem', hsub⟩
        · exact .inl ⟨e, rfl, hexcused⟩
        · rw [hitem']
          exact .inr ⟨_, rfl, hR.rejoin hreported hsub⟩
      | done sub =>
        obtain ⟨sub', hitem', hsub⟩ := hfirst
        simp only [hitem', hR.document hsub] at ho ⊢
        cases hrest : Machine.mapItems run
            { m.record (.subMachine index m.cursor.path) with log := sub.log } (index + 1) rest with
        | none => simp [hrest] at ho
        | some mapped =>
          obtain ⟨m₂, result₂⟩ := mapped
          rw [hrest] at ho
          rcases ih (hR.rejoin hreported hsub) hrest with ⟨e, rfl, hexcused⟩ | ⟨m₂', hrest', h₂⟩
          · cases ho
            exact .inl ⟨e, rfl, hexcused⟩
          · rw [hrest']
            cases result₂ <;> cases ho <;> exact .inr ⟨m₂', rfl, h₂⟩

theorem mapArray {body : Program}
    (hbody : ∀ m m' o, S m m' → r body m = some o → o.Foretells S Excused (r body m'))
    (h : R m m')
    (ho : m.mapArray r body = some o) : o.Foretells R Excused (m'.mapArray r body) := by
  have hread := hR.closedInside.currentItems "MapArray" m m' h
  unfold Machine.mapArray at ho ⊢
  cases hc : (Effect.currentItems "MapArray").run m with
  | error cause m₁ =>
    rw [hc] at ho hread
    cases ho
    rcases hread with hexcused | ⟨m₁', hc', h₁⟩
    · exact .inl hexcused
    · rw [hc']
      exact Outcome.Foretells.bare h₁ cause
  | ok items m₁ =>
    rw [hc] at ho hread
    obtain ⟨m₁', hc', h₁⟩ := hread
    rw [hc']
    simp only at ho ⊢
    cases hmapped : Machine.mapItems (r body) m₁ 0 items with
    | none => simp [hmapped] at ho
    | some mapped =>
      obtain ⟨m₂, result⟩ := mapped
      rw [hmapped] at ho
      rcases hR.mapItems hbody h₁ hmapped with
        ⟨e, rfl, hexcused⟩ | ⟨m₂', hmapped', h₂⟩
      · cases ho
        exact .inl hexcused
      · rw [hmapped']
        cases result with
        | error e =>
          cases ho
          exact .inr ⟨m₂', rfl, h₂⟩
        | ok mapped =>
          cases ho
          exact Outcome.Foretells.ofEffect (hR.write (.array mapped)) h₂

/-- What an instruction does on related machines, it does between its report and its count. -/
theorem step (hcarry : ∀ m m' o, R m m' → m.carryOut r i = some o →
      o.Foretells R Excused (m'.carryOut r i))
    (h : R m m') (ho : Machine.step r i m = some o) :
    o.Foretells R Excused (Machine.step r i m') := by
  rw [step_eq] at ho ⊢
  obtain ⟨carried, hcarried, rfl⟩ := Option.map_eq_some_iff.1 ho
  have hcarry := hcarry _ _ carried (hR.announce h i) hcarried
  cases carried with
  | done m₁ =>
    obtain ⟨m₁', hcarried', h₁⟩ := hcarry
    rw [hcarried']
    exact hR.complete h₁ i
  | failed e m₁ =>
    rcases hcarry with hexcused | ⟨m₁', hcarried', h₁⟩
    · exact .inl hexcused
    · rw [hcarried']
      obtain ⟨_, _, _, _, _, _, rfl⟩ := hR.similar h₁
      exact .inr ⟨_, rfl, h₁⟩

end Machine.Abreast

end Reshape
