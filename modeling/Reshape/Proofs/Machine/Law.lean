import Reshape.Proofs.Machine.Step
import Reshape.Proofs.Machine.Visits

/-!
# Laws of runs

A law relates a machine to the end of a run that starts on it. If every part of a run keeps to it,
whatever the program does with its bodies and loops, then every run does.

* `Outcome.RunLaw`, what the parts of a run have to keep to, each instruction taken with its reports
  and its count;
* `Outcome.Law`, of which the reports and the count are parts of their own;
* `RunLaw.run`, for programs that end, by induction on the fuel;
* `RunLaw.loopHead` and `RunLaw.calls`, for the machines on the way.
-/

namespace Reshape

open Machine

/-- A relation between a machine and the end of a run that every part of a run keeps to. Between the
report that an instruction starts and the one that it has not failed, the machine need not. -/
structure Outcome.RunLaw (R : Machine → Outcome → Prop) : Prop where
  refl (m : Machine) : R m (.done m)
  bare (m : Machine) (cause : Failure) : R m (.bare cause m)
  trans {m m' : Machine} {o : Outcome} (h : R m (.done m')) (ho : R m' o) : R m o
  perform (i : Instruction) (m : Machine) : R m (.ofEffect i.perform m)
  around {m : Machine} {carried : Outcome} (i : Instruction) (h : R (m.announce i) carried) :
    R m (carried.finish i)
  setCounter (m : Machine) (level count : Nat) : R m (.done (m.setCounter level count))
  loop {m : Machine} {o : Outcome} (h : R m.enterLoop o) :
    R m (o.map (leaveLoop (m.loopLevel + 1) o.isDone))
  item {m : Machine} {index : Nat} {item : Json} {o : Outcome}
    (h : R ((m.record (.subMachine index m.cursor.path)).spawn item) o) :
    R m (o.map fun sub => { m.record (.subMachine index m.cursor.path) with log := sub.log })

/-- A law that the reports and the count of an instruction keep to one by one. -/
structure Outcome.Law (R : Machine → Outcome → Prop) : Prop extends Outcome.RunLaw R where
  announce (m : Machine) (i : Instruction) : R m (.done (m.announce i))
  complete (m : Machine) (i : Instruction) : R m (m.complete i)
  fail {m m' : Machine} {e : MachineError} (i : Instruction) (h : R m (.failed e m')) :
    R m (m'.fail i e)
  around {m carried} i h :=
    match carried, trans (announce m i) h with
    | .done m', hcarry => trans hcarry (complete m' i)
    | .failed _ _, hcarry => fail i hcarry

/-- A way of running programs keeps to a law. -/
def Runner.Obeys (R : Machine → Outcome → Prop) (run : Runner) : Prop :=
  ∀ program m o, run program m = some o → R m o

namespace Outcome.RunLaw

variable {R : Machine → Outcome → Prop} (hR : Outcome.RunLaw R) {r : Runner} {m m' : Machine}
  {o : Outcome} {i : Instruction}

include hR

theorem inSequence {step : Instruction → Machine → Option Outcome}
    (h : ∀ i m o, step i m = some o → R m o) : Runner.Obeys R (Reshape.inSequence step) := by
  intro program
  induction program with
  | nil =>
    intro m o ho
    cases ho
    exact hR.refl m
  | cons i rest ih =>
    intro m o ho
    unfold Reshape.inSequence at ho
    split at ho
    · rename_i m₁ hstep
      exact hR.trans (h i m _ hstep) (ih m₁ o ho)
    · exact h i m o ho

theorem runCommand (h : r.Obeys R) (ho : m.runCommand r = some o) : R m o := by
  unfold Machine.runCommand at ho
  split at ho
  · exact h _ m o ho
  · cases ho
    exact hR.bare m _

theorem iterate (h : r.Obeys R) {condition : StopCondition} {level limit remaining : Nat}
    (ho : Machine.iterate r condition level limit remaining m = some o) : R m o := by
  induction remaining generalizing m with
  | zero =>
    unfold Machine.iterate at ho
    split at ho <;> cases ho
    · exact hR.bare m _
    · exact hR.refl m
    · exact hR.bare m _
  | succ remaining ih =>
    unfold Machine.iterate at ho
    split at ho
    · cases ho
      exact hR.bare m _
    · cases ho
      exact hR.refl m
    · simp only at ho
      split at ho
      · rename_i m₁ hround
        exact hR.trans (hR.trans (hR.runCommand h hround) (hR.setCounter m₁ _ _)) (ih ho)
      · exact hR.runCommand h ho

theorem loopUntil (h : r.Obeys R) {condition : StopCondition}
    (ho : m.loopUntil r condition = some o) : R m o := by
  unfold Machine.loopUntil at ho
  simp only at ho
  split at ho
  · rename_i hrounds
    cases ho
    exact hR.loop (hR.iterate h hrounds)
  · cases ho

/-- To take a value is what one of the single instructions does. -/
theorem takeValue {value : Json} (h : Effect.takeValue.run m = .ok value m') :
    R m (.done m') := by
  have hperform := hR.perform .popValue m
  have hrun : Instruction.popValue.perform.run m = .ok () m' := by
    rw [Instruction.perform, Effect.run_bind_of_ok h]
    rfl
  rwa [ofEffect, hrun] at hperform

theorem jump (h : r.Obeys R) {expected : Bool} {inner : Instruction}
    (ho : m.jump r expected inner = some o) : R m o := by
  unfold Machine.jump at ho
  split at ho
  · rename_i cause m₁ hfailed
    rw [Effect.run_takeValue] at hfailed
    split at hfailed <;> cases hfailed
    cases ho
    exact hR.bare m _
  · rename_i value m₁ htaken
    have htake := hR.takeValue htaken
    split at ho
    · exact hR.trans htake (h _ m₁ o ho)
    · cases ho
      exact htake

theorem mapItems {run : Machine → Option Outcome} (h : ∀ m o, run m = some o → R m o)
    {items : List Json} {index : Nat} {result : Except MachineError (List Json)}
    (ho : Machine.mapItems run m index items = some (m', result)) :
    match result with
    | .ok _ => R m (.done m')
    | .error e => R m (.failed e m') := by
  induction items generalizing m index result with
  | nil =>
    cases ho
    exact hR.refl _
  | cons item rest ih =>
    unfold Machine.mapItems at ho
    simp only at ho
    split at ho
    · cases ho
    · rename_i e sub hsub
      cases ho
      exact hR.item (h _ _ hsub)
    · rename_i sub hsub
      have hitem := hR.item (h _ _ hsub)
      split at ho
      · rename_i hrest
        cases ho
        exact hR.trans hitem (ih hrest)
      · have hrest := ih ho
        cases result with
        | ok mapped => exact hR.trans hitem hrest
        | error e => exact hR.trans hitem hrest

theorem mapArray (h : r.Obeys R) {body : Program} (ho : m.mapArray r body = some o) :
    R m o := by
  unfold Machine.mapArray at ho
  rcases run_currentItems "MapArray" m with ⟨items, hitems⟩ | ⟨cause, hcause⟩
  · rw [hitems] at ho
    simp only at ho
    split at ho
    · cases ho
    · rename_i hmapped
      cases ho
      exact hR.mapItems (h body) hmapped
    · rename_i mapped hmapped
      cases ho
      exact hR.trans (hR.mapItems (h body) hmapped) (hR.perform (.storeElement (.array mapped)) _)
  · rw [hcause] at ho
    cases ho
    exact hR.bare m _

theorem carryOut (h : r.Obeys R) (ho : m.carryOut r i = some o) : R m o := by
  unfold Machine.carryOut at ho
  split at ho
  · exact hR.runCommand h ho
  · exact hR.loopUntil h ho
  · exact hR.jump h ho
  · exact hR.jump h ho
  · exact hR.mapArray h ho
  · cases ho
    exact hR.perform i m

theorem step (h : r.Obeys R) (ho : Machine.step r i m = some o) : R m o := by
  rw [step_eq] at ho
  obtain ⟨carried, hcarried, rfl⟩ := Option.map_eq_some_iff.1 ho
  exact hR.around i (hR.carryOut h hcarried)

/-- **Every run keeps to a law.** -/
theorem run (fuel : Nat) : (Machine.run fuel).Obeys R := by
  induction fuel with
  | zero => intro program m o ho; cases ho
  | succ fuel ih => exact hR.inSequence fun i m o => hR.step ih

/-! ### On the way -/

theorem loopHead {condition : StopCondition} {level limit rounds : Nat} {start : Machine}
    (h : LoopHead condition level limit start rounds m) : R start (.done m) := by
  induction h with
  | zero => exact hR.refl start
  | succ _ _ _ hround ih =>
    exact hR.trans ih (hR.trans (hR.runCommand (hR.run _) hround) (hR.setCounter _ _ _))

/-- A body starts on a machine that the law leads to, inside a loop that has been entered, or on a
fresh machine for an item. -/
theorem calls {body : Program} (h : Calls i m body m') :
    R m (.done m') ∨ R m.enterLoop (.done m') ∨
      ∃ (m₁ : Machine) (index : Nat) (item : Json), R m (.done m₁) ∧
        m' = (m₁.record (.subMachine index m₁.cursor.path)).spawn item := by
  cases h with
  | command _ => exact .inl (hR.refl m)
  | loop hhead _ _ _ => exact .inr (.inl (hR.loopHead hhead))
  | jumpIfTrue hvalue _ => exact .inl (hR.takeValue hvalue)
  | jumpIfFalse hvalue _ => exact .inl (hR.takeValue hvalue)
  | item _ hbefore => exact .inr (.inr ⟨_, _, _, hR.mapItems (hR.run _ _) hbefore, rfl⟩)

end Outcome.RunLaw

end Reshape
