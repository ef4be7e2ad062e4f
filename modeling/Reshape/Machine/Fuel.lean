import Reshape.Machine.Run

/-!
# Fuel

A run that has ended has the same outcome with any more fuel.

* `Runner.Refines`: one way of running programs gives every outcome that another one gives;
* `Refines.step` and the lemmas before it: running bodies in a refined way refines each
  instruction;
* `run_mono`, and `run_eq_of_run`: two runs that end, end alike, whatever their fuel.
-/

namespace Reshape

/-- Every outcome of `r` is an outcome of `s`. -/
def Runner.Refines (r s : Runner) : Prop :=
  ∀ program m outcome, r program m = some outcome → s program m = some outcome

namespace Runner.Refines

variable {r s : Runner}

theorem inSequence {f g : Instruction → Machine → Option Outcome}
    (h : ∀ i m o, f i m = some o → g i m = some o) :
    Refines (Reshape.inSequence f) (Reshape.inSequence g) := by
  intro program
  induction program with
  | nil => exact fun m o ho => ho
  | cons i rest ih =>
    intro m o ho
    unfold Reshape.inSequence at ho ⊢
    cases hf : f i m with
    | none => simp [hf] at ho
    | some out =>
      rw [hf] at ho
      rw [h i m out hf]
      cases out with
      | done m' => exact ih m' o ho
      | failed e m' => exact ho

theorem runCommand (h : Refines r s) {m : Machine} {o : Outcome}
    (ho : m.runCommand r = some o) : m.runCommand s = some o := by
  unfold Machine.runCommand at ho ⊢
  split at ho
  · rename_i hp
    exact h _ _ _ ho
  · rename_i hp
    exact ho

theorem iterate (h : Refines r s) (condition : StopCondition) (level limit : Nat) :
    ∀ (remaining : Nat) (m : Machine) (o : Outcome),
      Machine.iterate r condition level limit remaining m = some o →
      Machine.iterate s condition level limit remaining m = some o := by
  intro remaining
  induction remaining with
  | zero =>
    intro m o ho
    unfold Machine.iterate at ho ⊢
    exact ho
  | succ remaining ih =>
    intro m o ho
    unfold Machine.iterate at ho ⊢
    cases hc : condition.isMet m with
    | error cause => simpa [hc] using ho
    | ok met =>
      cases met with
      | true => simpa [hc] using ho
      | false =>
        simp only [hc] at ho ⊢
        cases hr : m.runCommand r with
        | none => simp [hr] at ho
        | some out =>
          rw [h.runCommand hr]
          rw [hr] at ho
          cases out with
          | done m' => exact ih _ _ ho
          | failed e m' => exact ho

theorem loopUntil (h : Refines r s) {condition : StopCondition} {m : Machine} {o : Outcome}
    (ho : m.loopUntil r condition = some o) : m.loopUntil s condition = some o := by
  unfold Machine.loopUntil at ho ⊢
  cases hi : Machine.iterate r condition (m.loopLevel + 1) m.limits.loopIterations
      m.limits.loopIterations m.enterLoop with
  | none => simp [hi] at ho
  | some out =>
    simp only [hi, h.iterate condition _ _ _ _ _ hi] at ho ⊢
    exact ho

theorem jump (h : Refines r s) {expected : Bool} {inner : Instruction} {m : Machine} {o : Outcome}
    (ho : m.jump r expected inner = some o) : m.jump s expected inner = some o := by
  unfold Machine.jump at ho ⊢
  split at ho
  · exact ho
  · split at ho
    · rename_i ht
      rw [if_pos ht]
      exact h _ _ _ ho
    · rename_i ht
      rw [if_neg ht]
      exact ho

theorem mapItems {f g : Machine → Option Outcome} (h : ∀ m o, f m = some o → g m = some o)
    (items : List Json) :
    ∀ (m : Machine) (index : Nat) (result : Machine × Except MachineError (List Json)),
      Machine.mapItems f m index items = some result →
      Machine.mapItems g m index items = some result := by
  induction items with
  | nil => exact fun m index result hr => hr
  | cons item rest ih =>
    intro m index result hr
    unfold Machine.mapItems at hr ⊢
    simp only at hr ⊢
    cases hf : f ((m.record (.subMachine index m.cursor.path)).spawn item) with
    | none => simp [hf] at hr
    | some out =>
      simp only [hf, h _ _ hf] at hr ⊢
      cases out with
      | failed e sub => exact hr
      | done sub =>
        simp only at hr ⊢
        cases hm : Machine.mapItems f
            { m.record (.subMachine index m.cursor.path) with log := sub.log } (index + 1) rest with
        | none => simp [hm] at hr
        | some mapped =>
          rw [ih _ _ _ hm]
          rw [hm] at hr
          exact hr

theorem mapArray (h : Refines r s) {body : Program} {m : Machine} {o : Outcome}
    (ho : m.mapArray r body = some o) : m.mapArray s body = some o := by
  unfold Machine.mapArray at ho ⊢
  split at ho
  · exact ho
  · rename_i items m' hc
    cases hm : Machine.mapItems (r body) m' 0 items with
    | none => simp [hm] at ho
    | some mapped =>
      simp only [hm, mapItems (h body) items _ _ _ hm] at ho ⊢
      exact ho

theorem carryOut (h : Refines r s) {i : Instruction} {m : Machine} {o : Outcome}
    (ho : m.carryOut r i = some o) : m.carryOut s i = some o := by
  cases i with
  | popCommand => exact h.runCommand ho
  | loopUntil condition => exact h.loopUntil ho
  | jumpIfTrue inner => exact h.jump ho
  | jumpIfFalse inner => exact h.jump ho
  | mapArray body => exact h.mapArray ho
  | _ => exact ho

theorem step (h : Refines r s) {i : Instruction} {m : Machine} {o : Outcome}
    (ho : Machine.step r i m = some o) : Machine.step s i m = some o := by
  unfold Machine.step at ho ⊢
  cases hc : (m.announce i).carryOut r i with
  | none => simp [hc] at ho
  | some out =>
    rw [h.carryOut hc]
    rw [hc] at ho
    exact ho

end Runner.Refines

namespace Machine

theorem run_succ_refines (fuel : Nat) : Runner.Refines (run fuel) (run (fuel + 1)) := by
  induction fuel with
  | zero => intro program m o ho; simp [run] at ho
  | succ fuel ih => exact Runner.Refines.inSequence fun i m o ho => ih.step ho

/-- More fuel keeps the outcome. -/
theorem run_mono {fuel more : Nat} (hle : fuel ≤ more) {program : Program} {m : Machine}
    {o : Outcome} (h : run fuel program m = some o) : run more program m = some o := by
  induction hle with
  | refl => exact h
  | step _ ih => exact run_succ_refines _ _ _ _ ih

/-- Two runs that end, end alike. -/
theorem run_eq_of_run {fuel more : Nat} {program : Program} {m : Machine} {o o' : Outcome}
    (h : run fuel program m = some o) (h' : run more program m = some o') : o = o' := by
  rcases Nat.le_total fuel more with hle | hle
  · exact Option.some.inj ((run_mono hle h).symm.trans h')
  · exact Option.some.inj (h.symm.trans (run_mono hle h'))

end Machine

end Reshape
