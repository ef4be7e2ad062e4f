import Reshape.Proofs.Machine.Lockstep

/-!
# Runs that end together

Two machines run a program in step, so a run on the first one that ends tells how the run on the
second one does. That leaves open whether the first one comes to an end when the second one does. It
does: as long as the first one goes on, the second one goes on in step.

* `Runner.EndsWith`, of a way of running programs;
* `Lockstep.exists_iterate`, `Lockstep.exists_mapItems` and the lemmas beside them, for the
  instructions that run bodies;
* `Lockstep.exists_run`, by induction on the fuel, for programs.
-/

namespace Reshape

open Machine

/-- A first part and, unless it fails, what comes behind it. -/
def Outcome.andThen (rest : Machine → Option Outcome) : Option Outcome → Option Outcome
  | some (.done m) => rest m
  | other => other

/-- A program that ends on the second of two related machines ends on the first one. -/
def Runner.EndsWith (allowed : StopCondition → Prop) (R : Machine → Machine → Prop)
    (r : Runner) : Prop :=
  ∀ program m m' o', Program.EveryCondition allowed program → R m m' → r program m' = some o' →
    ∃ o, r program m = some o

namespace Machine.Lockstep

variable {allowed : StopCondition → Prop} {Excused : Failure → Prop}
  {R : Machine → Machine → Prop} (hR : Lockstep allowed Excused R) {r : Runner} {m m' : Machine}
  {o' : Outcome} {i : Instruction}

/-- What goes on behind a first part goes on behind it on both machines, if it goes on at all. -/
theorem exists_andThen {first first' : Option Outcome} {rest rest' : Machine → Option Outcome}
    (hends : ∀ o', first' = some o' → ∃ o, first = some o)
    (hforetells : ∀ o, first = some o → o.Foretells R Excused first')
    (hrest : ∀ m m' o', R m m' → rest' m' = some o' → ∃ o, rest m = some o)
    (ho' : Outcome.andThen rest' first' = some o') :
    ∃ o, Outcome.andThen rest first = some o := by
  obtain ⟨o₁, ho₁⟩ : ∃ o, first = some o := by
    cases first' with
    | none => cases ho'
    | some o₁' => exact hends o₁' rfl
  have htold := hforetells o₁ ho₁
  rw [ho₁]
  cases o₁ with
  | failed e m₁ => exact ⟨_, rfl⟩
  | done m₁ =>
    obtain ⟨m₁', hfirst', h₁⟩ := htold
    rw [hfirst'] at ho'
    exact hrest m₁ m₁' o' h₁ ho'

include hR

theorem exists_runCommand (hends : r.EndsWith allowed R) (h : R m m')
    (ho' : m'.runCommand r = some o') : ∃ o, m.runCommand r = some o := by
  have hbodies := hR.bodies h
  obtain ⟨_, _, _, _, rfl⟩ := hR.alike h
  unfold Machine.runCommand at ho' ⊢
  simp only at ho' ⊢
  cases hp : m.commands.peek with
  | error e => exact ⟨_, rfl⟩
  | ok body =>
    simp only [hp] at ho' ⊢
    exact hends body m _ o' (hbodies body (Stack.mem_of_peek hp)) h ho'

/-- The rounds of a loop, of which the second machine may have more left. -/
theorem exists_iterate (hends : r.EndsWith allowed R) (hr : r.InStep allowed Excused R)
    {condition : StopCondition} (hallowed : allowed condition)
    {level limit limit' remaining remaining' : Nat} (hlimits : limit ≤ limit')
    (hremaining : remaining ≤ limit) (hrounds : limit + remaining' = limit' + remaining)
    (h : R m m') (ho' : Machine.iterate r condition level limit' remaining' m' = some o') :
    ∃ o, Machine.iterate r condition level limit remaining m = some o := by
  induction remaining generalizing m m' remaining' o' with
  | zero =>
    unfold Machine.iterate
    cases condition.isMet m with
    | error cause => exact ⟨_, rfl⟩
    | ok met => cases met <;> exact ⟨_, rfl⟩
  | succ remaining ih =>
    obtain ⟨further, rfl⟩ : ∃ further, remaining' = further + 1 := ⟨remaining' - 1, by omega⟩
    unfold Machine.iterate at ho' ⊢
    rw [hR.isMet h hallowed] at ho'
    cases hmet : condition.isMet m with
    | error cause => exact ⟨_, rfl⟩
    | ok met =>
      cases met with
      | true => exact ⟨_, rfl⟩
      | false =>
        simp only [hmet] at ho' ⊢
        -- Both have had as many rounds, whatever their ceilings, so they set the same counter.
        have hcount : limit' - further = limit - remaining := by omega
        rw [hcount] at ho'
        have hrounds' : limit + further = limit' + remaining := by omega
        refine exists_andThen (fun _ => hR.exists_runCommand hends h)
          (fun _ => hR.runCommand hr h) (fun m₁ m₁' o' h₁ ho' => ?_) ho'
        exact ih (by omega) hrounds' (hR.setCounter h₁ level _) ho'

theorem exists_loopUntil (hends : r.EndsWith allowed R) (hr : r.InStep allowed Excused R)
    {condition : StopCondition} (hallowed : allowed condition) (h : R m m')
    (ho' : m'.loopUntil r condition = some o') : ∃ o, m.loopUntil r condition = some o := by
  have hlevel : m'.loopLevel = m.loopLevel := by
    obtain ⟨_, _, _, _, rfl⟩ := hR.alike h
    rfl
  have hlimits : m.limits.loopIterations ≤ m'.limits.loopIterations := by
    rcases hR.rounds h with hsame | ⟨hle, -⟩
    · exact Nat.le_of_eq hsame.symm
    · exact hle
  unfold Machine.loopUntil at ho' ⊢
  simp only at ho' ⊢
  rw [hlevel] at ho'
  cases hrounds' : Machine.iterate r condition (m.loopLevel + 1) m'.limits.loopIterations
      m'.limits.loopIterations m'.enterLoop with
  | none => simp [hrounds'] at ho'
  | some rounds' =>
    obtain ⟨rounds, hrounds⟩ := hR.exists_iterate hends hr hallowed hlimits (Nat.le_refl _)
      (Nat.add_comm _ _) (hR.enterLoop h) hrounds'
    rw [hrounds]
    exact ⟨_, rfl⟩

theorem exists_jump {expected : Bool} {inner : Instruction} (hinner : inner.EveryCondition allowed)
    (hends : r.EndsWith allowed R) (h : R m m') (ho' : m'.jump r expected inner = some o') :
    ∃ o, m.jump r expected inner = some o := by
  have htaken := hR.abreast.takeValue m m' h
  unfold Machine.jump at ho' ⊢
  cases hv : Effect.takeValue.run m with
  | error cause m₁ => exact ⟨_, rfl⟩
  | ok value m₁ =>
    rw [hv] at htaken
    obtain ⟨m₁', hv', h₁⟩ := htaken
    rw [hv'] at ho'
    simp only at ho' ⊢
    split at ho'
    next hexpected =>
      rw [if_pos hexpected]
      exact hends [inner] m₁ m₁' o' ⟨hinner, trivial⟩ h₁ ho'
    next hexpected =>
      rw [if_neg hexpected]
      exact ⟨_, rfl⟩

theorem exists_mapItems {body : Program} (hbody : Program.EveryCondition allowed body)
    (hends : r.EndsWith allowed R) (hr : r.InStep allowed Excused R) {items : List Json}
    {index : Nat} {result' : Machine × Except MachineError (List Json)} (h : R m m')
    (ho' : Machine.mapItems (r body) m' index items = some result') :
    ∃ result, Machine.mapItems (r body) m index items = some result := by
  induction items generalizing m m' index result' with
  | nil => exact ⟨_, rfl⟩
  | cons item rest ih =>
    have hpath : m'.cursor.path = m.cursor.path := by
      obtain ⟨_, _, _, _, rfl⟩ := hR.alike h
      rfl
    unfold Machine.mapItems at ho' ⊢
    simp only at ho' ⊢
    rw [hpath] at ho'
    have hreported := hR.record h (.subMachine index m.cursor.path)
    have hspawned := hR.spawn hreported item
    obtain ⟨o, ho⟩ : ∃ o, r body ((m.record (.subMachine index m.cursor.path)).spawn item) =
        some o := by
      cases hitem' : r body ((m'.record (.subMachine index m.cursor.path)).spawn item) with
      | none => simp [hitem'] at ho'
      | some first' => exact hends body _ _ first' hbody hspawned hitem'
    have hfirst := hr body _ _ o hbody hspawned ho
    rw [ho]
    cases o with
    | failed e sub => exact ⟨_, rfl⟩
    | done sub =>
      obtain ⟨sub', hitem', hsub⟩ := hfirst
      simp only [hitem'] at ho' ⊢
      cases hrest' : Machine.mapItems (r body)
          { m'.record (.subMachine index m.cursor.path) with log := sub'.log } (index + 1) rest with
      | none => simp [hrest'] at ho'
      | some mapped' =>
        obtain ⟨⟨m₂, mapped⟩, hrest⟩ := ih (hR.rejoin hreported hsub) hrest'
        rw [hrest]
        cases mapped <;> exact ⟨_, rfl⟩

theorem exists_mapArray {body : Program} (hbody : Program.EveryCondition allowed body)
    (hends : r.EndsWith allowed R) (hr : r.InStep allowed Excused R) (h : R m m')
    (ho' : m'.mapArray r body = some o') : ∃ o, m.mapArray r body = some o := by
  have hread := hR.abreast.closedInside.currentItems "MapArray" m m' h
  unfold Machine.mapArray at ho' ⊢
  cases hc : (Effect.currentItems "MapArray").run m with
  | error cause m₁ => exact ⟨_, rfl⟩
  | ok items m₁ =>
    rw [hc] at hread
    obtain ⟨m₁', hc', h₁⟩ := hread
    simp only [hc'] at ho' ⊢
    cases hmapped' : Machine.mapItems (r body) m₁' 0 items with
    | none => simp [hmapped'] at ho'
    | some mapped' =>
      obtain ⟨⟨m₂, mapped⟩, hmapped⟩ := hR.exists_mapItems hbody hends hr h₁ hmapped'
      rw [hmapped]
      cases mapped <;> exact ⟨_, rfl⟩

theorem exists_carryOut (hends : r.EndsWith allowed R) (hr : r.InStep allowed Excused R)
    (hi : i.EveryCondition allowed) (h : R m m') (ho' : m'.carryOut r i = some o') :
    ∃ o, m.carryOut r i = some o := by
  cases i with
  | popCommand => exact hR.exists_runCommand hends h ho'
  | loopUntil condition => exact hR.exists_loopUntil hends hr hi h ho'
  | jumpIfTrue inner => exact hR.exists_jump hi hends h ho'
  | jumpIfFalse inner => exact hR.exists_jump hi hends h ho'
  | mapArray body => exact hR.exists_mapArray hi hends hr h ho'
  | _ => exact ⟨_, rfl⟩

theorem exists_step (hends : r.EndsWith allowed R) (hr : r.InStep allowed Excused R)
    (hi : i.EveryCondition allowed) (h : R m m') (ho' : Machine.step r i m' = some o') :
    ∃ o, Machine.step r i m = some o := by
  rw [step_eq] at ho'
  obtain ⟨carried', hcarried', -⟩ := Option.map_eq_some_iff.1 ho'
  obtain ⟨carried, hcarried⟩ := hR.exists_carryOut hends hr hi (hR.announce h i) hcarried'
  exact ⟨_, step_eq_some hcarried⟩

/-- **A program that ends on the second machine ends on the first one.** -/
theorem exists_run (fuel : Nat) : (Machine.run fuel).EndsWith allowed R := by
  induction fuel with
  | zero => intro program m m' o' _ _ ho'; cases ho'
  | succ fuel ih =>
    have hr : (Machine.run fuel).InStep allowed Excused R := hR.run fuel
    intro program m m' o' hprogram h ho'
    rw [Machine.run] at ho' ⊢
    induction program generalizing m m' o' with
    | nil => exact ⟨_, rfl⟩
    | cons i rest ihrest =>
      have hstep (o : Outcome) (ho : Machine.step (Machine.run fuel) i m = some o) :
          o.Foretells R Excused (Machine.step (Machine.run fuel) i m') :=
        hR.abreast.step (fun _ _ _ => hR.carryOut hr hprogram.1) h ho
      rw [inSequence] at ho' ⊢
      exact exists_andThen (fun _ => hR.exists_step ih hr hprogram.1 h) hstep
        (fun m₁ m₁' o' h₁ => ihrest m₁ m₁' o' hprogram.2 h₁) ho'

end Machine.Lockstep

end Reshape
