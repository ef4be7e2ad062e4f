import Reshape.Proofs.Machine.Invariant

/-!
# Runs of allowed instructions

What each allowed instruction keeps is kept by a run that gets to allowed instructions only. What
counts is what is executed, in the program and in the bodies of commands, loops and jumps, and not
what the program holds.

* `Machine.Along`, a relation that goes along with allowed instructions, and `Machine.Admission`,
  which programs may run on a machine, so that a run goes along with allowed instructions only;
* `Along.run`, by induction on the fuel;
* `Machine.RunsOnly` and `Machine.ExecutedOnly`, for runs and for calls one after the other, and
  `RunsOnly.admission`;
* `Instruction.AllKeep`, a property of the cursor that the allowed instructions keep, with
  `AllKeep.run`, `AllKeep.executed` and, for the machines on the way, `AllKeep.visits`.
-/

namespace Reshape

namespace Machine

/-- A relation between the machines in front of and behind each part of a run of allowed
instructions. What is reported and counted is no matter of it, and so is what the machines for items
do. -/
structure Along (allowed : Instruction → Prop) (Q : Machine → Machine → Prop) : Prop where
  refl (m : Machine) : Q m m
  trans {m m₁ m' : Machine} (h : Q m m₁) (h' : Q m₁ m') : Q m m'
  bookkeeping (m : Machine) (operations : Nat) (log : List Event) : Q m { m with operations, log }
  perform {i : Instruction} (hi : allowed i) (m : Machine) : Q m (i.perform.left m)
  /-- A jump takes a value. -/
  takeValue (m : Machine) : Q m (Effect.takeValue.left m)
  /-- What a body has made of the items of an array is written to the array. -/
  write {body : Program} (hi : allowed (.mapArray body)) (value : Json) (m : Machine) :
    Q m ((Effect.write value).left m)
  setCounter (m : Machine) (level count : Nat) : Q m (m.setCounter level count)
  loop {m m' : Machine} (h : Q m.enterLoop m') (ok : Bool) :
    Q m (m'.leaveLoop (m.loopLevel + 1) ok)

/-- Which programs may run on a machine: they consist of allowed instructions, what is left of one
may run behind its first instruction, and so may the bodies that it runs on the same machine. -/
structure Admission (allowed : Instruction → Prop) (Q : Machine → Machine → Prop)
    (Admits : Program → Machine → Prop) : Prop where
  head {i : Instruction} {rest : Program} {m : Machine} (h : Admits (i :: rest) m) : allowed i
  next {fuel : Nat} {i : Instruction} {rest : Program} {m m' : Machine} (h : Admits (i :: rest) m)
    (hstep : step (run fuel) i m = some (.done m')) (hm : Q m m') : Admits rest m'
  calls {i : Instruction} {rest body : Program} {m m' : Machine} (h : Admits (i :: rest) m)
    (hcalls : Calls i (m.announce i) body m') (hi : ∀ mapped, i ≠ .mapArray mapped)
    (hm : Q (m.announce i) m' ∨ Q (m.announce i).enterLoop m') : Admits body m'

theorem Along.and {allowed : Instruction → Prop} {Q Q' : Machine → Machine → Prop}
    (hQ : Along allowed Q) (hQ' : Along allowed Q') :
    Along allowed fun m m' => Q m m' ∧ Q' m m' where
  refl m := ⟨hQ.refl m, hQ'.refl m⟩
  trans h h' := ⟨hQ.trans h.1 h'.1, hQ'.trans h.2 h'.2⟩
  bookkeeping m operations log := ⟨hQ.bookkeeping m operations log, hQ'.bookkeeping m operations log⟩
  perform hi m := ⟨hQ.perform hi m, hQ'.perform hi m⟩
  takeValue m := ⟨hQ.takeValue m, hQ'.takeValue m⟩
  write hi value m := ⟨hQ.write hi value m, hQ'.write hi value m⟩
  setCounter m level count := ⟨hQ.setCounter m level count, hQ'.setCounter m level count⟩
  loop h ok := ⟨hQ.loop h.1 ok, hQ'.loop h.2 ok⟩

/-- Programs that may run behind what a relation leads to may run behind what a stronger one leads
to. -/
theorem Admission.mono {allowed : Instruction → Prop} {Q Q' : Machine → Machine → Prop}
    {Admits : Program → Machine → Prop} (hA : Admission allowed Q Admits)
    (hQ : ∀ {m m'}, Q' m m' → Q m m') : Admission allowed Q' Admits where
  head h := hA.head h
  next h hstep hm := hA.next h hstep (hQ hm)
  calls h hcalls hi hm := hA.calls h hcalls hi (hm.imp hQ hQ)

namespace Along

variable {allowed : Instruction → Prop} {Q : Machine → Machine → Prop}
  {Admits : Program → Machine → Prop} (hQ : Along allowed Q) {fuel : Nat} {i : Instruction}
  {m m' : Machine} {o : Outcome}

/-- The runs of so much fuel of the programs that may run go along with the relation. -/
def GoesWithin (Q : Machine → Machine → Prop) (Admits : Program → Machine → Prop) (fuel : Nat) :
    Prop :=
  ∀ program m o, Admits program m → Machine.run fuel program m = some o → Q m o.machine

include hQ

theorem announce (m : Machine) (i : Instruction) : Q m (m.announce i) := by
  obtain ⟨log, hlog⟩ := m.announce_eq i
  rw [hlog]
  exact hQ.bookkeeping m m.operations log

theorem complete (m : Machine) (i : Instruction) : Q m (m.complete i).machine := by
  obtain ⟨log, -, hcomplete⟩ := m.complete_eq i
  rw [hcomplete]
  split <;> exact hQ.bookkeeping m (m.operations + 1) log

theorem runCommand (hrun : GoesWithin Q Admits fuel)
    (hbody : ∀ body, m.commands.peek = .ok body → Admits body m)
    (ho : m.runCommand (Machine.run fuel) = some o) : Q m o.machine := by
  unfold Machine.runCommand at ho
  split at ho
  · rename_i body hpeek
    exact hrun body m o (hbody body hpeek) ho
  · cases ho
    exact hQ.refl m

/-- The rounds of a loop: from each head that the loop gets to, the body may run. -/
theorem iterate (hrun : GoesWithin Q Admits fuel) {condition : StopCondition}
    {level limit rounds remaining : Nat} {start head : Machine} (hrounds : rounds + remaining = limit)
    (hbody : ∀ rounds head body, LoopHead condition level limit start rounds head →
      condition.isMet head = .ok false → rounds < limit → head.commands.peek = .ok body →
      Q start head → Admits body head)
    (hhead : LoopHead condition level limit start rounds head) (hstart : Q start head)
    (ho : Machine.iterate (Machine.run fuel) condition level limit remaining head = some o) :
    Q start o.machine := by
  induction remaining generalizing rounds head with
  | zero =>
    unfold Machine.iterate at ho
    split at ho <;> cases ho <;> exact hstart
  | succ remaining ih =>
    unfold Machine.iterate at ho
    split at ho
    · cases ho
      exact hstart
    · cases ho
      exact hstart
    · rename_i hunmet
      have hlimit : rounds < limit := by omega
      have hround (o : Outcome) (ho : head.runCommand (Machine.run fuel) = some o) :
          Q start o.machine :=
        hQ.trans hstart (hQ.runCommand hrun
          (fun body hpeek => hbody rounds head body hhead hunmet hlimit hpeek hstart) ho)
      simp only at ho
      split at ho
      · rename_i m₁ hround'
        have hcount : limit - remaining = rounds + 1 := by omega
        rw [hcount] at ho
        exact ih (by omega) (.succ hhead hunmet hlimit hround')
          (hQ.trans (hround _ hround') (hQ.setCounter m₁ level (rounds + 1))) ho
      · exact hround o ho

theorem loopUntil (hrun : GoesWithin Q Admits fuel) {condition : StopCondition}
    (hbody : ∀ body head, Calls (.loopUntil condition) m body head → Q m.enterLoop head →
      Admits body head)
    (ho : m.loopUntil (Machine.run fuel) condition = some o) : Q m o.machine := by
  unfold Machine.loopUntil at ho
  simp only at ho
  split at ho
  · rename_i ending hending
    have hrounds := hQ.iterate hrun (Nat.zero_add _)
      (fun rounds head body hhead hunmet hlimit hpeek =>
        hbody body head (.loop hhead hunmet hlimit hpeek)) .zero (hQ.refl _) hending
    cases ho
    cases ending <;> exact hQ.loop hrounds _
  · cases ho

theorem jump (hrun : GoesWithin Q Admits fuel) {expected : Bool} {inner : Instruction}
    (hinner : ∀ m' value, Effect.takeValue.run m = .ok value m' →
      value.truthiness = some expected → Q m m' → Admits [inner] m')
    (ho : m.jump (Machine.run fuel) expected inner = some o) : Q m o.machine := by
  have htaken := hQ.takeValue m
  unfold Effect.left at htaken
  unfold Machine.jump at ho
  split at ho
  · rename_i hvalue
    rw [hvalue] at htaken
    cases ho
    exact htaken
  · rename_i value m₁ hvalue
    rw [hvalue] at htaken
    split at ho
    · rename_i hexpected
      exact hQ.trans htaken (hrun [inner] m₁ o (hinner m₁ value hvalue hexpected htaken) ho)
    · cases ho
      exact htaken

theorem mapArray {r : Runner} {body : Program} (hi : allowed (.mapArray body))
    (ho : m.mapArray r body = some o) : Q m o.machine := by
  unfold Machine.mapArray at ho
  rcases run_currentItems "MapArray" m with ⟨items, hitems⟩ | ⟨cause, hcause⟩
  · rw [hitems] at ho
    simp only at ho
    split at ho
    · cases ho
    · rename_i hmapped
      cases ho
      obtain ⟨log, rfl⟩ := mapItems_frame hmapped
      exact hQ.bookkeeping m m.operations log
    · rename_i mapped hmapped
      cases ho
      obtain ⟨log, rfl⟩ := mapItems_frame hmapped
      rw [Effect.machine_ofEffect]
      exact hQ.trans (hQ.bookkeeping m m.operations log) (hQ.write hi (.array mapped) _)
  · rw [hcause] at ho
    cases ho
    exact hQ.refl m

/-- The bodies that an instruction runs start on machines that the relation leads to. -/
theorem carryOut (hrun : GoesWithin Q Admits fuel) (hi : allowed i)
    (hcalls : ∀ body m', Calls i m body m' → (∀ mapped, i ≠ .mapArray mapped) →
      Q m m' ∨ Q m.enterLoop m' → Admits body m')
    (ho : m.carryOut (Machine.run fuel) i = some o) : Q m o.machine := by
  cases i with
  | popCommand =>
    exact hQ.runCommand hrun
      (fun body hpeek => hcalls body m (.command hpeek) nofun (.inl (hQ.refl m))) ho
  | loopUntil condition =>
    exact hQ.loopUntil hrun (fun body head h hm => hcalls body head h nofun (.inr hm)) ho
  | jumpIfTrue inner =>
    exact hQ.jump hrun
      (fun m' value hvalue htrue hm => hcalls _ m' (.jumpIfTrue hvalue htrue) nofun (.inl hm)) ho
  | jumpIfFalse inner =>
    exact hQ.jump hrun
      (fun m' value hvalue hfalse hm => hcalls _ m' (.jumpIfFalse hvalue hfalse) nofun (.inl hm)) ho
  | mapArray body => exact hQ.mapArray hi ho
  | _ =>
    cases ho
    rw [Effect.machine_ofEffect]
    exact hQ.perform hi m

variable (hA : Admission allowed Q Admits)

include hA

theorem step (hrun : GoesWithin Q Admits fuel) {rest : Program} (hadmits : Admits (i :: rest) m)
    (ho : Machine.step (Machine.run fuel) i m = some o) : Q m o.machine := by
  rw [step_eq] at ho
  obtain ⟨carried, hcarried, rfl⟩ := Option.map_eq_some_iff.1 ho
  have hcarry := hQ.trans (hQ.announce m i)
    (hQ.carryOut hrun (hA.head hadmits) (fun _ _ => hA.calls hadmits) hcarried)
  cases carried with
  | done m₁ => exact hQ.trans hcarry (hQ.complete m₁ i)
  | failed e m₁ => exact hcarry

/-- **Every run of a program that may run goes along with the relation.** -/
theorem run (fuel : Nat) : GoesWithin Q Admits fuel := by
  induction fuel with
  | zero => intro program m o _ ho; cases ho
  | succ fuel ih =>
    intro program
    induction program with
    | nil =>
      intro m o _ ho
      cases ho
      exact hQ.refl m
    | cons i rest ihrest =>
      intro m o hadmits ho
      rw [Machine.run, inSequence] at ho
      split at ho
      · rename_i m₁ hstep
        have hfirst := hQ.step hA ih hadmits hstep
        exact hQ.trans hfirst (ihrest m₁ o (hA.next hadmits hstep hfirst) ho)
      · exact hQ.step hA ih hadmits ho

end Along

/-! ### What is executed -/

variable {allowed : Instruction → Prop} {i : Instruction} {program program' rest : Program}
  {m m' : Machine}

/-- Every instruction that a run of a program gets to, at whatever depth, is allowed. -/
def RunsOnly (allowed : Instruction → Prop) (program : Program) (m : Machine) : Prop :=
  ∀ i rest s, Relation.ReflTransGen Next (program, m) (i :: rest, s) → allowed i

/-- Calls one after the other, some of which may fail and all of which get to allowed instructions
only, take `m` to a machine. -/
inductive ExecutedOnly (allowed : Instruction → Prop) (m : Machine) : Machine → Prop
  | refl : ExecutedOnly allowed m m
  | next {fuel : Nat} {program : Program} {m' : Machine} {o : Outcome}
      (h : ExecutedOnly allowed m m')
      (hruns : RunsOnly allowed program (m'.record (.executing program.length m'.trace)))
      (ho : m'.execute fuel program = some o) : ExecutedOnly allowed m o.machine

theorem RunsOnly.head (h : RunsOnly allowed (i :: rest) m) : allowed i := h i rest m .refl

theorem RunsOnly.next (h : RunsOnly allowed program m)
    (hnext : Next (program, m) (program', m')) : RunsOnly allowed program' m' :=
  fun i rest s hreach => h i rest s (.head hnext hreach)

theorem RunsOnly.nil : RunsOnly allowed [] m := by
  intro i rest s h
  rcases h.cases_head with hrefl | ⟨_, hnext, _⟩
  · cases hrefl
  · cases hnext

theorem RunsOnly.cons (hi : allowed i)
    (hnext : ∀ program' m', Next (i :: rest, m) (program', m') → RunsOnly allowed program' m') :
    RunsOnly allowed (i :: rest) m := by
  intro i' rest' s h
  rcases h.cases_head with hrefl | ⟨⟨program', m'⟩, hstep, hreach⟩
  · cases hrefl
    exact hi
  · exact hnext program' m' hstep i' rest' s hreach

theorem RunsOnly.admission (Q : Machine → Machine → Prop) :
    Admission allowed Q (RunsOnly allowed) where
  head h := h.head
  next h hstep _ := h.next (.done hstep)
  calls h hcalls _ _ := h.next (.enters hcalls)

end Machine

/-! ### What a program holds -/

mutual
/-- Whether a test holds of an instruction, and at every depth of those that it lets run on the same
machine: the inner ones of jumps and the bodies that it pushes. A body for the items of an array
runs on machines of their own. -/
def Instruction.everywhere (test : Instruction → Bool) : Instruction → Bool
  | .pushCommand body => test (.pushCommand body) && Program.everywhere test body
  | .jumpIfTrue inner => test (.jumpIfTrue inner) && Instruction.everywhere test inner
  | .jumpIfFalse inner => test (.jumpIfFalse inner) && Instruction.everywhere test inner
  | i => test i

/-- Whether a test holds of every instruction of a program, at every depth. -/
def Program.everywhere (test : Instruction → Bool) : List Instruction → Bool
  | [] => true
  | i :: rest => Instruction.everywhere test i && Program.everywhere test rest
end

theorem Instruction.test_of_everywhere {test : Instruction → Bool} {i : Instruction}
    (h : i.everywhere test = true) : test i = true := by
  cases i with
  | pushCommand body => exact (Bool.and_eq_true_iff.1 h).1
  | jumpIfTrue inner => exact (Bool.and_eq_true_iff.1 h).1
  | jumpIfFalse inner => exact (Bool.and_eq_true_iff.1 h).1
  | _ => exact h

theorem Program.everywhere_iff {test : Instruction → Bool} {program : Program} :
    Program.everywhere test program = true ↔ ∀ i ∈ program, i.everywhere test = true := by
  induction program with
  | nil => exact ⟨fun _ _ hi => (nomatch hi), fun _ => rfl⟩
  | cons first rest ih => rw [everywhere, Bool.and_eq_true, ih, List.forall_mem_cons]

namespace Machine

variable {test : Instruction → Bool}

/-- A test holds of every instruction in the bodies on the command stack. -/
def Bodies (test : Instruction → Bool) (m : Machine) : Prop :=
  ∀ body ∈ m.commands.items, Program.everywhere test body = true

theorem Bodies.peek {m : Machine} {body : Program} (h : m.Bodies test)
    (hbody : m.commands.peek = .ok body) : Program.everywhere test body = true :=
  h body (Stack.mem_of_peek hbody)

/-- Only bodies of the program get onto the command stack. -/
theorem along_bodies (test : Instruction → Bool) :
    Along (fun i => i.everywhere test = true) fun m m' => m.Bodies test → m'.Bodies test where
  refl _ h := h
  trans h h' hm := h' (h hm)
  bookkeeping _ _ _ h := h
  perform {i} hi m hm := by
    by_cases hpush : ∃ body, i = .pushCommand body
    · obtain ⟨body, rfl⟩ := hpush
      intro pushed hpushed
      rcases List.mem_cons.1 hpushed with rfl | hbelow
      · exact (Bool.and_eq_true_iff.1 hi).2
      · exact hm pushed hbelow
    · by_cases hreset : i = .reset
      · subst hreset
        exact fun _ hbody => nomatch hbody
      · obtain ⟨_, _, _, hleft⟩ :=
          Instruction.perform_local (fun body hbody => hpush ⟨body, hbody⟩) hreset m
        rw [hleft]
        exact hm
  takeValue m hm := by
    obtain ⟨_, _, _, hleft⟩ := Effect.Local.takeValue m
    rw [hleft]
    exact hm
  write _ value m hm := by
    obtain ⟨_, _, _, hleft⟩ := Effect.Local.write value m
    rw [hleft]
    exact hm
  setCounter _ _ _ h := h
  loop h _ hm body hbody := h hm body (List.mem_of_mem_tail hbody)

/-- A program of which a test holds everywhere runs only instructions of which it holds, if it also
holds of the bodies that are on the command stack. -/
theorem everywhere_admission (test : Instruction → Bool) :
    Admission (fun i => i.everywhere test = true) (fun m m' => m.Bodies test → m'.Bodies test)
      fun program m => Program.everywhere test program = true ∧ m.Bodies test where
  head h := (Bool.and_eq_true_iff.1 h.1).1
  next h _ hm := ⟨(Bool.and_eq_true_iff.1 h.1).2, hm h.2⟩
  calls {i _ _ m _} h hcalls hi hm := by
    have hstart : (m.announce i).Bodies test := (along_bodies test).announce m i h.2
    have hbodies := hm.elim (fun hm => hm hstart) fun hm => hm hstart
    have hfirst := (Bool.and_eq_true_iff.1 h.1).1
    refine ⟨?_, hbodies⟩
    cases hcalls with
    | command hbody => exact hbodies.peek hbody
    | loop _ _ _ hbody => exact hbodies.peek hbody
    | jumpIfTrue _ _ =>
      exact Bool.and_eq_true_iff.2 ⟨(Bool.and_eq_true_iff.1 hfirst).2, rfl⟩
    | jumpIfFalse _ _ =>
      exact Bool.and_eq_true_iff.2 ⟨(Bool.and_eq_true_iff.1 hfirst).2, rfl⟩
    | item _ _ => exact (hi _ rfl).elim

end Machine

/-! ### Properties of the cursor -/

/-- Every allowed instruction keeps a property of the cursor. -/
structure Instruction.AllKeep (allowed : Instruction → Prop) (P : Cursor → Prop) : Prop where
  perform : ∀ {i}, allowed i → Effect.Keeps P i.perform
  /-- What a body has made of the items of an array is written to the array. -/
  mapArray : ∀ {body}, allowed (.mapArray body) → ∀ value, Effect.Keeps P (Effect.write value)

namespace Instruction.AllKeep

open Machine

variable {allowed : Instruction → Prop} {P : Cursor → Prop} (hP : AllKeep allowed P) {fuel : Nat}
  {i : Instruction} {m m' : Machine} {o : Outcome}

/-- The runs of so much fuel keep the property. -/
def KeepsWithin (allowed : Instruction → Prop) (P : Cursor → Prop) (fuel : Nat) : Prop :=
  ∀ program m o, RunsOnly allowed program m → Machine.run fuel program m = some o → P m.cursor →
    P o.machine.cursor

include hP

/-- Stacks of bodies, loops, counts and reports are no matter of the cursor. -/
theorem along : Along allowed fun m m' => P m.cursor → P m'.cursor where
  refl _ hm := hm
  trans h h' hm := h' (h hm)
  bookkeeping _ _ _ hm := hm
  perform hi m := hP.perform hi m
  takeValue m := Effect.Keeps.takeValue m
  write hi value m := hP.mapArray hi value m
  setCounter _ _ _ hm := hm
  loop h _ hm := h hm

/-- **A run of allowed instructions keeps what each of them keeps.** -/
theorem run (fuel : Nat) : KeepsWithin allowed P fuel :=
  hP.along.run (RunsOnly.admission _) fuel

theorem step {rest : Program} (hruns : RunsOnly allowed (i :: rest) m)
    (ho : Machine.step (Machine.run fuel) i m = some o) (hm : P m.cursor) : P o.machine.cursor :=
  hP.along.step (RunsOnly.admission _) (hP.run fuel) hruns ho hm

theorem executed (h : m.ExecutedOnly allowed m') (hm : P m.cursor) : P m'.cursor := by
  induction h with
  | refl => exact hm
  | next _ hruns ho ih => exact hP.run _ _ _ _ hruns ho ih

/-! ### On the way -/

theorem loopHead {condition : StopCondition} {level limit rounds : Nat} {start head : Machine}
    (hbody : ∀ rounds head body, LoopHead condition level limit start rounds head →
      condition.isMet head = .ok false → rounds < limit → head.commands.peek = .ok body →
      RunsOnly allowed body head)
    (hhead : LoopHead condition level limit start rounds head) (hm : P start.cursor) :
    P head.cursor := by
  induction hhead with
  | zero => exact hm
  | succ hhead hunmet hlimit hround ih =>
    exact hP.along.runCommand (hP.run _) (fun body => hbody _ _ body hhead hunmet hlimit) hround ih

/-- A body starts on a machine with the property, unless it starts on an item of an array. -/
theorem calls {body : Program} (hcalls : ∀ body m', Calls i m body m' → RunsOnly allowed body m')
    (h : Calls i m body m') (hm : P m.cursor) :
    P m'.cursor ∨ ∃ items, m.cursor.current = .ok (.array items) := by
  cases h with
  | command _ => exact .inl hm
  | loop hhead _ _ _ =>
    exact .inl (hP.loopHead (fun rounds head body hhead hunmet hlimit hpeek =>
      hcalls body head (.loop hhead hunmet hlimit hpeek)) hhead hm)
  | jumpIfTrue hv _ =>
    have htaken := Effect.Keeps.takeValue m hm
    rw [Effect.left, hv] at htaken
    exact .inl htaken
  | jumpIfFalse hv _ =>
    have htaken := Effect.Keeps.takeValue m hm
    rw [Effect.left, hv] at htaken
    exact .inl htaken
  | item hitems _ => exact .inr ⟨_, hitems⟩

/-- If the property holds of no cursor at an array, then it holds at every machine that a call of
allowed instructions passes through. -/
theorem visits (harray : ∀ c items, P c → c.current ≠ .ok (.array items)) {program : Program}
    (hruns : RunsOnly allowed program (m.record (.executing program.length m.trace)))
    (h : m.Visits program m') (hm : P m.cursor) : P m'.cursor := by
  have hpoint := h.exists_point
    (P := fun point => P point.2.cursor ∧ RunsOnly allowed point.1 point.2) ⟨hm, hruns⟩ ?_
  · obtain ⟨_, hm', _⟩ := hpoint
    exact hm'
  · rintro ⟨program, m⟩ ⟨program', m'⟩ ⟨hm, hruns⟩ hnext
    refine ⟨?_, hruns.next hnext⟩
    cases hnext with
    | done hstep => exact hP.step hruns hstep hm
    | failed hstep => exact hP.step hruns hstep hm
    | @enters i _ _ _ _ hcalls =>
      replace hm : P (m.announce i).cursor := by rwa [cursor_announce]
      rcases hP.calls (fun _ _ hcalls => hruns.next (.enters hcalls)) hcalls hm with
        hkept | ⟨items, hitems⟩
      · exact hkept
      · exact (harray _ items hm hitems).elim

end Instruction.AllKeep

end Reshape
