import Reshape.Move.Apply
import Reshape.Proofs.Machine.Step
import Reshape.Proofs.Machine.Visits

/-!
# Cleaning up after loops

A program is balanced if it pushes bodies only in front of the loops that run them. Such a program
always ends, and it leaves the command stack and the loops as they were, whether it succeeds or
fails. There is one exception: a push that is one instruction too many fails behind the push and in
front of the loop, and then one body stays on the command stack.

* `Program.Structured` and `Program.Balanced`, and `Program.Structured.induction_on_nesting`, an
  induction along the fuel that the bodies take;
* `Machine.Controls`, what a machine has of commands and loops, and `Outcome.Leaves`, what the end
  of a run leaves of them;
* `Machine.PushesAtCeiling`, a run that gets to a push when the count of instructions is full;
* `Program.Balanced.leaves`, for balanced programs, and `Machine.loopUntil_cleans_up`, for loops.
-/

namespace Reshape

/-! ### Balanced programs -/

/-- An instruction that neither runs nor holds other instructions. -/
def Instruction.isSingle : Instruction → Bool
  | pushCommand _ => false
  | popCommand => false
  | loopUntil _ => false
  | jumpIfTrue _ => false
  | jumpIfFalse _ => false
  | mapArray _ => false
  | _ => true

/-- At every depth of a program, bodies are pushed in front of the loops that run them and nowhere
else, no body is run otherwise, and the single instructions are allowed ones. -/
inductive Program.Structured (allowed : Instruction → Prop) : Program → Prop
  | nil : Structured allowed []
  | single {i : Instruction} {rest : Program} (hi : i.isSingle = true) (ha : allowed i)
      (h : Structured allowed rest) : Structured allowed (i :: rest)
  | jumpIfTrue {inner : Instruction} {rest : Program} (hinner : Structured allowed [inner])
      (h : Structured allowed rest) : Structured allowed (.jumpIfTrue inner :: rest)
  | jumpIfFalse {inner : Instruction} {rest : Program} (hinner : Structured allowed [inner])
      (h : Structured allowed rest) : Structured allowed (.jumpIfFalse inner :: rest)
  | mapArray {body rest : Program} (hbody : Structured allowed body)
      (h : Structured allowed rest) : Structured allowed (.mapArray body :: rest)
  | loop {body rest : Program} (condition : StopCondition) (hbody : Structured allowed body)
      (h : Structured allowed rest) :
      Structured allowed (.pushCommand body :: .loopUntil condition :: rest)

/-- A structured program without resets. -/
def Program.Balanced : Program → Prop := Structured (· ≠ .reset)

/-- What holds of structured programs with one level of fuel more than it takes of their bodies,
holds with fuel for all levels. -/
theorem Program.Structured.induction_on_nesting {allowed : Instruction → Prop}
    {motive : Nat → Program → Prop} (nil : ∀ fuel, motive (fuel + 1) [])
    (single : ∀ {fuel i rest}, i.isSingle = true → allowed i → motive (fuel + 1) rest →
      motive (fuel + 1) (i :: rest))
    (jumpIfTrue : ∀ {fuel inner rest}, motive fuel [inner] → motive (fuel + 1) rest →
      motive (fuel + 1) (.jumpIfTrue inner :: rest))
    (jumpIfFalse : ∀ {fuel inner rest}, motive fuel [inner] → motive (fuel + 1) rest →
      motive (fuel + 1) (.jumpIfFalse inner :: rest))
    (mapArray : ∀ {fuel body rest}, motive fuel body → motive (fuel + 1) rest →
      motive (fuel + 1) (.mapArray body :: rest))
    (loop : ∀ {fuel body rest} (condition : StopCondition), motive fuel body →
      motive (fuel + 1) rest →
      motive (fuel + 1) (.pushCommand body :: .loopUntil condition :: rest))
    {program : Program} (h : program.Structured allowed) {fuel : Nat}
    (hfuel : Program.nesting program ≤ fuel) : motive fuel program := by
  induction h generalizing fuel with
  | nil =>
    obtain ⟨fuel, rfl⟩ := Nat.exists_eq_succ_of_ne_zero (Nat.pos_iff_ne_zero.1 hfuel)
    exact nil fuel
  | single hi ha _ ih =>
    rw [Program.nesting, Nat.max_le] at hfuel
    obtain ⟨fuel, rfl⟩ : ∃ less, fuel = less + 1 := ⟨fuel - 1, by omega⟩
    exact single hi ha (ih hfuel.2)
  | jumpIfTrue _ _ ihinner ih =>
    rw [Program.nesting, Instruction.nesting, Nat.max_le] at hfuel
    obtain ⟨fuel, rfl⟩ : ∃ less, fuel = less + 1 := ⟨fuel - 1, by omega⟩
    exact jumpIfTrue (ihinner (by rw [Program.nesting, Program.nesting]; omega)) (ih hfuel.2)
  | jumpIfFalse _ _ ihinner ih =>
    rw [Program.nesting, Instruction.nesting, Nat.max_le] at hfuel
    obtain ⟨fuel, rfl⟩ : ∃ less, fuel = less + 1 := ⟨fuel - 1, by omega⟩
    exact jumpIfFalse (ihinner (by rw [Program.nesting, Program.nesting]; omega)) (ih hfuel.2)
  | mapArray _ _ ihbody ih =>
    rw [Program.nesting, Instruction.nesting, Nat.max_le] at hfuel
    obtain ⟨fuel, rfl⟩ : ∃ less, fuel = less + 1 := ⟨fuel - 1, by omega⟩
    exact mapArray (ihbody (by omega)) (ih hfuel.2)
  | loop condition _ _ ihbody ih =>
    rw [Program.nesting, Instruction.nesting, Program.nesting, Nat.max_le, Nat.max_le] at hfuel
    obtain ⟨hpush, -, hrest⟩ := hfuel
    obtain ⟨fuel, rfl⟩ : ∃ less, fuel = less + 1 := ⟨fuel - 1, by omega⟩
    exact loop condition (ihbody (by omega)) (ih hrest)

theorem Instruction.carryOut_of_isSingle {i : Instruction} (h : i.isSingle = true) (run : Runner)
    (m : Machine) : m.carryOut run i = some (.ofEffect i.perform m) := by
  cases i <;> first | rfl | cases h

theorem Instruction.perform_local_of_isSingle {i : Instruction} (h : i.isSingle = true)
    (hreset : i ≠ .reset) : Effect.Local i.perform := by
  refine perform_local ?_ hreset
  rintro body rfl
  cases h

/-! ### Commands and loops of a machine -/

/-- The machine `m'` has these commands, is so many loops deep, and has the counters that `m` has
for the loops down to a depth. -/
structure Machine.Controls (m : Machine) (depth level : Nat) (commands : Stack Program)
    (m' : Machine) : Prop where
  commands : m'.commands = commands
  level : m'.loopLevel = level
  counters : ∀ outer ≤ depth, m'.loopCounters.get? outer = m.loopCounters.get? outer

/-- The end of a run leaves these commands and loops. A run that fails as one of its instructions
was one too many may leave one more body on the command stack, of which `Stays` tells. -/
def Outcome.Leaves (m : Machine) (depth level : Nat) (commands : Stack Program)
    (Stays : Program → Prop) : Outcome → Prop
  | .done m' => m.Controls depth level commands m'
  | .failed e m' => m.Controls depth level commands m' ∨
      (∃ limit, e.cause = .operationLimitExceeded limit) ∧
        ∃ body, Stays body ∧ m.Controls depth level (commands.push body) m'

variable {m m₁ m' : Machine} {depth level : Nat} {commands : Stack Program} {o : Outcome}
  {Stays Stays' : Program → Prop}

namespace Machine.Controls

theorem refl (m : Machine) (depth : Nat) : m.Controls depth m.loopLevel m.commands m :=
  ⟨rfl, rfl, fun _ _ => rfl⟩

theorem trans (h : m.Controls depth level commands m₁) (hdepth : depth ≤ level)
    {commands' : Stack Program} (h' : m₁.Controls m₁.loopLevel m₁.loopLevel commands' m') :
    m.Controls depth level commands' m' := by
  refine ⟨h'.commands, h'.level.trans h.level, fun outer houter => ?_⟩
  have hle : outer ≤ m₁.loopLevel := by
    rw [h.level]
    exact Nat.le_trans houter hdepth
  rw [h'.counters outer hle, h.counters outer houter]

/-- Commands and loops are all that counts. -/
theorem of_same (h : m.Controls depth level commands m₁) (hcommands : m'.commands = m₁.commands)
    (hlevel : m'.loopLevel = m₁.loopLevel) (hcounters : m'.loopCounters = m₁.loopCounters) :
    m.Controls depth level commands m' :=
  ⟨hcommands.trans h.commands, hlevel.trans h.level, fun outer houter => by
    rw [hcounters, h.counters outer houter]⟩

theorem setCounter (h : m.Controls depth level commands m') {inner : Nat} (hinner : depth < inner)
    (count : Nat) : m.Controls depth level commands (m'.setCounter inner count) := by
  refine ⟨h.commands, h.level, fun outer houter => ?_⟩
  rw [← h.counters outer houter]
  exact Entries.get?_insert_of_ne (by omega) count m'.loopCounters

end Machine.Controls

namespace Outcome.Leaves

theorem of_controls (h : m.Controls depth level commands o.machine) :
    o.Leaves m depth level commands Stays := by
  cases o with
  | done m' => exact h
  | failed e m' => exact .inl h

theorem mono (h : o.Leaves m depth level commands Stays)
    (hstays : ∀ body, Stays body → Stays' body) : o.Leaves m depth level commands Stays' := by
  cases o with
  | done m' => exact h
  | failed e m' =>
    rcases h with h | ⟨hcause, body, hbody, h⟩
    · exact .inl h
    · exact .inr ⟨hcause, body, hstays body hbody, h⟩

theorem trans {before : Stack Program} (h : m.Controls depth level before m₁)
    (hdepth : depth ≤ level) (ho : o.Leaves m₁ m₁.loopLevel m₁.loopLevel commands Stays) :
    o.Leaves m depth level commands Stays := by
  cases o with
  | done m' => exact h.trans hdepth ho
  | failed e m' =>
    rcases ho with ho | ⟨hcause, body, hbody, ho⟩
    · exact .inl (h.trans hdepth ho)
    · exact .inr ⟨hcause, body, hbody, h.trans hdepth ho⟩

/-- To count an instruction, or to put its frame around an error, leaves commands and loops. -/
theorem finish (h : o.Leaves m depth level commands Stays) (i : Instruction) :
    (o.finish i).Leaves m depth level commands Stays := by
  cases o with
  | failed e m' => exact h
  | done m' =>
    obtain ⟨log, -, hcomplete⟩ := m'.complete_eq i
    have hm : m.Controls depth level commands m' := h
    refine of_controls (hm.of_same ?_ ?_ ?_)
    all_goals
      rw [Outcome.finish, hcomplete]
      split <;> rfl

end Outcome.Leaves

/-! ### Pushes at the ceiling -/

namespace Machine

/-- A run of a program gets to an instruction that pushes a body when as many instructions have been
completed as may be. -/
def PushesAtCeiling (program : Program) (m : Machine) : Prop :=
  ∃ body rest s, Relation.ReflTransGen Next (program, m) (.pushCommand body :: rest, s) ∧
    s.limits.operations ≤ s.operations

variable {program body rest : Program} {i : Instruction} {fuel : Nat}

theorem PushesAtCeiling.behind (h : m'.PushesAtCeiling rest)
    (hstep : step (run fuel) i m = some (.done m')) : m.PushesAtCeiling (i :: rest) := by
  obtain ⟨pushed, behind, s, hreach, hs⟩ := h
  exact ⟨pushed, behind, s, .head (.done hstep) hreach, hs⟩

theorem PushesAtCeiling.inside (h : m'.PushesAtCeiling body)
    (hcalls : Calls i (m.announce i) body m') : m.PushesAtCeiling (i :: rest) := by
  obtain ⟨pushed, behind, s, hreach, hs⟩ := h
  exact ⟨pushed, behind, s, .head (.enters hcalls) hreach, hs⟩

end Machine

/-- On every machine, the run of a program ends, and leaves the commands and the loops as they were;
if one body stays on the command stack, the run has got to a push at the ceiling. -/
def Program.Restores (fuel : Nat) (program : Program) : Prop :=
  ∀ m, ∃ o, Machine.run fuel program m = some o ∧
    o.Leaves m m.loopLevel m.loopLevel m.commands fun _ => m.PushesAtCeiling program

/-! ### Loops -/

namespace Machine

variable {body : Program} {fuel : Nat} {below : Stack Program}

theorem controls_enterLoop (m : Machine) :
    m.Controls m.loopLevel (m.loopLevel + 1) m.commands m.enterLoop := by
  have hdeeper : m.Controls m.loopLevel (m.loopLevel + 1) m.commands
      { m with loopLevel := m.loopLevel + 1 } := ⟨rfl, rfl, fun _ _ => rfl⟩
  exact hdeeper.setCounter (Nat.lt_succ_self _) 0

/-- A loop takes the top body off, and forgets its own counter. -/
theorem Controls.leaveLoop {pushed : Program}
    (h : m.Controls m.loopLevel (m.loopLevel + 1) (below.push pushed) m') (ok : Bool) :
    m.Controls m.loopLevel m.loopLevel below (m'.leaveLoop (m.loopLevel + 1) ok) := by
  refine ⟨?_, congrArg (· - 1) h.level, fun outer houter => ?_⟩
  · show { m'.commands with items := m'.commands.items.tail } = below
    rw [h.commands]
    rfl
  · rw [← h.counters outer houter]
    exact Entries.get?_erase_of_ne (by omega) m'.loopCounters

/-- The rounds of a loop start on machines of which the body is the top command, and end so, unless
a push fails. -/
theorem iterate_leaves (hbody : body.Restores fuel) (condition : StopCondition)
    {remaining rounds : Nat} {head : Machine}
    (hrounds : rounds + remaining = m.limits.loopIterations)
    (hhead : LoopHead condition (m.loopLevel + 1) m.limits.loopIterations m.enterLoop rounds head)
    (h : m.Controls m.loopLevel (m.loopLevel + 1) (below.push body) head) :
    ∃ o, iterate (run fuel) condition (m.loopLevel + 1) m.limits.loopIterations remaining head =
        some o ∧
      o.Leaves m m.loopLevel (m.loopLevel + 1) (below.push body) fun _ =>
        ∃ head, Calls (.loopUntil condition) m body head ∧ head.PushesAtCeiling body := by
  induction remaining generalizing rounds head with
  | zero =>
    rw [iterate]
    split
    · exact ⟨_, rfl, .of_controls h⟩
    · exact ⟨_, rfl, .of_controls h⟩
    · exact ⟨_, rfl, .of_controls h⟩
  | succ remaining ih =>
    rw [iterate]
    split
    · exact ⟨_, rfl, .of_controls h⟩
    · exact ⟨_, rfl, .of_controls h⟩
    · rename_i hunmet
      have hpeek : head.commands.peek = .ok body := by
        rw [h.commands]
        rfl
      have hlimit : rounds < m.limits.loopIterations := by omega
      obtain ⟨o, ho, hleaves⟩ := hbody head
      have hround : head.runCommand (run fuel) = some o := by
        rw [runCommand, hpeek]
        exact ho
      have hleaves := Outcome.Leaves.trans h (Nat.le_succ _) (h.commands ▸ hleaves)
      simp only [hround]
      cases o with
      | done m₁ =>
        have hsucc : m.limits.loopIterations - remaining = rounds + 1 := by omega
        rw [hsucc]
        exact ih (by omega) (.succ hhead hunmet hlimit hround)
          (Controls.setCounter hleaves (Nat.lt_succ_self _) _)
      | failed e m₁ =>
        exact ⟨_, rfl, hleaves.mono fun _ hpushes =>
          ⟨head, .loop hhead hunmet hlimit hpeek, hpushes⟩⟩

/-- A loop takes its body off the command stack, or, if a push has failed in it, the body that had
been pushed. -/
theorem loopUntil_leaves (hbody : body.Restores fuel) (condition : StopCondition)
    (hcommands : m.commands = below.push body) :
    ∃ o, m.loopUntil (run fuel) condition = some o ∧
      o.Leaves m m.loopLevel m.loopLevel below fun pushed => pushed = body ∧
        ∃ head, Calls (.loopUntil condition) m body head ∧ head.PushesAtCeiling body := by
  have henter : m.Controls m.loopLevel (m.loopLevel + 1) (below.push body) m.enterLoop :=
    hcommands ▸ m.controls_enterLoop
  obtain ⟨o, ho, hleaves⟩ := iterate_leaves hbody condition (Nat.zero_add _) .zero henter
  unfold loopUntil
  simp only [ho]
  refine ⟨_, rfl, ?_⟩
  cases o with
  | done m' => exact Controls.leaveLoop hleaves _
  | failed e m' =>
    rcases hleaves with hleaves | ⟨hcause, pushed, hpushes, hleaves⟩
    · exact .inl (hleaves.leaveLoop _)
    · exact .inr ⟨hcause, body, ⟨rfl, hpushes⟩, hleaves.leaveLoop _⟩

end Machine

/-! ### Balanced programs restore what they find -/

namespace Program.Restores

variable {i : Instruction} {rest body : Program} {fuel : Nat}

/-- The first instruction of a program, and the rest of it. -/
theorem run_cons {before : Stack Program} (hm : m.Controls depth level before m₁)
    (hdepth : depth ≤ level) (hrest : rest.Restores (fuel + 1))
    (hi : ∀ m : Machine, m.commands = before → ∃ o, m.carryOut (Machine.run fuel) i = some o ∧
      o.Leaves m m.loopLevel m.loopLevel commands fun _ => ∃ body m',
        Machine.Calls i m body m' ∧ m'.PushesAtCeiling body) :
    ∃ o, Machine.run (fuel + 1) (i :: rest) m₁ = some o ∧
      o.Leaves m depth level commands fun _ => m₁.PushesAtCeiling (i :: rest) := by
  have hannounced : m.Controls depth level before (m₁.announce i) := by
    obtain ⟨log, hannounce⟩ := m₁.announce_eq i
    rw [hannounce]
    exact hm.of_same rfl rfl rfl
  obtain ⟨o, ho, hleaves⟩ := hi _ hannounced.commands
  have hstep := Machine.step_eq_some ho
  have hleaves := (Outcome.Leaves.trans hannounced hdepth hleaves).finish i
  rw [Machine.run, inSequence, hstep]
  generalize o.finish i = finished at hleaves hstep ⊢
  cases finished with
  | failed e m' =>
    refine ⟨_, rfl, hleaves.mono ?_⟩
    rintro - ⟨body, m', hcalls, hpushes⟩
    exact hpushes.inside hcalls
  | done m' =>
    have hdone : m.Controls depth level commands m' := hleaves
    obtain ⟨o', ho', hleaves'⟩ := hrest m'
    refine ⟨o', ho', .mono (.trans hdone hdepth (hdone.commands ▸ hleaves')) ?_⟩
    exact fun _ hpushes => hpushes.behind hstep

theorem cons (hrest : rest.Restores (fuel + 1))
    (hi : ∀ m : Machine, ∃ o, m.carryOut (Machine.run fuel) i = some o ∧
      o.Leaves m m.loopLevel m.loopLevel m.commands fun _ => ∃ body m',
        Machine.Calls i m body m' ∧ m'.PushesAtCeiling body) :
    Restores (fuel + 1) (i :: rest) :=
  fun m => run_cons (.refl m _) (Nat.le_refl _) hrest fun m₁ hcommands => hcommands ▸ hi m₁

theorem single (hi : i.isSingle = true) (hreset : i ≠ .reset) (h : rest.Restores (fuel + 1)) :
    Restores (fuel + 1) (i :: rest) := by
  refine h.cons fun m => ⟨_, Instruction.carryOut_of_isSingle hi _ m, .of_controls ?_⟩
  obtain ⟨cursor, elements, values, hleft⟩ :=
    (Instruction.perform_local_of_isSingle hi hreset).machine_ofEffect m
  rw [hleft]
  exact .of_same (.refl m _) rfl rfl rfl

theorem jump {expected : Bool} {inner : Instruction}
    (hcarry : ∀ run m, Machine.carryOut run i m = m.jump run expected inner)
    (hcalls : ∀ {m m' : Machine} {value}, Effect.takeValue.run m = .ok value m' →
      value.truthiness = some expected → Machine.Calls i m [inner] m')
    (hinner : Restores fuel [inner]) (h : rest.Restores (fuel + 1)) :
    Restores (fuel + 1) (i :: rest) := by
  refine h.cons fun m => ?_
  rw [hcarry, Machine.jump_eq]
  cases hpop : m.values.pop with
  | error e => exact ⟨_, rfl, .of_controls (.refl m _)⟩
  | ok popped =>
    obtain ⟨value, values⟩ := popped
    have htaken : m.Controls m.loopLevel m.loopLevel m.commands { m with values } :=
      .of_same (.refl m _) rfl rfl rfl
    simp only
    split
    · rename_i htruth
      have htake : Effect.takeValue.run m = .ok value { m with values } := by
        rw [Effect.run_takeValue, hpop]
      obtain ⟨o, ho, hleaves⟩ := hinner { m with values }
      exact ⟨o, ho, (Outcome.Leaves.trans htaken (Nat.le_refl _) hleaves).mono
        fun _ hpushes => ⟨_, _, hcalls htake htruth, hpushes⟩⟩
    · exact ⟨_, rfl, .of_controls htaken⟩

theorem mapArray (hbody : body.Restores fuel) (h : rest.Restores (fuel + 1)) :
    Restores (fuel + 1) (.mapArray body :: rest) := by
  refine h.cons fun m => ?_
  have hends : ∀ m, ∃ o, Machine.run fuel body m = some o := fun m =>
    (hbody m).imp fun _ ho => ho.1
  obtain ⟨o, ho⟩ := m.mapArray_ends hends
  obtain ⟨cursor, elements, values, log, hleft⟩ := Machine.mapArray_frame ho
  refine ⟨o, ho, .of_controls ?_⟩
  rw [hleft]
  exact .of_same (.refl m _) rfl rfl rfl

/-- A body is pushed, and the loop behind takes it off. -/
theorem loop (hbody : body.Restores fuel) (condition : StopCondition)
    (h : rest.Restores (fuel + 1)) :
    Restores (fuel + 1) (.pushCommand body :: .loopUntil condition :: rest) := by
  intro m
  obtain ⟨log, hannounce⟩ := m.announce_eq (.pushCommand body)
  have hstep : Machine.step (Machine.run fuel) (.pushCommand body) m =
      some (Outcome.finish (.pushCommand body)
        (.done { m with log, commands := m.commands.push body })) := by
    refine Machine.step_eq_some ?_
    rw [hannounce]
    rfl
  obtain ⟨log', -, hcomplete⟩ :=
    Machine.complete_eq { m with log, commands := m.commands.push body } (.pushCommand body)
  rw [Outcome.finish, hcomplete] at hstep
  rw [Machine.run, inSequence, hstep]
  have hpushed (log : List Event) (operations : Nat) :
      m.Controls m.loopLevel m.loopLevel (m.commands.push body)
        { m with log, operations, commands := m.commands.push body } := ⟨rfl, rfl, fun _ _ => rfl⟩
  by_cases hceiling : m.limits.operations ≤ m.operations
  · -- The push was one too many: the loop is not reached, and nothing takes the body off.
    rw [if_pos hceiling]
    exact ⟨_, rfl, .inr ⟨⟨_, rfl⟩, body, ⟨body, _, m, .refl, hceiling⟩, hpushed log' _⟩⟩
  · rw [if_neg hceiling] at hstep ⊢
    have hloop (m₁ : Machine) (hcommands : m₁.commands = m.commands.push body) :
        ∃ o, m₁.carryOut (Machine.run fuel) (.loopUntil condition) = some o ∧
          o.Leaves m₁ m₁.loopLevel m₁.loopLevel m.commands fun _ => ∃ body m',
            Machine.Calls (.loopUntil condition) m₁ body m' ∧ m'.PushesAtCeiling body := by
      obtain ⟨o, ho, hleaves⟩ := Machine.loopUntil_leaves hbody condition hcommands
      exact ⟨o, ho, hleaves.mono fun _ hpushes => ⟨body, hpushes.2⟩⟩
    obtain ⟨o, ho, hleaves⟩ :=
      run_cons (hpushed log' (m.operations + 1)) (Nat.le_refl _) h hloop
    exact ⟨o, ho, hleaves.mono fun _ hpushes => hpushes.behind hstep⟩

end Program.Restores

/-- **A balanced program restores the commands and the loops**, if the fuel is enough for its
bodies. -/
theorem Program.Balanced.restores {program : Program} {fuel : Nat} (h : program.Balanced)
    (hfuel : Program.nesting program ≤ fuel) : program.Restores fuel := by
  refine Structured.induction_on_nesting (motive := fun fuel program => program.Restores fuel)
    ?nil ?single ?jumpIfTrue ?jumpIfFalse ?mapArray ?loop h hfuel
  case nil => exact fun _ m => ⟨_, rfl, .of_controls (.refl m _)⟩
  case single => exact fun hi hreset hrest => .single hi hreset hrest
  case jumpIfTrue => exact fun hinner hrest => .jump (fun _ _ => rfl) .jumpIfTrue hinner hrest
  case jumpIfFalse => exact fun hinner hrest => .jump (fun _ _ => rfl) .jumpIfFalse hinner hrest
  case mapArray => exact fun hbody hrest => .mapArray hbody hrest
  case loop => exact fun condition hbody hrest => .loop hbody condition hrest

namespace Machine

/-- **A loop with a balanced body cleans up after itself**, on any machine that has the body on top
of its command stack. The loop ends. Whether it succeeds or fails, the loop level and the counters
of the loops around it are as they were, and the body is gone from the command stack.

The exception is a push inside the loop that is one instruction too many. It fails with the pushed
body on the stack, which the loop takes off in place of its own. -/
theorem loopUntil_cleans_up {body : Program} (hbody : body.Balanced) (condition : StopCondition)
    {m : Machine} {below : List Program} (hm : m.commands.items = body :: below) :
    ∃ o, (∀ fuel, Program.nesting body ≤ fuel →
        m.carryOut (run fuel) (.loopUntil condition) = some o) ∧
      o.machine.loopLevel = m.loopLevel ∧
      (∀ level ≤ m.loopLevel,
        o.machine.loopCounters.get? level = m.loopCounters.get? level) ∧
      (o.machine.commands.items = below ∨
        o.machine.commands.items = body :: below ∧
          (∃ e limit, o.error? = some e ∧ e.cause = .operationLimitExceeded limit) ∧
          ∃ head, Calls (.loopUntil condition) m body head ∧ head.PushesAtCeiling body) := by
  have hcommands : m.commands = Stack.push { m.commands with items := below } body := by
    rw [Stack.push, ← hm]
  obtain ⟨o, ho, hleaves⟩ :=
    loopUntil_leaves (hbody.restores (Nat.le_refl _)) condition hcommands
  have hends (fuel : Nat) (hfuel : Program.nesting body ≤ fuel) :
      m.carryOut (run fuel) (.loopUntil condition) = some o :=
    Runner.Refines.loopUntil (fun _ _ _ hrun => run_mono hfuel hrun) ho
  refine ⟨o, hends, ?_⟩
  cases o with
  | done m' =>
    exact ⟨hleaves.level, hleaves.counters, .inl (congrArg Stack.items hleaves.commands)⟩
  | failed e m' =>
    rcases hleaves with hleaves | ⟨⟨limit, hcause⟩, _, ⟨rfl, hpushes⟩, hleaves⟩
    · exact ⟨hleaves.level, hleaves.counters, .inl (congrArg Stack.items hleaves.commands)⟩
    · exact ⟨hleaves.level, hleaves.counters, .inr
        ⟨congrArg Stack.items hleaves.commands, ⟨e, limit, rfl, hcause⟩, hpushes⟩⟩

/-- A loop in a loop asks the empty value stack for a value: both loops clean up. -/
theorem loopUntil_cleans_up_after_underflow :
    ∃ (never : StopCondition) (m : Machine) (e : MachineError) (m' : Machine),
      (start .null {} false).execute 1
        [.pushCommand [.delete], .pushCommand [.pushCommand [.popValue], .loopUntil never]] =
          some (.done m) ∧
      m.carryOut (run 2) (.loopUntil never) = some (.failed e m') ∧
      e.cause = .stackUnderflow ⟨"value", 0, 0⟩ ∧ m'.loopLevel = 0 ∧
      m'.commands.items = [[.delete]] := by
  have hbody : Program.Balanced
      [.pushCommand [.popValue], .loopUntil (.custom ⟨0, fun _ => false⟩)] :=
    .loop _ (.single rfl nofun .nil) .nil
  refine ⟨.custom ⟨0, fun _ => false⟩, _, _, _, rfl, rfl, rfl, ?_⟩
  obtain ⟨o, hends, hlevel, -, hcommands⟩ := @loopUntil_cleans_up _ hbody
    (.custom ⟨0, fun _ => false⟩)
    { start .null {} false with
      operations := 2
      commands := ⟨"command", [[.pushCommand [.popValue],
        .loopUntil (.custom ⟨0, fun _ => false⟩)], [.delete]]⟩
      log := [.executing 2 false] } _ rfl
  cases hends 2 (Nat.le_refl _)
  rcases hcommands with hcommands | ⟨-, ⟨e, limit, he, hlimit⟩, -⟩
  · exact ⟨hlevel, hcommands⟩
  · cases he
    cases hlimit

/-- Two instructions are one too many, and the second is a push in a loop: the loop takes the pushed
body off, and its own one stays. -/
theorem loopUntil_leaves_body :
    ∃ (body : Program) (never : StopCondition) (m : Machine) (e : MachineError) (m' : Machine),
      body.Balanced ∧
      (start .null { operations := 1 } false).execute 1 [.pushCommand body] = some (.done m) ∧
      m.commands.items = [body] ∧
      m.carryOut (run 2) (.loopUntil never) = some (.failed e m') ∧
      e.cause = .operationLimitExceeded 1 ∧ m'.commands.items = [body] := by
  refine ⟨[.pushCommand [], .loopUntil (.custom ⟨1, fun _ => true⟩)],
    .custom ⟨0, fun _ => false⟩, _, _, _, ?_, rfl, rfl, rfl, rfl, rfl⟩
  exact .loop _ .nil .nil

end Machine

end Reshape
