import Reshape.Move.Program
import Reshape.Proofs.Machine.Scene
import Reshape.Proofs.Machine.Step

/-!
# Programs on scenes

On a scene, a program is compared with a function that may find fault with the document. The
comparison holds of a program if it holds of its parts.

* `Outcome.Agrees`, the end of a run and the result of a function;
* `Realizes`, with `Realizes.append` and `Realizes.next` to put programs together;
* `realizes_jumpIfFalse_false` and `realizes_jumpIfFalse_true`, for a conditional instruction;
* `iterate_ends`, for the rounds of a counting loop: what one round keeps, all rounds keep;
* `realizes_countingLoop`, for a loop: its body makes one step of a fold, and keeps a relation
  between the value of the fold and the place of the machine.
-/

namespace Reshape

variable {α β : Type} {limits : Limits} {fuel : Nat}

/-- A run ends as a result tells, or at a ceiling. -/
inductive Outcome.Agrees (limits : Limits) (result : Except Fault α) (Q : α → Scene → Prop) :
    Outcome → Prop
  | done {a : α} {s : Scene} {m : Machine} (hr : result = .ok a) (hm : m.At limits s)
    (hq : Q a s) : Agrees limits result Q (.done m)
  | ceiling {e : MachineError} (m : Machine) (hc : e.cause.IsCeiling) :
    Agrees limits result Q (.failed e m)
  | fault {e : MachineError} {fault : Fault} (m : Machine) (hr : result = .error fault)
    (he : fault.Explains e.cause) : Agrees limits result Q (.failed e m)

/-- On a scene, a program comes to a result: it leaves a scene that goes with it, or fails for the
same reason, unless it stops at a ceiling. -/
def Realizes (limits : Limits) (fuel : Nat) (program : Program) (s : Scene)
    (result : Except Fault α) (Q : α → Scene → Prop) : Prop :=
  ∀ m, m.At limits s →
    ∃ o, Machine.run fuel program m = some o ∧ Outcome.Agrees limits result Q o

/-! ### Outcomes -/

namespace Outcome.Agrees

variable {result : Except Fault α} {Q : α → Scene → Prop} {o : Outcome}

theorem mono {Q' : α → Scene → Prop} (h : Agrees limits result Q o)
    (hq : ∀ a s, result = .ok a → Q a s → Q' a s) : Agrees limits result Q' o := by
  rcases h with ⟨hr, hm, h⟩ | ⟨m, hc⟩ | ⟨m, hr, he⟩
  · exact .done hr hm (hq _ _ hr h)
  · exact .ceiling m hc
  · exact .fault m hr he

/-- Machines may be changed in what their scenes do not show. -/
theorem map {Q' : α → Scene → Prop} (h : Agrees limits result Q o) {f : Machine → Machine}
    (hf : ∀ a s m, Q a s → m.At limits s → ∃ s', (f m).At limits s' ∧ Q' a s') :
    Agrees limits result Q' (o.map f) := by
  rcases h with ⟨hr, hm, h⟩ | ⟨m, hc⟩ | ⟨m, hr, he⟩
  · obtain ⟨s', hm', hq'⟩ := hf _ _ _ h hm
    exact .done hr hm' hq'
  · exact .ceiling _ hc
  · exact .fault _ hr he

theorem ofEffect {r : Except Fault Scene} {e : Effect Unit} {m : Machine}
    (h : Shows limits (e.run m) r) : Agrees limits r (fun s t => t = s) (.ofEffect e m) := by
  unfold Outcome.ofEffect
  generalize e.run m = left at h ⊢
  cases h with
  | ok hm => exact .done rfl hm rfl
  | error m he => exact .fault m rfl he

end Outcome.Agrees

/-- An instruction is counted when it has been carried out, and puts a frame around an error. -/
theorem step_agrees {run : Runner} {i : Instruction} {m : Machine} {o : Outcome}
    {result : Except Fault α} {Q : α → Scene → Prop}
    (hrun : (m.announce i).carryOut run i = some o) (h : o.Agrees limits result Q) :
    ∃ o', Machine.step run i m = some o' ∧
      o'.Agrees limits result (fun a s => ∃ t, Q a t ∧ s = t.tick) := by
  unfold Machine.step
  rw [hrun]
  rcases h with @⟨a, s, m, hr, hm, hq⟩ | ⟨m, hc⟩ | ⟨m, hr, he⟩
  · refine ⟨_, rfl, ?_⟩
    unfold Machine.complete
    simp only
    split
    · -- The instruction was one too many.
      exact .ceiling _ trivial
    · have hconfirm := hm.confirm i
      have htick : ({ m.confirm i with operations := (m.confirm i).operations + 1 } :
          Machine).At limits s.tick :=
        { hconfirm with operations := congrArg (· + 1) hconfirm.operations }
      exact .done hr htick ⟨s, hq, rfl⟩
  · exact ⟨_, rfl, .ceiling _ hc⟩
  · exact ⟨_, rfl, .fault _ hr he⟩

/-! ### Programs -/

namespace Realizes

variable {p q : Program} {s : Scene} {r : Except Fault α} {Q Q' : α → Scene → Prop}

theorem mono (h : Realizes limits fuel p s r Q) (hq : ∀ a s, r = .ok a → Q a s → Q' a s) :
    Realizes limits fuel p s r Q' := by
  intro m hm
  obtain ⟨o, ho, hagrees⟩ := h m hm
  exact ⟨o, ho, hagrees.mono hq⟩

theorem nil {a : α} (hq : Q a s) : Realizes limits (fuel + 1) [] s (.ok a) Q :=
  fun m hm => ⟨.done m, rfl, .done rfl hm hq⟩

end Realizes

/-! ### One program behind another -/

namespace Realizes

variable {p q : Program} {s : Scene} {r : Except Fault α} {Q : α → Scene → Prop}
  {Q' : β → Scene → Prop} {f : α → Except Fault β}

/-- One program behind another comes to the second result by way of the first. -/
theorem append (h : Realizes limits fuel p s r Q)
    (h' : ∀ a s', r = .ok a → Q a s' → Realizes limits fuel q s' (f a) Q') :
    Realizes limits fuel (p ++ q) s (r >>= f) Q' := by
  intro m hm
  obtain ⟨o, ho, hagrees⟩ := h m hm
  cases fuel with
  | zero => cases ho
  | succ fuel =>
    replace ho : inSequence (Machine.step (Machine.run fuel)) p m = some o := ho
    rw [Machine.run, inSequence_append, ho]
    rcases hagrees with ⟨hr, hm', hq⟩ | ⟨m', hc⟩ | ⟨m', hr, he⟩
    · obtain ⟨o', ho', hagrees'⟩ := h' _ _ hr hq _ hm'
      exact ⟨o', ho', by rwa [hr, ok_bind]⟩
    · exact ⟨_, rfl, .ceiling m' hc⟩
    · exact ⟨_, rfl, .fault m' (by rw [hr, error_bind]) he⟩

/-- One instruction in front of a program. -/
theorem cons {i : Instruction} (h : Realizes limits fuel [i] s r Q)
    (h' : ∀ a s', r = .ok a → Q a s' → Realizes limits fuel q s' (f a) Q') :
    Realizes limits fuel (i :: q) s (r >>= f) Q' :=
  h.append h'

end Realizes

/-- An instruction of which it is known what it does when it is carried out. -/
theorem realizes_of_carryOut {i : Instruction} {s : Scene} {r : Except Fault α}
    {Q : α → Scene → Prop}
    (h : ∀ m : Machine, m.At limits s → ∃ o, Machine.carryOut (Machine.run fuel) i m = some o ∧
      o.Agrees limits r Q) :
    Realizes limits (fuel + 1) [i] s r (fun a s => ∃ t, Q a t ∧ s = t.tick) := by
  intro m hm
  obtain ⟨o, ho, hagrees⟩ := h _ (hm.announce i)
  obtain ⟨o', ho', hagrees'⟩ := step_agrees ho hagrees
  refine ⟨o', ?_, hagrees'⟩
  rw [Machine.run_singleton, ho']

theorem Acts.realizes {i : Instruction} {s : Scene} {r : Except Fault Scene}
    (h : Acts limits i s r) :
    Realizes limits (fuel + 1) [i] s r (fun s' t => t = s'.tick) := by
  refine (realizes_of_carryOut fun m hm => ⟨_, h.1 _ m, .ofEffect (h.2 m hm)⟩).mono ?_
  rintro s' t - ⟨s', rfl, rfl⟩
  rfl

/-- An instruction that cannot fail, in front of a program. -/
theorem Realizes.next {i : Instruction} {q : Program} {s s' : Scene} {r : Except Fault β}
    {Q : β → Scene → Prop} (h : Acts limits i s (.ok s'))
    (h' : Realizes limits (fuel + 1) q s'.tick r Q) :
    Realizes limits (fuel + 1) (i :: q) s r Q := by
  refine Realizes.cons (f := fun _ => r) h.realizes ?_
  rintro a t ha rfl
  cases ha
  exact h'

/-! ### Jumps and loops -/

variable {p : Place} {elements values : List Json} {commands : List Program} {operations : Nat}

/-- A jump on false runs its instruction. -/
theorem realizes_jumpIfFalse_false {inner : Instruction} {r : Except Fault α}
    {Q : α → Scene → Prop}
    (h : Realizes limits fuel [inner] ⟨p, elements, values, commands, operations⟩ r Q) :
    Realizes limits (fuel + 1) [.jumpIfFalse inner]
      ⟨p, elements, .bool false :: values, commands, operations⟩ r
      (fun a s => ∃ t, Q a t ∧ s = t.tick) := by
  refine realizes_of_carryOut fun m hm => ?_
  have hpop := Stack.pop_of_items hm.values
  simp only [Machine.carryOut, Machine.jump, Effect.run_takeValue, hpop]
  exact h _ (hm.leaveValues values)

/-- A jump on true passes over its instruction. -/
theorem realizes_jumpIfFalse_true (inner : Instruction) :
    Realizes limits (fuel + 1) [.jumpIfFalse inner]
      ⟨p, elements, .bool true :: values, commands, operations⟩ (.ok ()) fun _ s =>
        s = ⟨p, elements, values, commands, operations + 1⟩ := by
  refine (realizes_of_carryOut (Q := fun _ s => s = ⟨p, elements, values, commands, operations⟩)
    fun m hm => ?_).mono ?_
  · have hpop := Stack.pop_of_items hm.values
    simp only [Machine.carryOut, Machine.jump, Effect.run_takeValue, hpop]
    exact ⟨_, rfl, .done rfl (hm.leaveValues values) rfl⟩
  · rintro _ _ - ⟨_, rfl, rfl⟩
    rfl

theorem numberAt_eq {m : Machine} {depth : Nat} {n : Number}
    (h : m.values.items[depth]? = some (.number n)) : m.numberAt depth = .ok n := by
  simp only [Machine.numberAt, Stack.peekAt, h]
  rfl

/-- A loop over a count stops when its counter has reached the bound. -/
theorem isMet_reached {m : Machine} {i count : Nat} (hi : i ≤ 2 ^ 53) (hc : count ≤ 2 ^ 53)
    (hv : m.values.items = Json.ofNat i :: Json.ofNat count :: values) :
    (StopCondition.reached 0 1).isMet m = .ok (decide (count ≤ i)) := by
  have hlen : ¬ m.values.length ≤ max 0 1 := by
    simp [Stack.length, hv]
  have hcounter : m.numberAt 0 = .ok (Number.ofNat i) := numberAt_eq (by rw [hv]; rfl)
  have hbound : m.numberAt 1 = .ok (Number.ofNat count) := numberAt_eq (by rw [hv]; rfl)
  simp only [StopCondition.isMet, if_neg hlen, hcounter, hbound, Number.le_ofNat hc hi]

section Loop

variable {body : Program} {count : Nat}

/-- The end of a run is one of certain machines, or one of certain failures. -/
def Outcome.Ends (D : Machine → Prop) (F : MachineError → Machine → Prop) : Outcome → Prop
  | .done m => D m
  | .failed e m => F e m

/-- The rounds of a counting loop, one by one. `H i` holds at the head of the loop behind `i` rounds,
and `F` holds if a round fails or there are too many. -/
theorem iterate_ends {H : Nat → Machine → Prop} {F : MachineError → Machine → Prop}
    (run : Runner) (body : Program) (level : Nat) {limit : Nat} (hcount : count ≤ 2 ^ 53)
    (hhead : ∀ i m, H i m → m.commands.peek = .ok body ∧
      ∃ values, m.values.items = Json.ofNat i :: Json.ofNat count :: values)
    (hround : ∀ i m, i < count → i < limit → H i m → ∃ o, run body m = some o ∧
      o.Ends (fun m' => H (i + 1) (m'.setCounter level (i + 1))) F)
    (hover : limit < count → ∀ m, F (.bare (.loopLimitExceeded level limit)) m)
    {i remaining : Nat} (hi : i ≤ count) (hremaining : i + remaining = limit) {m : Machine}
    (hm : H i m) :
    ∃ o, Machine.iterate run (.reached 0 1) level limit remaining m = some o ∧
      o.Ends (H count) F := by
  induction remaining generalizing i m with
  | zero =>
    obtain ⟨-, values, hvalues⟩ := hhead i m hm
    rw [Machine.iterate, isMet_reached (by omega) hcount hvalues]
    by_cases hend : count ≤ i
    · obtain rfl : i = count := Nat.le_antisymm hi hend
      exact ⟨.done m, by rw [decide_eq_true hend], hm⟩
    · rw [decide_eq_false hend]
      exact ⟨_, rfl, hover (by omega) m⟩
  | succ remaining ih =>
    obtain ⟨hpeek, values, hvalues⟩ := hhead i m hm
    rw [Machine.iterate, isMet_reached (by omega) hcount hvalues]
    by_cases hend : count ≤ i
    · obtain rfl : i = count := Nat.le_antisymm hi hend
      exact ⟨.done m, by rw [decide_eq_true hend], hm⟩
    · obtain ⟨o, ho, hends⟩ := hround i m (by omega) (by omega) hm
      simp only [decide_eq_false hend, Machine.runCommand, hpeek, ho]
      cases o with
      | done m' =>
        have hrounds : limit - remaining = i + 1 := by omega
        rw [hrounds]
        exact ih (by omega) (by omega) hends
      | failed e m' => exact ⟨_, rfl, hends⟩

variable {step : Nat → α → Except Fault α} {R : Nat → α → Place → Nat → Prop}

/-- The scene at the head of a counting loop goes with the value of its fold. -/
def HeadScene (elements values : List Json) (commands : List Program) (body : Program)
    (count : Nat) (R : Nat → α → Place → Nat → Prop) (i : Nat) (a : α) (s : Scene) : Prop :=
  ∃ p operations, R i a p operations ∧
    s = ⟨p, elements, Json.ofNat i :: Json.ofNat count :: values, body :: commands, operations⟩

/-- A machine at the head of a counting loop. -/
theorem HeadScene.head {i : Nat} {a : α} {s : Scene}
    (hs : HeadScene elements values commands body count R i a s) {m : Machine}
    (hm : m.At limits s) : m.commands.peek = .ok body ∧
      ∃ values, m.values.items = Json.ofNat i :: Json.ofNat count :: values := by
  obtain ⟨p, operations, -, rfl⟩ := hs
  exact ⟨by simp [Stack.peek, Stack.peekAt, hm.commands], values, hm.values⟩

/-- What is left of a counting loop is what is left of the fold. -/
theorem iterate_agrees (level : Nat) {start : α} (hcount : count ≤ 2 ^ 53)
    (hbody : ∀ i a s, i < count → i < limits.loopIterations →
      HeadScene elements values commands body count R i a s →
      Realizes limits fuel body s (step i a)
        (HeadScene elements values commands body count R (i + 1)))
    {s : Scene} (hs : HeadScene elements values commands body count R 0 start s) {m : Machine}
    (hm : m.At limits s) :
    ∃ o, Machine.iterate (Machine.run fuel) (.reached 0 1) level limits.loopIterations
        limits.loopIterations m = some o ∧
      o.Agrees limits ((List.range count).foldlM (fun a i => step i a) start)
        (HeadScene elements values commands body count R count) := by
  obtain ⟨o, ho, hends⟩ : ∃ o, Machine.iterate (Machine.run fuel) (.reached 0 1) level
      limits.loopIterations limits.loopIterations m = some o ∧ o.Ends
        (fun m => ∃ a s, (List.range count).foldlM (fun a i => step i a) start = .ok a ∧
          HeadScene elements values commands body count R count a s ∧ m.At limits s)
        fun e _ => e.cause.IsCeiling ∨ ∃ fault,
          (List.range count).foldlM (fun a i => step i a) start = .error fault ∧
            fault.Explains e.cause := by
    refine iterate_ends (H := fun i m => ∃ a s,
      (List.range i).foldlM (fun a i => step i a) start = .ok a ∧
        HeadScene elements values commands body count R i a s ∧ m.At limits s)
      _ body level hcount ?_ ?_ ?_ (Nat.zero_le count) (Nat.zero_add _) ⟨start, s, rfl, hs, hm⟩
    · rintro i m ⟨a, s, -, hs, hm⟩
      exact hs.head hm
    · -- The body makes the next step of the fold.
      rintro i m hi hlimit ⟨a, s, hfold, hs, hm⟩
      obtain ⟨o, ho, hagrees⟩ := hbody i a s hi hlimit hs m hm
      refine ⟨o, ho, ?_⟩
      rcases hagrees with @⟨a', s', m', hr, hm', hs'⟩ | ⟨m', hceiling⟩ | ⟨m', hr, he⟩
      · exact ⟨a', s', foldlM_range_succ hfold hr, hs', { hm' with }⟩
      · exact .inl hceiling
      · exact .inr ⟨_, foldlM_range_error hfold hr hi, he⟩
    · exact fun _ _ => .inl trivial
  refine ⟨o, ho, ?_⟩
  cases o with
  | done m' =>
    obtain ⟨a, s', hfold, hs', hm'⟩ := hends
    exact .done hfold hm' hs'
  | failed e m' =>
    rcases hends with hceiling | ⟨fault, hfold, he⟩
    · exact .ceiling m' hceiling
    · exact .fault m' hfold he

/-- **A counting loop realizes a fold** over the numbers below its bound, if its body realizes one
step of the fold. -/
theorem realizes_countingLoop {start : α} (hcount : count ≤ 2 ^ 53)
    (hbody : ∀ i a s, i < count → i < limits.loopIterations →
      HeadScene elements values commands body count R i a s →
      Realizes limits fuel body s (step i a)
        (HeadScene elements values commands body count R (i + 1)))
    (hstart : R 0 start p (operations + 1)) :
    Realizes limits (fuel + 1) (Move.countingLoop body)
      ⟨p, elements, Json.ofNat 0 :: Json.ofNat count :: values, commands, operations⟩
      ((List.range count).foldlM (fun a i => step i a) start)
      fun a s => ∃ p operations, R count a p operations ∧
        s = ⟨p, elements, Json.ofNat count :: Json.ofNat count :: values, commands,
          operations + 1⟩ := by
  refine .next (acts_pushCommand body) ?_
  have hhead : HeadScene elements values commands body count R 0 start
      ⟨p, elements, Json.ofNat 0 :: Json.ofNat count :: values, body :: commands,
        operations + 1⟩ := ⟨p, _, hstart, rfl⟩
  refine (realizes_of_carryOut (Q := fun a s => ∃ p operations, R count a p operations ∧
    s = ⟨p, elements, Json.ofNat count :: Json.ofNat count :: values, commands, operations⟩)
    fun m hm => ?_).mono ?_
  · have henter : m.enterLoop.At limits _ := { hm with }
    obtain rfl := hm.limits
    obtain ⟨o, ho, hagrees⟩ := iterate_agrees (m.loopLevel + 1) hcount hbody hhead henter
    refine ⟨o.map (Machine.leaveLoop (m.loopLevel + 1) o.isDone), ?_, hagrees.map ?_⟩
    · simp only [Machine.carryOut, Machine.loopUntil, ho]
    · rintro a s m' ⟨p, operations, hR, rfl⟩ hm'
      refine ⟨⟨p, elements, Json.ofNat count :: Json.ofNat count :: values, commands, operations⟩,
        { hm' with commands := ?_ }, p, operations, hR, rfl⟩
      exact congrArg List.tail hm'.commands
  · rintro a s - ⟨t, ⟨p, operations, hR, rfl⟩, rfl⟩
    exact ⟨p, operations, hR, rfl⟩

end Loop

end Reshape
