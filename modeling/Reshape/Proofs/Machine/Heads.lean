import Reshape.Proofs.Machine.Afford
import Reshape.Proofs.Machine.Layers
import Reshape.Proofs.Machine.Typing

/-!
# The heads of a loop

A loop asks again and again whether it is to stop. Here are the machines of which it asks, in all
calls of a program, whether they succeed, fail, or do not end.

* `Machine.Asks` and `Machine.AsksIn`, for a loop and for a call;
* `exists_front`: a call gets to an instruction of its program by way of those in front of it, if
  all bodies that it runs are straight;
* `asksIn_of_run`: a call that succeeds gets to the head at which each of its loops stops;
* `LoopHead.exists_scene`: what the body of a counting loop keeps is there at each head.
-/

namespace Reshape

namespace Machine

/-- A loop that is carried out on a machine asks of `head`, behind so many rounds, whether it is to
stop. -/
def Asks (m : Machine) (condition : StopCondition) (rounds : Nat) (head : Machine) : Prop :=
  LoopHead condition (m.loopLevel + 1) m.limits.loopIterations m.enterLoop rounds head

/-- A call that executes the program on `m` gets to a loop, which asks this. -/
def AsksIn (m : Machine) (program : Program) (condition : StopCondition) (rounds : Nat)
    (head : Machine) : Prop :=
  ∃ rest s, Relation.ReflTransGen Next (program, m.record (.executing program.length m.trace))
      (.loopUntil condition :: rest, s) ∧
    (s.announce (.loopUntil condition)).Asks condition rounds head

variable {fuel : Nat} {i : Instruction} {program front rest body : Program} {m m' s head : Machine}
  {condition : StopCondition} {o : Outcome}

/-! ### Getting to an instruction -/

theorem not_calls_of_isSingle (hi : i.isSingle = true) : ¬ Calls i m body head := by
  intro h
  cases h <;> cases hi

/-- A program, and what is behind it. -/
theorem run_append {more : Nat} (h : run fuel front m = some (.done s))
    (h' : run more rest s = some o) : ∃ most, run most (front ++ rest) m = some o := by
  have hfront := run_mono (Nat.le_max_left fuel more) h
  have hrest := run_mono (Nat.le_max_right fuel more) h'
  refine ⟨max fuel more, ?_⟩
  cases hmost : max fuel more with
  | zero =>
    rw [hmost] at hfront
    cases hfront
  | succ most =>
    rw [hmost] at hfront hrest
    replace hfront : inSequence (step (run most)) front m = some (.done s) := hfront
    rw [run, inSequence_append, hfront]
    exact hrest

/-- **The way to a point.** If all bodies that are run by the instructions of a program are
straight, then each point of a run is behind a front of the program that has succeeded, or in one of
these bodies. -/
theorem exists_front {point : Point}
    (hcalls : ∀ {front i rest fuel s body head}, program = front ++ i :: rest →
      run fuel front m = some (.done s) → Calls i (s.announce i) body head → body.IsStraight)
    (h : Relation.ReflTransGen Next (program, m) point) :
    (∃ front fuel, program = front ++ point.1 ∧ run fuel front m = some (.done point.2)) ∨
      point.1.IsStraight := by
  induction h with
  | refl => exact .inl ⟨[], 1, rfl, rfl⟩
  | tail _ hnext ih =>
    cases hnext with
    | @done fuel i rest s s' hstep =>
      refine ih.imp (fun ⟨front, most, hprogram, hrun⟩ => ?_) fun hstraight j hj =>
        hstraight j (List.mem_cons_of_mem i hj)
      have hone : run (fuel + 1) [i] s = some (.done s') := by rw [run_singleton, hstep]
      obtain ⟨total, htotal⟩ := run_append hrun hone
      exact ⟨front ++ [i], total, by rw [hprogram, List.append_assoc]; rfl, htotal⟩
    | failed hstep => exact .inr .nil
    | enters hbody =>
      rcases ih with ⟨front, fuel, hprogram, hrun⟩ | hstraight
      · exact .inr (hcalls hprogram hrun hbody)
      · exact (not_calls_of_isSingle (hstraight _ List.mem_cons_self) hbody).elim

/-- A call asks at a loop of its program, behind a front that has succeeded. -/
theorem exists_front_of_asksIn {rounds : Nat}
    (hcalls : ∀ {front i rest fuel s body head}, program = front ++ i :: rest →
      run fuel front (m.record (.executing program.length m.trace)) = some (.done s) →
      Calls i (s.announce i) body head → body.IsStraight)
    (h : m.AsksIn program condition rounds head) :
    ∃ front rest fuel s, program = front ++ .loopUntil condition :: rest ∧
      run fuel front (m.record (.executing program.length m.trace)) = some (.done s) ∧
      (s.announce (.loopUntil condition)).Asks condition rounds head := by
  obtain ⟨rest, s, hreach, hasks⟩ := h
  rcases exists_front hcalls hreach with ⟨front, fuel, hprogram, hrun⟩ | hstraight
  · exact ⟨front, rest, fuel, s, hprogram, hrun, hasks⟩
  · cases hstraight _ List.mem_cons_self

/-- Single instructions ask nothing. -/
theorem not_asksIn_of_isStraight {rounds : Nat} (h : program.IsStraight) :
    ¬ m.AsksIn program condition rounds head := by
  intro hasks
  obtain ⟨front, rest, _, _, hprogram, -⟩ := exists_front_of_asksIn
    (fun hprogram _ hcalls =>
      (not_calls_of_isSingle (h _ (hprogram ▸ List.mem_append_right _ List.mem_cons_self))
        hcalls).elim) hasks
  cases h _ (hprogram ▸ List.mem_append_right front List.mem_cons_self)

/-- An instruction that runs no body, or only the single instruction that it jumps over. -/
def Plain (i : Instruction) : Prop :=
  i.isSingle = true ∨ (∃ body, i = .pushCommand body) ∨
    ∃ inner, i = .jumpIfFalse inner ∧ inner.isSingle = true

theorem Plain.isStraight_of_calls (hi : Plain i) (h : Calls i m body head) : body.IsStraight := by
  rcases hi with hsingle | ⟨pushed, rfl⟩ | ⟨inner, rfl, hinner⟩
  · exact (not_calls_of_isSingle hsingle h).elim
  · cases h
  · cases h
    exact .cons hinner .nil

theorem Plain.ne_loopUntil (hi : Plain i) : i ≠ .loopUntil condition := by
  rintro rfl
  rcases hi with hsingle | ⟨_, hpush⟩ | ⟨_, hjump, _⟩ <;> contradiction

/-- A program with a loop at its end does not hold it anywhere else. -/
theorem eq_of_append_loopUntil {condition' : StopCondition} (hplain : ∀ i ∈ program, Plain i)
    (h : program ++ [.loopUntil condition'] = front ++ .loopUntil condition :: rest) :
    front = program ∧ condition = condition' := by
  rcases List.append_eq_append_iff.1 h with ⟨behind, hfront, hloop⟩ | ⟨behind, hprogram, hloop⟩
  · cases behind with
    | nil =>
      cases hloop
      exact ⟨hfront.trans (List.append_nil _), rfl⟩
    | cons i behind => simp at hloop
  · cases behind with
    | nil =>
      cases hloop
      exact ⟨(hprogram.trans (List.append_nil _)).symm, rfl⟩
    | cons i behind =>
      cases hloop
      have hmem : .loopUntil condition ∈ program :=
        hprogram ▸ List.mem_append_right _ List.mem_cons_self
      exact ((hplain _ hmem).ne_loopUntil rfl).elim

/-- **The only loop of a program is at its end**, so a call gets to it by way of what is in front of
it. -/
theorem exists_asks {condition' : StopCondition} {rounds : Nat} (hplain : ∀ i ∈ front, Plain i)
    (hbodies : ∀ {fuel s rounds head body},
      run fuel front (m.record (.executing (front.length + 1) m.trace)) = some (.done s) →
      (s.announce (.loopUntil condition')).Asks condition' rounds head →
      head.commands.peek = .ok body → body.IsStraight)
    (h : m.AsksIn (front ++ [.loopUntil condition']) condition rounds head) :
    ∃ fuel s,
      run fuel front (m.record (.executing (front.length + 1) m.trace)) = some (.done s) ∧
      (s.announce (.loopUntil condition')).Asks condition' rounds head := by
  have hlength : (front ++ [Instruction.loopUntil condition']).length = front.length + 1 :=
    List.length_append
  have hcalls {before : Program} {i : Instruction} {rest : Program} {fuel : Nat} {s : Machine}
      {body : Program} {head : Machine}
      (hprogram : front ++ [.loopUntil condition'] = before ++ i :: rest)
      (hrun : run fuel before (m.record (.executing
        (front ++ [Instruction.loopUntil condition']).length m.trace)) = some (.done s))
      (hcalls : Calls i (s.announce i) body head) : body.IsStraight := by
    have hmem : i ∈ front ++ [.loopUntil condition'] :=
      hprogram ▸ List.mem_append_right _ List.mem_cons_self
    rcases List.mem_append.1 hmem with hi | hi
    · exact (hplain i hi).isStraight_of_calls hcalls
    · obtain rfl := List.mem_singleton.1 hi
      obtain ⟨rfl, -⟩ := eq_of_append_loopUntil hplain hprogram
      cases hcalls with
      | loop hhead _ _ hbody => exact hbodies (hlength ▸ hrun) hhead hbody
  obtain ⟨before, rest, fuel, s, hprogram, hrun, hasks⟩ := exists_front_of_asksIn hcalls h
  obtain ⟨rfl, rfl⟩ := eq_of_append_loopUntil hplain hprogram
  exact ⟨fuel, s, hlength ▸ hrun, hasks⟩

/-- A front that succeeds leads to what is behind it. -/
theorem reaches_of_run (h : run fuel front m = some (.done s)) :
    Relation.ReflTransGen Next (front ++ rest, m) (rest, s) := by
  cases fuel with
  | zero => cases h
  | succ fuel =>
    induction front generalizing m with
    | nil =>
      cases h
      exact .refl
    | cons i front ih =>
      rw [run, inSequence] at h
      split at h
      next m₁ hstep => exact .head (.done hstep) (ih h)
      next hother => exact absurd h (hother s)

/-- A call that succeeds gets to the head at which its loop stops. -/
theorem asksIn_of_run
    (h : m.execute fuel (front ++ .loopUntil condition :: rest) = some (.done m')) :
    ∃ rounds head, m.AsksIn (front ++ .loopUntil condition :: rest) condition rounds head ∧
      condition.isMet head = .ok true := by
  obtain ⟨s, hfront, hloop⟩ := exists_of_run_append h
  cases fuel with
  | zero => cases hloop
  | succ fuel =>
    obtain ⟨m₁, hstep, -⟩ := exists_of_run_cons hloop
    rw [step_eq] at hstep
    obtain ⟨o, ho, hfinish⟩ := Option.map_eq_some_iff.1 hstep
    obtain ⟨rounds, ending, hends, rfl⟩ := loopUntil_eq_some_iff.1 ho
    have hstart := (s.announce (.loopUntil condition)).counted_enterLoop
    cases hends with
    | met hrounds hmet =>
      exact ⟨rounds, _, ⟨rest, s, reaches_of_run hfront, hrounds.loopHead hstart⟩, hmet⟩
    | _ => cases hfinish

end Machine

/-! ### Scenes -/

variable {α : Type} {limits : Limits} {fuel count : Nat} {body : Program}
  {elements values : List Json} {commands : List Program} {cells : List Cell}

/-- A typed program leaves the loop level. -/
theorem Program.Typed.loopLevel_eq {program : Program} {shape final : Shape} {s : Scene}
    {m m' : Machine} (h : Program.Typed program shape final) (hs : s.Fits shape)
    (hm : m.At m.limits s) (ho : Machine.run fuel program m = some (.done m')) :
    m'.loopLevel = m.loopLevel := by
  obtain ⟨o, ho', hfits⟩ := h.leads (Nat.le_refl _) m _ _ ⟨rfl, s, hm, rfl, hs⟩
  cases Machine.run_eq_of_run ho ho'
  exact hfits.level

variable {step : Nat → α → Except Fault α} {R : Nat → α → Place → Nat → Prop}

/-- The head of a counting loop has the shape of its body. -/
theorem HeadScene.fits {i : Nat} {a : α} {s : Scene}
    (hs : HeadScene elements values commands body count R i a s) (hi : i ≤ 2 ^ 53)
    (hvalues : List.Forall₂ Cell.Admits cells values) :
    s.Fits ⟨elements.length, .word :: .number :: cells⟩ := by
  obtain ⟨p, operations, -, rfl⟩ := hs
  have hcounter : Cell.word.Admits (Json.ofNat i) := ⟨_, (Json.ofWord_add (b := 0) hi).symm⟩
  exact ⟨rfl, .cons hcounter (.cons ⟨_, rfl⟩ hvalues)⟩

/-- **At each head of a counting loop** there is the scene that goes with the rounds so far, and no
more rounds than the bound. The loop level is that of the start. -/
theorem Machine.LoopHead.exists_scene {start : α} {level rounds : Nat} {s : Scene}
    {m head : Machine} (hcount : count ≤ 2 ^ 53)
    (hbody : ∀ i a s, i < count → i < limits.loopIterations →
      HeadScene elements values commands body count R i a s →
      Realizes limits fuel body s (step i a)
        (HeadScene elements values commands body count R (i + 1)))
    (htyped : Program.Typed body ⟨elements.length, .word :: .number :: cells⟩
      ⟨elements.length, .word :: .number :: cells⟩)
    (hvalues : List.Forall₂ Cell.Admits cells values)
    (hs : HeadScene elements values commands body count R 0 start s) (hm : m.At limits s)
    (h : LoopHead (.reached 0 1) level limits.loopIterations m rounds head) :
    rounds ≤ count ∧ head.loopLevel = m.loopLevel ∧ ∃ a s,
      (List.range rounds).foldlM (fun a i => step i a) start = .ok a ∧
        HeadScene elements values commands body count R rounds a s ∧ head.At limits s := by
  induction h with
  | zero => exact ⟨Nat.zero_le _, rfl, start, s, rfl, hs, hm⟩
  | @succ rounds fuel' head m' _ hunmet hlimit hround ih =>
    obtain ⟨hle, hlevel, a, s, hfold, hs, hhead⟩ := ih
    obtain ⟨hpeek, below, hitems⟩ := hs.head hhead
    rw [isMet_reached (by omega) hcount hitems] at hunmet
    have hlt : rounds < count := by
      simpa using hunmet
    rw [runCommand, hpeek] at hround
    obtain ⟨o, ho, hagrees⟩ := hbody rounds a s hlt hlimit hs head hhead
    cases run_eq_of_run hround ho
    cases hagrees with
    | @done a' s' _ hr hm' hs' =>
      have hkept : m'.loopLevel = head.loopLevel :=
        htyped.loopLevel_eq (hs.fits (by omega) hvalues) (hhead.limits ▸ hhead) hround
      exact ⟨hlt, hkept.trans hlevel, a', s', foldlM_range_succ hfold hr, hs', { hm' with }⟩

end Reshape
