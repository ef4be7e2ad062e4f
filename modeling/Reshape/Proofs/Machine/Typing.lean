import Mathlib.Data.List.Forall2
import Reshape.Move.Apply
import Reshape.Proofs.Machine.Footprint
import Reshape.Proofs.Machine.Realize

/-!
# Types of programs

What a program needs on the stacks of data, and what it leaves there, can be told from the program
alone. A program with a type never asks a stack for what it does not have, never takes a value of
the wrong kind, and never loses the node of its cursor, whatever the document and the ceilings are.

* `Cell` and `Shape`, what is known of a value and of the stacks of data;
* `Instruction.Typed` and `Program.Typed`, from one shape to another;
* `Failure.IsMisuse`, the failures that only a program is to blame for;
* `Machine.Fits` and `Outcome.Fits`, the machines of a shape, and the ends of a run that lead to
  one;
* `Program.Leads` and `Program.Typed.leads`: a typed program leads from one shape to the other, and
  leaves the command stack and the loop level as they were, or fails without misuse.
-/

namespace Reshape

/-! ### Shapes -/

/-- What is known of a value. -/
inductive Cell where
  /-- It is a boolean. -/
  | truth
  /-- It is a number. -/
  | number
  /-- It is a finite number, of which arithmetic can take the integer part. -/
  | finite
  /-- It is the number of a word. Arithmetic makes such numbers, and they are positions. -/
  | word

namespace Cell

/-- The values of which a cell is known. -/
def Admits : Cell → Json → Prop
  | truth, v => ∃ b, v = .bool b
  | number, v => ∃ n, v = .number n
  | finite, v => ∃ word, v.toWord? = some word
  | word, v => ∃ word, v = Json.ofWord word

/-- A value of the cell is a number. -/
def IsNumber (cell : Cell) : Prop := cell ≠ truth

/-- A value of the cell is a finite number. -/
def IsFinite (cell : Cell) : Prop := cell = finite ∨ cell = word

theorem isNumber_number : number.IsNumber := nofun

theorem isNumber_word : word.IsNumber := nofun

theorem isFinite_finite : finite.IsFinite := .inl rfl

theorem isFinite_word : word.IsFinite := .inr rfl

theorem exists_toWord? {cell : Cell} {v : Json} (h : cell.IsFinite) (hv : cell.Admits v) :
    ∃ word, v.toWord? = some word := by
  rcases h with rfl | rfl
  · exact hv
  · obtain ⟨word, rfl⟩ := hv
    exact Json.exists_toWord?_ofWord word

theorem exists_number {cell : Cell} {v : Json} (h : cell.IsNumber) (hv : cell.Admits v) :
    ∃ n, v = .number n := by
  cases cell with
  | truth => exact (h rfl).elim
  | number => exact hv
  | finite =>
    obtain ⟨word, hword⟩ := hv
    cases v with
    | number n => exact ⟨n, rfl⟩
    | _ => cases hword
  | word =>
    obtain ⟨word, rfl⟩ := hv
    exact ⟨_, rfl⟩

end Cell

/-- What is known of the stacks of data: how many elements there are, and what the values are, the
top first. -/
structure Shape where
  elements : Nat
  values : List Cell

/-- The stacks of data of a scene are of a shape. -/
structure Scene.Fits (s : Scene) (shape : Shape) : Prop where
  elements : s.elements.length = shape.elements
  values : List.Forall₂ Cell.Admits shape.values s.values

/-! ### Types -/

/-- A single instruction leads from one shape to another. -/
inductive Instruction.Typed : Instruction → Shape → Shape → Prop
  | moveToRoot {shape : Shape} : Typed .moveToRoot shape shape
  | moveOut {shape : Shape} : Typed .moveOut shape shape
  | moveIntoField (mode : FieldMode) (name : String) {shape : Shape} :
      Typed (.moveIntoField mode name) shape shape
  | intoGiven (word : Int64) {shape : Shape} :
      Typed (.moveIntoIndex (.given (Json.ofWord word))) shape shape
  | intoCounter {count : Nat} {cells : List Cell} :
      Typed (.moveIntoIndex (.value 0)) ⟨count, .word :: cells⟩ ⟨count, .word :: cells⟩
  | pushElement {count : Nat} {cells : List Cell} :
      Typed .pushElement ⟨count, cells⟩ ⟨count + 1, cells⟩
  | popElement {count : Nat} {cells : List Cell} :
      Typed .popElement ⟨count + 1, cells⟩ ⟨count, cells⟩
  | storeElement (value : Json) {shape : Shape} : Typed (.storeElement value) shape shape
  | duplicateElement {count : Nat} {cells : List Cell} :
      Typed .duplicateElement ⟨count + 1, cells⟩ ⟨count + 2, cells⟩
  | mapElement (table : Mapping) {count : Nat} {cells : List Cell} :
      Typed (.mapElement table) ⟨count + 1, cells⟩ ⟨count + 1, cells⟩
  | storeGiven {value : Json} {cell : Cell} (h : cell.Admits value) {count : Nat}
      {cells : List Cell} : Typed (.storeGiven value) ⟨count, cells⟩ ⟨count, cell :: cells⟩
  | storeValue {depth : Nat} {cell : Cell} {cells : List Cell} (h : cells[depth]? = some cell)
      {count : Nat} : Typed (.storeValue (.value depth)) ⟨count, cells⟩ ⟨count, cell :: cells⟩
  | storeSize {count : Nat} {cells : List Cell} :
      Typed .storeSize ⟨count, cells⟩ ⟨count, .number :: cells⟩
  | popValue {cell : Cell} {count : Nat} {cells : List Cell} :
      Typed .popValue ⟨count, cell :: cells⟩ ⟨count, cells⟩
  | increment {cell : Cell} (h : cell.IsFinite) {count : Nat} {cells : List Cell} :
      Typed .increment ⟨count, cell :: cells⟩ ⟨count, .word :: cells⟩
  | add {first second : Cell} (hf : first.IsFinite) (hs : second.IsFinite) {count : Nat}
      {cells : List Cell} : Typed .add ⟨count, second :: first :: cells⟩ ⟨count, .word :: cells⟩
  | compare {first second : Cell} (hf : first.IsNumber) (hs : second.IsNumber) {count : Nat}
      {cells : List Cell} :
      Typed (.compare .ge) ⟨count, second :: first :: cells⟩ ⟨count, .truth :: cells⟩

/-- A program leads from one shape to another. A loop comes with its body, which leads from the
shape with the counter and the bound to itself. -/
inductive Program.Typed : Program → Shape → Shape → Prop
  | nil {shape : Shape} : Typed [] shape shape
  | cons {i : Instruction} {rest : Program} {shape middle final : Shape}
      (hi : i.Typed shape middle) (h : Typed rest middle final) : Typed (i :: rest) shape final
  | jump {inner : Instruction} {rest : Program} {count : Nat} {cells : List Cell} {final : Shape}
      (hi : inner.Typed ⟨count, cells⟩ ⟨count, cells⟩) (h : Typed rest ⟨count, cells⟩ final) :
      Typed (.jumpIfFalse inner :: rest) ⟨count, .truth :: cells⟩ final
  | loop {body rest : Program} {count : Nat} {cells : List Cell} {final : Shape}
      (hbody : Typed body ⟨count, .word :: .number :: cells⟩ ⟨count, .word :: .number :: cells⟩)
      (h : Typed rest ⟨count, .word :: .number :: cells⟩ final) :
      Typed (.pushCommand body :: .loopUntil (.reached 0 1) :: rest)
        ⟨count, .word :: .number :: cells⟩ final

theorem Program.Typed.append {first second : Program} {shape middle final : Shape}
    (h : Typed first shape middle) (h' : Typed second middle final) :
    Typed (first ++ second) shape final := by
  induction h with
  | nil => exact h'
  | cons hi _ ih => exact .cons hi (ih h')
  | jump hi _ ih => exact .jump hi (ih h')
  | loop hbody _ _ ih => exact .loop hbody (ih h')

/-! ### Single instructions -/

variable {limits : Limits} {shape shape' : Shape} {commands : List Program} {level : Nat}
  {m : Machine} {o : Outcome}

theorem forall₂_getElem? {cells : List Cell} {values : List Json}
    (h : List.Forall₂ Cell.Admits cells values) {depth : Nat} {cell : Cell}
    (hcell : cells[depth]? = some cell) :
    ∃ value, values[depth]? = some value ∧ cell.Admits value := by
  induction h generalizing depth with
  | nil => cases hcell
  | cons hv _ ih =>
    cases depth with
    | zero =>
      cases hcell
      exact ⟨_, rfl, hv⟩
    | succ depth => exact ih hcell

/-- On a scene of its first shape, a typed instruction comes to a scene of the second, or finds
fault with the document. -/
theorem Instruction.Typed.acts {i : Instruction} (h : i.Typed shape shape') {s : Scene}
    (hs : s.Fits shape) :
    ∃ result, Acts limits i s result ∧
      ∀ t, result = .ok t → t.Fits shape' ∧ t.commands = s.commands := by
  obtain ⟨p, elements, values, commands, operations⟩ := s
  obtain ⟨he, hv⟩ := hs
  cases h with
  | moveToRoot =>
    refine ⟨_, acts_moveToRoot _, ?_⟩
    rintro _ ⟨⟩
    exact ⟨⟨he, hv⟩, rfl⟩
  | moveOut =>
    refine ⟨_, acts_moveOut _, ?_⟩
    rintro _ ⟨⟩
    exact ⟨⟨he, hv⟩, rfl⟩
  | moveIntoField mode name =>
    refine ⟨_, acts_moveIntoField mode name _, fun t ht => ?_⟩
    obtain ⟨inner, -, rfl⟩ := map_eq_ok.1 ht
    exact ⟨⟨he, hv⟩, rfl⟩
  | intoGiven word =>
    refine ⟨_, acts_moveIntoIndex (Number.ofWord word) (fun _ _ => rfl)
      fun _ => Number.toIndex?_ofWord_lt, fun t ht => ?_⟩
    obtain ⟨inner, -, rfl⟩ := map_eq_ok.1 ht
    exact ⟨⟨he, hv⟩, rfl⟩
  | intoCounter =>
    cases hv with
    | cons hword hv =>
      obtain ⟨word, rfl⟩ := hword
      refine ⟨_, acts_moveIntoIndex (Number.ofWord word) (resolve_value rfl)
        fun _ => Number.toIndex?_ofWord_lt, fun t ht => ?_⟩
      obtain ⟨inner, -, rfl⟩ := map_eq_ok.1 ht
      exact ⟨⟨he, .cons ⟨word, rfl⟩ hv⟩, rfl⟩
  | pushElement =>
    refine ⟨_, acts_pushElement, ?_⟩
    rintro _ ⟨⟩
    exact ⟨⟨congrArg (· + 1) he, hv⟩, rfl⟩
  | popElement =>
    obtain ⟨value, elements, rfl⟩ := List.exists_cons_of_length_eq_add_one he
    refine ⟨_, acts_popElement, ?_⟩
    rintro _ ⟨⟩
    exact ⟨⟨Nat.succ.inj he, hv⟩, rfl⟩
  | storeElement value =>
    refine ⟨_, acts_storeElement value, ?_⟩
    rintro _ ⟨⟩
    exact ⟨⟨he, hv⟩, rfl⟩
  | duplicateElement =>
    obtain ⟨value, elements, rfl⟩ := List.exists_cons_of_length_eq_add_one he
    refine ⟨_, acts_duplicateElement, ?_⟩
    rintro _ ⟨⟩
    exact ⟨⟨congrArg (· + 1) he, hv⟩, rfl⟩
  | mapElement table =>
    obtain ⟨value, elements, rfl⟩ := List.exists_cons_of_length_eq_add_one he
    refine ⟨_, acts_mapElement table, ?_⟩
    rintro _ ⟨⟩
    exact ⟨⟨he, hv⟩, rfl⟩
  | storeGiven hvalue =>
    refine ⟨_, acts_storeValue fun _ _ => rfl, ?_⟩
    rintro _ ⟨⟩
    exact ⟨⟨he, .cons hvalue hv⟩, rfl⟩
  | storeValue hcell =>
    obtain ⟨value, hvalue, hadmits⟩ := forall₂_getElem? hv hcell
    refine ⟨_, acts_storeValue (resolve_value hvalue), ?_⟩
    rintro _ ⟨⟩
    exact ⟨⟨he, .cons hadmits hv⟩, rfl⟩
  | storeSize =>
    refine ⟨_, acts_storeSize, fun t ht => ?_⟩
    obtain ⟨count, -, rfl⟩ := map_eq_ok.1 ht
    exact ⟨⟨he, .cons ⟨_, rfl⟩ hv⟩, rfl⟩
  | popValue =>
    cases hv with
    | cons _ hv =>
      refine ⟨_, acts_popValue, ?_⟩
      rintro _ ⟨⟩
      exact ⟨⟨he, hv⟩, rfl⟩
  | increment hcell =>
    cases hv with
    | cons hvalue hv =>
      obtain ⟨word, hword⟩ := Cell.exists_toWord? hcell hvalue
      refine ⟨_, acts_increment_word hword, ?_⟩
      rintro _ ⟨⟩
      exact ⟨⟨he, .cons ⟨_, rfl⟩ hv⟩, rfl⟩
  | add hf hs =>
    obtain _ | ⟨hsecond, _ | ⟨hfirst, hv⟩⟩ := hv
    obtain ⟨left, hleft⟩ := Cell.exists_toWord? hf hfirst
    obtain ⟨right, hright⟩ := Cell.exists_toWord? hs hsecond
    refine ⟨_, acts_add_words hleft hright, ?_⟩
    rintro _ ⟨⟩
    exact ⟨⟨he, .cons ⟨_, rfl⟩ hv⟩, rfl⟩
  | compare hf hs =>
    obtain _ | ⟨hsecond, _ | ⟨hfirst, hv⟩⟩ := hv
    obtain ⟨left, rfl⟩ := Cell.exists_number hf hfirst
    obtain ⟨right, rfl⟩ := Cell.exists_number hs hsecond
    refine ⟨_, acts_compare_numbers left right, ?_⟩
    rintro _ ⟨⟩
    exact ⟨⟨he, .cons ⟨_, rfl⟩ hv⟩, rfl⟩

theorem Instruction.Typed.ne_reset {i : Instruction} (h : i.Typed shape shape') : i ≠ .reset := by
  rintro rfl
  cases h

/-! ### Machines of a shape -/

/-- A failure that the program is to blame for: it asks a stack for what is not there, takes a value
of the wrong kind, or works at a cursor that has lost its node. -/
def Failure.IsMisuse : Failure → Prop
  | .stackUnderflow _ => True
  | .typeMismatch _ _ => True
  | .navigation .detached => True
  | _ => False

/-- The cursor of a machine is attached, its stacks of data are of a shape, and the command stack
and the loop level are given. -/
structure Machine.Fits (m : Machine) (shape : Shape) (commands : List Program) (level : Nat) :
    Prop where
  level : m.loopLevel = level
  scene : ∃ s, m.At m.limits s ∧ s.commands = commands ∧ s.Fits shape

/-- A run leads to a machine of a shape, or fails without misuse. -/
def Outcome.Fits (shape : Shape) (commands : List Program) (level : Nat) : Outcome → Prop
  | .done m => m.Fits shape commands level
  | .failed e _ => ¬ e.cause.IsMisuse

theorem Fault.not_isMisuse {fault : Fault} {e : Failure} (h : fault.Explains e) : ¬ e.IsMisuse := by
  cases fault <;> cases e <;> try exact h.elim
  case navigation.navigation e => cases e <;> first | exact h.elim | exact not_false
  case padding.paddingLimitExceeded => exact not_false

theorem Machine.document_complete (m : Machine) (i : Instruction) :
    (m.complete i).machine.document = m.document := by
  have hconfirm : (m.confirm i).document = m.document := by
    unfold Machine.confirm
    split <;> rfl
  unfold Machine.complete
  simp only
  split <;> exact hconfirm

namespace Machine.Fits

theorem announce (h : m.Fits shape commands level) (i : Instruction) :
    (m.announce i).Fits shape commands level := by
  obtain ⟨hlevel, s, hm, hs⟩ := h
  have hlimits : (m.announce i).limits = m.limits := (hm.announce i).limits
  refine ⟨?_, s, hlimits ▸ hm.announce i, hs⟩
  unfold Machine.announce
  split <;> exact hlevel

/-- An instruction is counted, unless it was one too many. -/
theorem complete (h : m.Fits shape commands level) (i : Instruction) :
    (m.complete i).Fits shape commands level := by
  obtain ⟨hlevel, s, hm, hs⟩ := h
  unfold Machine.complete
  simp only
  split
  · exact not_false
  · have hconfirm := hm.confirm i
    have hlimits : (m.confirm i).limits = m.limits := hconfirm.limits
    have hlevel' : (m.confirm i).loopLevel = level := by
      unfold Machine.confirm
      split <;> exact hlevel
    rw [← hlimits] at hconfirm
    refine ⟨hlevel', s.tick, ?_, hs.1, hs.2.elements, hs.2.values⟩
    exact { hconfirm with operations := congrArg (· + 1) hconfirm.operations }

/-- A typed instruction leads from one shape to the other. -/
theorem carryOut (h : m.Fits shape commands level) {i : Instruction} (hi : i.Typed shape shape')
    (run : Runner) :
    ∃ o, m.carryOut run i = some o ∧ o.Fits shape' commands level := by
  obtain ⟨hlevel, s, hm, hcommands, hs⟩ := h
  obtain ⟨result, hacts, hresult⟩ : ∃ result, Acts m.limits i s result ∧
      ∀ t, result = .ok t → t.Fits shape' ∧ t.commands = s.commands := hi.acts hs
  refine ⟨_, hacts.1 run m, ?_⟩
  have hshows := hacts.2 m hm
  have hkept := Instruction.loopLevel_perform hi.ne_reset m
  unfold Outcome.ofEffect
  unfold Effect.left at hkept
  generalize i.perform.run m = left at hshows hkept ⊢
  cases hshows with
  | ok hm' =>
    obtain ⟨hfits, hsame⟩ := hresult _ rfl
    exact ⟨hkept.trans hlevel, _, hm'.limits ▸ hm', hsame.trans hcommands, hfits⟩
  | error m' he => exact Fault.not_isMisuse he

theorem commands_items (h : m.Fits shape commands level) : m.commands.items = commands := by
  obtain ⟨-, s, hm, rfl, -⟩ := h
  exact hm.commands

/-- A shape tells nothing of the commands, of the loops and of what has been counted. -/
theorem of_same (h : m.Fits shape commands level) (m' : Machine) (hcursor : m'.cursor = m.cursor)
    (helements : m'.elements = m.elements) (hvalues : m'.values = m.values)
    {commands' : List Program} {level' : Nat}
    (hcommands : m'.commands.items = commands') (hlevel : m'.loopLevel = level') :
    m'.Fits shape commands' level' := by
  obtain ⟨-, s, hm, -, hs⟩ := h
  refine ⟨hlevel, { s with commands := commands', operations := m'.operations }, ?_, rfl,
    hs.elements, hs.values⟩
  constructor
  · exact (congrArg Cursor.document hcursor).trans hm.document
  · rw [hcursor]
    exact hm.trail
  · rw [hcursor]
    exact hm.attached
  · rw [hcursor]
    exact hm.paired
  · rw [helements]
    exact hm.elements
  · rw [hvalues]
    exact hm.values
  · exact hcommands
  · rfl
  · rfl

/-- More may be known of the values than they have been typed with. -/
theorem of_values {count : Nat} {cells cells' : List Cell}
    (h : m.Fits ⟨count, cells⟩ commands level)
    (hvalues : List.Forall₂ Cell.Admits cells' m.values.items) :
    m.Fits ⟨count, cells'⟩ commands level := by
  obtain ⟨hlevel, s, hm, hcommands, hs⟩ := h
  exact ⟨hlevel, s, hm, hcommands, hs.elements, hm.values ▸ hvalues⟩

theorem pushCommand (h : m.Fits shape commands level) (body : Program) (run : Runner) :
    ∃ o, m.carryOut run (.pushCommand body) = some o ∧ o.Fits shape (body :: commands) level := by
  refine ⟨.done { m with commands := m.commands.push body }, rfl, ?_⟩
  exact h.of_same { m with commands := m.commands.push body } rfl rfl rfl
    (congrArg (body :: ·) h.commands_items) h.level

theorem setCounter (h : m.Fits shape commands level) (depth rounds : Nat) :
    (m.setCounter depth rounds).Fits shape commands level :=
  h.of_same (m.setCounter depth rounds) rfl rfl rfl h.commands_items h.level

theorem enterLoop (h : m.Fits shape commands level) :
    m.enterLoop.Fits shape commands (level + 1) :=
  h.of_same m.enterLoop rfl rfl rfl h.commands_items (congrArg (· + 1) h.level)

/-- The body of a loop is taken off when the loop is left. -/
theorem leaveLoop {body : Program} (h : m.Fits shape (body :: commands) (level + 1)) (depth : Nat)
    (ok : Bool) : (m.leaveLoop depth ok).Fits shape commands level :=
  h.of_same (m.leaveLoop depth ok) rfl rfl rfl (congrArg List.tail h.commands_items)
    (congrArg (· - 1) h.level)

end Machine.Fits

/-! ### Programs -/

variable {fuel : Nat} {middle final : Shape} {commands' : List Program} {level' : Nat}

/-- The first instruction of a program, and the rest of it. -/
theorem Machine.Fits.run_cons {i : Instruction} {rest : Program}
    (hrun : (m.announce i).carryOut (Machine.run fuel) i = some o)
    (h : o.Fits middle commands level)
    (hrest : ∀ m' : Machine, m'.Fits middle commands level →
      ∃ o', Machine.run (fuel + 1) rest m' = some o' ∧ o'.Fits final commands' level') :
    ∃ o', Machine.run (fuel + 1) (i :: rest) m = some o' ∧ o'.Fits final commands' level' := by
  rw [Machine.run, inSequence, Machine.step, hrun]
  cases o with
  | failed e m' => exact ⟨_, rfl, h⟩
  | done m' =>
    have hcomplete := Machine.Fits.complete h i
    simp only
    generalize m'.complete i = completed at hcomplete ⊢
    cases completed with
    | failed e m'' => exact ⟨_, rfl, hcomplete⟩
    | done m'' => exact hrest m'' hcomplete

/-- One program behind another. -/
theorem Machine.Fits.run_append {first rest : Program} (hrun : Machine.run fuel first m = some o)
    (h : o.Fits middle commands level)
    (hrest : ∀ m' : Machine, m'.Fits middle commands level →
      ∃ o', Machine.run fuel rest m' = some o' ∧ o'.Fits final commands' level') :
    ∃ o', Machine.run fuel (first ++ rest) m = some o' ∧ o'.Fits final commands' level' := by
  cases fuel with
  | zero => cases hrun
  | succ fuel =>
    have hfirst : inSequence (Machine.step (Machine.run fuel)) first m = some o := hrun
    rw [Machine.run, inSequence_append, hfirst]
    cases o with
    | failed e m' => exact ⟨_, rfl, h⟩
    | done m' => exact hrest m' h

/-- On every machine of the first shape, the run of a program ends, and leads to the second shape,
with the commands and the loop level as they were, or fails without misuse. -/
def Program.Leads (fuel : Nat) (program : Program) (shape final : Shape) : Prop :=
  ∀ (m : Machine) (commands : List Program) (level : Nat), m.Fits shape commands level →
    ∃ o, Machine.run fuel program m = some o ∧ o.Fits final commands level

/-! ### Loops -/

section Loop

variable {body : Program} {count : Nat} {cells : List Cell}

/-- A loop can always tell whether its counter has reached its bound. -/
theorem Machine.Fits.isMet (h : m.Fits ⟨count, .word :: .number :: cells⟩ commands level) :
    ∃ met, (StopCondition.reached 0 1).isMet m = .ok met := by
  obtain ⟨-, s, hm, -, hs⟩ := h
  have hvalues : List.Forall₂ Cell.Admits (.word :: .number :: cells) m.values.items :=
    hm.values ▸ hs.values
  generalize hv : m.values.items = values at hvalues
  obtain _ | ⟨htop, _ | ⟨hbelow, -⟩⟩ := hvalues
  obtain ⟨counter, rfl⟩ := Cell.exists_number Cell.isNumber_word htop
  obtain ⟨bound, rfl⟩ := hbelow
  have hlen : ¬ m.values.length ≤ max 0 1 := by
    simp [Stack.length, hv]
  have hcounter : m.numberAt 0 = .ok counter := numberAt_eq (by rw [hv]; rfl)
  have hbound : m.numberAt 1 = .ok bound := numberAt_eq (by rw [hv]; rfl)
  refine ⟨bound.le counter, ?_⟩
  simp only [StopCondition.isMet, if_neg hlen, hcounter, hbound]

/-- Every round of a loop keeps the shape, so it ends in that shape, or at the ceiling on its
rounds. -/
theorem Machine.Fits.iterate
    (hbody : body.Leads fuel ⟨count, .word :: .number :: cells⟩ ⟨count, .word :: .number :: cells⟩)
    (depth limit remaining : Nat)
    (h : m.Fits ⟨count, .word :: .number :: cells⟩ (body :: commands) level) :
    ∃ o, Machine.iterate (Machine.run fuel) (.reached 0 1) depth limit remaining m = some o ∧
      o.Fits ⟨count, .word :: .number :: cells⟩ (body :: commands) level := by
  induction remaining generalizing m with
  | zero =>
    obtain ⟨met, hmet⟩ := h.isMet
    rw [Machine.iterate, hmet]
    cases met with
    | true => exact ⟨_, rfl, h⟩
    | false => exact ⟨_, rfl, not_false⟩
  | succ remaining ih =>
    obtain ⟨met, hmet⟩ := h.isMet
    rw [Machine.iterate, hmet]
    cases met with
    | true => exact ⟨_, rfl, h⟩
    | false =>
      have hpeek : m.commands.peek = .ok body := by
        obtain ⟨-, s, hm, hcommands, -⟩ := h
        simp [Stack.peek, Stack.peekAt, hm.commands, hcommands]
      obtain ⟨o, ho, hfits⟩ := hbody m _ _ h
      simp only [Machine.runCommand, hpeek, ho]
      cases o with
      | failed e m' => exact ⟨_, rfl, hfits⟩
      | done m' => exact ih (Machine.Fits.setCounter hfits _ _)

/-- A loop leaves the commands as they were before its body was pushed. -/
theorem Machine.Fits.loopUntil
    (hbody : body.Leads fuel ⟨count, .word :: .number :: cells⟩ ⟨count, .word :: .number :: cells⟩)
    (h : m.Fits ⟨count, .word :: .number :: cells⟩ (body :: commands) level) :
    ∃ o, m.loopUntil (Machine.run fuel) (.reached 0 1) = some o ∧
      o.Fits ⟨count, .word :: .number :: cells⟩ commands level := by
  obtain ⟨o, ho, hfits⟩ := h.enterLoop.iterate hbody (m.loopLevel + 1) m.limits.loopIterations
    m.limits.loopIterations
  unfold Machine.loopUntil
  simp only [ho]
  refine ⟨_, rfl, ?_⟩
  cases o with
  | failed e m' => exact hfits
  | done m' => exact Machine.Fits.leaveLoop hfits _ _

end Loop

/-- A jump takes a truth value, and runs its instruction or passes over it. -/
theorem Machine.Fits.jump {inner : Instruction} {count : Nat} {cells : List Cell}
    (hinner : Program.Leads fuel [inner] ⟨count, cells⟩ ⟨count, cells⟩) (expected : Bool)
    (h : m.Fits ⟨count, .truth :: cells⟩ commands level) :
    ∃ o, m.jump (Machine.run fuel) expected inner = some o ∧
      o.Fits ⟨count, cells⟩ commands level := by
  obtain ⟨hlevel, s, hm, hcommands, hs⟩ := h
  have hvalues : List.Forall₂ Cell.Admits (.truth :: cells) s.values := hs.values
  generalize hv : s.values = values at hvalues
  obtain _ | @⟨_, value, _, rest, hvalue, hrest⟩ := hvalues
  have hpop := Stack.pop_of_items (hm.values.trans hv)
  have hleft : ({ m with values := { m.values with items := rest } } : Machine).Fits
      ⟨count, cells⟩ commands level :=
    ⟨hlevel, _, hm.leaveValues rest, hcommands, hs.elements, hrest⟩
  simp only [Machine.jump, Effect.run_takeValue, hpop]
  split
  · exact hinner _ _ _ hleft
  · exact ⟨_, rfl, hleft⟩

/-! ### Typed programs -/

theorem Instruction.Typed.leads {i : Instruction} (hi : i.Typed shape final) :
    Program.Leads (fuel + 1) [i] shape final := by
  intro m commands level hm
  obtain ⟨o, ho, hfits⟩ := (hm.announce i).carryOut hi (Machine.run fuel)
  exact Machine.Fits.run_cons ho hfits fun m' hm' => ⟨_, rfl, hm'⟩

/-- **A typed program leads from one shape to the other**, if the fuel is enough for its bodies. -/
theorem Program.Typed.leads {program : Program} (h : Program.Typed program shape final)
    (hfuel : Program.nesting program ≤ fuel) : program.Leads fuel shape final := by
  induction h generalizing fuel with
  | nil =>
    obtain ⟨fuel, rfl⟩ := Nat.exists_eq_succ_of_ne_zero (Nat.pos_iff_ne_zero.1 hfuel)
    exact fun m commands level hm => ⟨_, rfl, hm⟩
  | @cons i rest shape middle final hi _ ih =>
    rw [Program.nesting, Nat.max_le] at hfuel
    obtain ⟨fuel, rfl⟩ : ∃ less, fuel = less + 1 := ⟨fuel - 1, by omega⟩
    intro m commands level hm
    obtain ⟨o, ho, hfits⟩ := (hm.announce i).carryOut hi (Machine.run fuel)
    exact Machine.Fits.run_cons ho hfits fun m' hm' => ih hfuel.2 m' _ _ hm'
  | @jump inner rest count cells final hi _ ih =>
    rw [Program.nesting, Instruction.nesting, Nat.max_le] at hfuel
    obtain ⟨fuel, rfl⟩ : ∃ less, fuel = less + 2 := ⟨fuel - 2, by omega⟩
    intro m commands level hm
    obtain ⟨o, ho, hfits⟩ := (hm.announce (.jumpIfFalse inner)).jump hi.leads false
    exact Machine.Fits.run_cons ho hfits fun m' hm' => ih hfuel.2 m' _ _ hm'
  | @loop body rest count cells final _ _ ihbody ih =>
    rw [Program.nesting, Instruction.nesting, Program.nesting, Nat.max_le, Nat.max_le] at hfuel
    obtain ⟨hpush, -, hrest⟩ := hfuel
    obtain ⟨fuel, rfl⟩ : ∃ less, fuel = less + 1 := ⟨fuel - 1, by omega⟩
    have hbody := ihbody (Nat.le_of_succ_le_succ hpush)
    intro m commands level hm
    obtain ⟨o, ho, hfits⟩ :=
      (hm.announce (.pushCommand body)).pushCommand body (Machine.run fuel)
    refine Machine.Fits.run_cons ho hfits fun m' hm' => ?_
    -- The body is on top of the commands while the loop runs, and is gone behind it.
    obtain ⟨o, ho, hfits⟩ := (hm'.announce (.loopUntil (.reached 0 1))).loopUntil hbody
    exact Machine.Fits.run_cons ho hfits fun m' hm' => ih hrest m' _ _ hm'

end Reshape
