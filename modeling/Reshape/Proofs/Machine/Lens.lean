import Reshape.Proofs.Json.Size
import Reshape.Proofs.Machine.Breadcrumbs
import Reshape.Proofs.Machine.Step
import Reshape.Proofs.Number.Exact

/-!
# The cursor as a lens

Elements and stores read and replace the current node. A write goes through the parent of the node
and a look-up along the whole trail, and the two agree wherever the trail leads to a node, so the
laws of a lens hold, and nothing but the current node and the containers around it can tell.

* `Cursor.put`, the cursor with another current node, with the laws `current?_put`, `put_put` and
  `put_current`;
* `carryOut_storeElement`, `carryOut_pushElement`, `carryOut_popElement`, the instructions;
* `Machine.cursor_is_lens`, the laws of the instructions at every machine that a call gets to.
-/

namespace Reshape

namespace Cursor

variable {c : Cursor} {node : Json}

/-- The cursor with a value in place of its node. -/
def put (c : Cursor) (value : Json) : Cursor :=
  { c with document := Json.replace c.trail value c.document }

theorem write_eq_put (h : c.current? = some node) (value : Json) :
    c.write value = .ok (c.put value) := by
  obtain ⟨hattached, hnode⟩ := attached_of_current? h
  exact write_of_attached hattached (Option.isSome_of_eq_some hnode) value

theorem current?_put (h : c.current? = some node) (value : Json) :
    (c.put value).current? = some value := by
  obtain ⟨hattached, hnode⟩ := attached_of_current? h
  rw [current?_of_attached (show (c.put value).detached = false from hattached)]
  exact Json.resolve_replace value (Option.isSome_of_eq_some hnode)

/-- The later of two values counts. -/
theorem put_put (h : c.current? = some node) (first second : Json) :
    (c.put first).put second = c.put second := by
  obtain ⟨-, hnode⟩ := attached_of_current? h
  have hdocument : Json.replace c.trail second (Json.replace c.trail first c.document) =
      Json.replace c.trail second c.document :=
    Json.replace_replace (Option.isSome_of_eq_some hnode) first second
  simp only [put] at hdocument ⊢
  exact congrArg (fun document => { c with document }) hdocument

/-- Putting the current node in its own place changes nothing. -/
theorem put_current (h : c.current? = some node) : c.put node = c := by
  obtain ⟨-, hnode⟩ := attached_of_current? h
  rw [put, Json.replace_self hnode]

end Cursor

/-- A container with another child, as far as it can be told without looking at the children. -/
structure Json.SameShape (before after : Json) : Prop where
  kind : after.kind = before.kind
  length : after.length? = before.length?
  keys : after.keys? = before.keys?

/-- A replacement keeps the shape of the containers around it. -/
theorem Json.sameShape_of_replace {above below : List Locator} {locator : Locator} {document : Json}
    (h : (resolve (above ++ locator :: below) document).isSome) (new : Json) :
    ∃ before after, resolve above document = some before ∧
      resolve above (replace (above ++ locator :: below) new document) = some after ∧
      before.SameShape after := by
  obtain ⟨before, child, hbefore, hchild, hafter⟩ := resolve_replace_above h new
  exact ⟨before, _, hbefore, hafter, kind_setChild _ _ _, length?_setChild hchild _,
    keys?_setChild hchild _⟩

namespace Machine

variable {m s : Machine} {node : Json}

/-- Instructions carried out one after the other, without being reported or counted. -/
def carryOutAll (run : Runner) : Runner := inSequence fun i m => m.carryOut run i

/-! ### The instructions -/

theorem carryOut_storeElement (h : m.cursor.current? = some node) (value : Json) (run : Runner) :
    m.carryOut run (.storeElement value) = some (.done { m with cursor := m.cursor.put value }) := by
  show some (Outcome.ofEffect (Effect.moveCursor (·.write value)) m) = _
  rw [Outcome.ofEffect, Effect.run_moveCursor, Cursor.write_eq_put h]

theorem carryOut_pushElement (h : m.cursor.current? = some node) (run : Runner) :
    m.carryOut run .pushElement = some (.done { m with elements := m.elements.push node }) := by
  have hcurrent : Effect.current.run m = .ok node m := by
    rw [Effect.run_current, Cursor.current, h]
  show some (Outcome.ofEffect (Effect.current >>= Effect.giveElement) m) = _
  rw [Outcome.ofEffect, Effect.run_bind_of_ok hcurrent]
  rfl

theorem carryOut_popElement (h : m.cursor.current? = some node) {value : Json}
    {elements : Stack Json} (hpop : m.elements.pop = .ok (value, elements)) (run : Runner) :
    m.carryOut run .popElement =
      some (.done { m with cursor := m.cursor.put value, elements }) := by
  have htake : Effect.takeElement.run m = .ok value { m with elements } := by
    rw [Effect.run_takeElement, hpop]
  show some (Outcome.ofEffect (Effect.takeElement >>= Effect.write) m) = _
  rw [Outcome.ofEffect, Effect.run_bind_of_ok htake, Effect.write, Effect.run_moveCursor,
    Cursor.write_eq_put h]

/-! ### Instructions that are counted -/

/-- Below the ceiling, an instruction that is carried out is reported and counted, and nothing else
comes on top. -/
theorem step_of_carryOut {run : Runner} {i : Instruction} {m' : Machine}
    (h : ∀ log, carryOut run i { m with log } = some (.done { m' with log }))
    (hroom : m'.operations < m'.limits.operations) :
    ∃ log, step run i m = some (.done { m' with log, operations := m'.operations + 1 }) := by
  obtain ⟨log, hannounce⟩ := m.announce_eq i
  obtain ⟨log', -, hcomplete⟩ := complete_eq { m' with log } i
  rw [if_neg (Nat.not_le.2 hroom)] at hcomplete
  have hcarry : (m.announce i).carryOut run i = some (.done { m' with log }) := by
    rw [hannounce]
    exact h log
  exact ⟨log', by rw [step_eq_some hcarry, Outcome.finish, hcomplete]⟩

theorem step_storeElement (h : m.cursor.current? = some node)
    (hroom : m.operations < m.limits.operations) (value : Json) (run : Runner) :
    ∃ log, step run (.storeElement value) m = some (.done
      { m with cursor := m.cursor.put value, log, operations := m.operations + 1 }) := by
  have hcarry (log : List Event) : carryOut run (.storeElement value) { m with log } =
      some (.done { { m with cursor := m.cursor.put value } with log }) :=
    carryOut_storeElement (m := { m with log }) h value run
  exact step_of_carryOut hcarry hroom

theorem step_pushElement (h : m.cursor.current? = some node)
    (hroom : m.operations < m.limits.operations) (run : Runner) :
    ∃ log, step run .pushElement m = some (.done
      { m with elements := m.elements.push node, log, operations := m.operations + 1 }) := by
  have hcarry (log : List Event) : carryOut run .pushElement { m with log } =
      some (.done { { m with elements := m.elements.push node } with log }) :=
    carryOut_pushElement (m := { m with log }) h run
  exact step_of_carryOut hcarry hroom

theorem step_popElement (h : m.cursor.current? = some node) {value : Json} {elements : Stack Json}
    (hpop : m.elements.pop = .ok (value, elements)) (hroom : m.operations < m.limits.operations)
    (run : Runner) :
    ∃ log, step run .popElement m = some (.done
      { m with cursor := m.cursor.put value, elements, log, operations := m.operations + 1 }) := by
  have hcarry (log : List Event) : carryOut run .popElement { m with log } =
      some (.done { { m with cursor := m.cursor.put value, elements } with log }) :=
    carryOut_popElement (m := { m with log }) h hpop run
  exact step_of_carryOut hcarry hroom

theorem inSequence_pair {step : Instruction → Machine → Option Outcome} {first second : Instruction}
    {m₁ m₂ : Machine} (hfirst : step first m = some (.done m₁))
    (hsecond : step second m₁ = some (.done m₂)) :
    inSequence step [first, second] m = some (.done m₂) := by
  simp only [inSequence, hfirst, hsecond]

theorem exists_run_store (h : m.cursor.current? = some node)
    (hroom : m.operations < m.limits.operations) (value : Json) (run : Runner) :
    ∃ t, inSequence (step run) [.storeElement value] m = some (.done t) ∧
      t.cursor = m.cursor.put value := by
  obtain ⟨log, hstore⟩ := step_storeElement h hroom value run
  refine ⟨{ m with cursor := m.cursor.put value, log, operations := m.operations + 1 }, ?_, rfl⟩
  simp only [inSequence, hstore]

theorem exists_run_restore (h : m.cursor.current? = some node)
    (hroom : m.operations + 2 ≤ m.limits.operations) (run : Runner) :
    ∃ t, inSequence (step run) [.pushElement, .popElement] m = some (.done t) ∧
      t.cursor = m.cursor ∧ t.elements = m.elements := by
  obtain ⟨log, hpush⟩ := step_pushElement h (by omega) run
  obtain ⟨log', hpop⟩ := step_popElement
    (m := { m with elements := m.elements.push node, log, operations := m.operations + 1 }) h
    (Stack.pop_push m.elements node) hroom run
  exact ⟨_, inSequence_pair hpush hpop, Cursor.put_current h, rfl⟩

theorem exists_run_overwrite (h : m.cursor.current? = some node)
    (hroom : m.operations + 2 ≤ m.limits.operations) (first second : Json) (run : Runner) :
    ∃ t, inSequence (step run) [.storeElement first, .storeElement second] m = some (.done t) ∧
      t.cursor = m.cursor.put second := by
  obtain ⟨log, hfirst⟩ := step_storeElement h (by omega) first run
  obtain ⟨log', hsecond⟩ := step_storeElement
    (m := { m with cursor := m.cursor.put first, log, operations := m.operations + 1 })
    (Cursor.current?_put h first) hroom second run
  exact ⟨_, inSequence_pair hfirst hsecond, Cursor.put_put h first second⟩

/-! ### The laws -/

/-- **The cursor of a machine is a lens on its document**, at every point of every call, whatever
calls were made before, as long as the cursor is attached and no array is as long as the greatest
position. Carried out without a ceiling, a store leaves its value at the cursor, the current node
taken to the elements and back leaves the machine as it was, and of two stores the later one counts.
A store is not seen behind a trail that parts from the cursor's, and the containers around the
current node keep their shape. The same holds of a run that has room for two more instructions. -/
theorem cursor_is_lens {document : Json} {limits : Limits} {trace : Bool} {m s : Machine}
    {program : Program} (hm : (start document limits trace).Executed m) (hs : m.Visits program s)
    (hlen : ∀ trail items, Json.resolve trail s.document = some (.array items) →
      items.length < Number.lastIndex)
    (hattached : s.cursor.detached = false) (v w : Json) (run : Runner) :
    carryOutAll run [.storeElement v] s = some (.done { s with cursor := s.cursor.put v }) ∧
      (s.cursor.put v).current = .ok v ∧
      carryOutAll run [.pushElement, .popElement] s = some (.done s) ∧
      carryOutAll run [.storeElement v, .storeElement w] s = carryOutAll run [.storeElement w] s ∧
      (∀ other, Apart s.cursor.trail other →
        Json.resolve other (s.cursor.put v).document = Json.resolve other s.document) ∧
      (∀ above locator below, s.cursor.trail = above ++ locator :: below →
        ∃ before after, Json.resolve above s.document = some before ∧
          Json.resolve above (s.cursor.put v).document = some after ∧ before.SameShape after) ∧
      (s.operations + 2 ≤ s.limits.operations →
        (∃ t, inSequence (step run) [.storeElement v] s = some (.done t) ∧
          t.cursor = s.cursor.put v) ∧
        (∃ t, inSequence (step run) [.pushElement, .popElement] s = some (.done t) ∧
          t.cursor = s.cursor ∧ t.elements = s.elements) ∧
        ∃ t t', inSequence (step run) [.storeElement v, .storeElement w] s = some (.done t) ∧
          inSequence (step run) [.storeElement w] s = some (.done t') ∧ t.cursor = t'.cursor) := by
  have hplaced := placed_of_visits hm hs
  have hresolves := (hplaced.coherent hlen).resolves hattached
  obtain ⟨node, hnode⟩ := Option.isSome_iff_exists.1 hresolves
  have hcurrent : s.cursor.current? = some node := by
    rw [Cursor.current?_of_attached hattached]
    exact hnode
  refine ⟨?_, ?_, ?_, ?_, ?_, ?_, ?_⟩
  · simp only [carryOutAll, inSequence, carryOut_storeElement hcurrent]
  · rw [Cursor.current, Cursor.current?_put hcurrent]
  · have hpush := carryOut_pushElement hcurrent run
    have hpop := carryOut_popElement (m := { s with elements := s.elements.push node }) hcurrent
      (Stack.pop_push s.elements node) run
    rw [Cursor.put_current hcurrent] at hpop
    exact inSequence_pair hpush hpop
  · have hsecond := carryOut_storeElement (m := { s with cursor := s.cursor.put v })
      (Cursor.current?_put hcurrent v) w run
    rw [Cursor.put_put hcurrent] at hsecond
    rw [carryOutAll, inSequence_pair (carryOut_storeElement hcurrent v run) hsecond]
    simp only [inSequence, carryOut_storeElement hcurrent]
  · exact fun other hapart => Json.resolve_replace_of_apart hapart v s.document
  · intro above locator below htrail
    rw [htrail] at hresolves
    have hshape := Json.sameShape_of_replace hresolves v
    rw [← htrail] at hshape
    exact hshape
  · intro hroom
    have hfirst : s.operations < s.limits.operations := by omega
    obtain ⟨t, ht, htcursor⟩ := exists_run_overwrite hcurrent hroom v w run
    obtain ⟨t', ht', htcursor'⟩ := exists_run_store hcurrent hfirst w run
    exact ⟨exists_run_store hcurrent hfirst v run, exists_run_restore hcurrent hroom run, t, t', ht,
      ht', htcursor.trans htcursor'.symm⟩

/-- The first field of an object in an array, with a field behind it and an item beside it. -/
theorem cursor_is_lens_at_first_field :
    ∃ s : Machine, (start (.array [.object [("b", .null), ("c", .bool true)], .null]) {} false).Visits
        [.moveIntoIndex (.given (Json.ofNat 0)), .moveIntoField .leaf "b"] s ∧
      s.cursor.detached = false ∧ s.cursor.trail = [.index 0, .field "b"] ∧
      (s.cursor.put (.text "v")).document =
        .array [.object [("b", .text "v"), ("c", .bool true)], .null] ∧
      (∀ run, carryOutAll run [.storeElement (.text "v")] s =
        some (.done { s with cursor := s.cursor.put (.text "v") })) ∧
      (∀ run, carryOutAll run [.pushElement, .popElement] s = some (.done s)) ∧
      ∀ run, ∃ t, inSequence (step run) [.pushElement, .popElement] s = some (.done t) ∧
        t.cursor = s.cursor ∧ t.elements = s.elements := by
  have hindex : (Json.ofNat 0).toIndex? = some 0 := Json.toIndex?_ofNat (by decide)
  -- What counts of the number is the position that it stands for.
  generalize Json.ofNat 0 = index at hindex ⊢
  have hstep : ∃ s : Machine,
      step (run 0) (.moveIntoIndex (.given index))
        ((start (.array [.object [("b", .null), ("c", .bool true)], .null]) {} false).record
          (.executing 2 false)) = some (.done s) ∧
      ∃ s', step (run 0) (.moveIntoField .leaf "b") s = some (.done s') ∧
        s'.cursor.detached = false ∧ s'.cursor.trail = [.index 0, .field "b"] ∧
        s'.document = .array [.object [("b", .null), ("c", .bool true)], .null] ∧
        s'.operations = 2 ∧ s'.limits = {} := by
    rw [step_eq]
    show ∃ s, (some (Outcome.ofEffect (Effect.intoIndex index) _)).map _ = _ ∧ _
    rw [Outcome.ofEffect, Effect.run_intoIndex hindex]
    exact ⟨_, rfl, _, rfl, rfl, rfl, rfl, rfl, rfl⟩
  obtain ⟨s₁, hfirst, s, hsecond, hattached, htrail, hdocument, hcount, hlimits⟩ := hstep
  have hs : (start (.array [.object [("b", .null), ("c", .bool true)], .null]) {} false).Visits
      [.moveIntoIndex (.given index), .moveIntoField .leaf "b"] s :=
    ⟨_, .tail (.single (.done hfirst)) (.done hsecond)⟩
  have hsized : s.document.SizedBelow Number.lastIndex := by
    rw [hdocument]
    exact Json.sizedBelow_of_widest_lt _ (by decide)
  have hlaws := cursor_is_lens .refl hs (fun trail items hitems => hsized trail _ _ hitems rfl)
    hattached (.text "v") .null
  have hroom : s.operations + 2 ≤ s.limits.operations := by
    rw [hcount, hlimits]
    decide
  have hput : (s.cursor.put (.text "v")).document =
      .array [.object [("b", .text "v"), ("c", .bool true)], .null] := by
    show Json.replace s.cursor.trail (.text "v") s.document = _
    rw [htrail, hdocument]
    rfl
  exact ⟨s, hs, hattached, htrail, hput, fun run => (hlaws run).1, fun run => (hlaws run).2.2.1,
    fun run => ((hlaws run).2.2.2.2.2.2 hroom).2.1⟩

end Machine

end Reshape
