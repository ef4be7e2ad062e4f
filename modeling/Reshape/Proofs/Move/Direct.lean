import Reshape.Machine.Effect
import Reshape.Move.Program
import Reshape.Proofs.Move.Walk

/-!
# Moves without a machine

What a move does to a document, as walks and writes: no stacks, no cursor and no program.

* `Direct.mapped`, what is written for a value, and `Direct.Translates`, the same by cases;
* `Direct.copyOne`, `Direct.copyToEach` and `Direct.copyItems`, for the three strategies;
* `Move.direct`, the document after a move, or the fault with the document;
* `Move.effort`, what the program of the move runs beyond its length.
-/

namespace Reshape

namespace Direct

/-- The value that is written for a node: what the table has for it, if there is one. -/
def mapped (mapping : Option Mapping) (value : Json) : Json :=
  match mapping with
  | some table => mapText table value
  | none => value

/-- A value and what is written for it. A text that is a key of the table is replaced by what the
table has there; any other value is written as it is. -/
inductive Translates (mapping : Option Mapping) : Json → Json → Prop
  | hit {table : Mapping} {key : String} {value : Json} (htable : mapping = some table)
      (hkey : table.get? key = some value) : Translates mapping (.text key) value
  | miss {value : Json}
      (h : ∀ table key, mapping = some table → value = .text key → table.get? key = none) :
      Translates mapping value value

theorem translates_mapped (mapping : Option Mapping) (value : Json) :
    Translates mapping value (mapped mapping value) := by
  cases mapping with
  | none => exact .miss (by simp)
  | some table =>
    cases value with
    | text key =>
      rw [mapped, mapText]
      cases hkey : table.get? key with
      | none => exact .miss (by simp [hkey])
      | some value => exact .hit rfl hkey
    | _ => exact .miss (by simp)

/-- The document with a value at the end of a walk. -/
def writeAt (limit : Nat) (walk : List Hop) (value document : Json) : Except Fault Json := do
  let slot ← locate limit walk document
  return (slot.put value).document

/-- Copy the node at the end of one walk to the end of another. -/
def copyOne (limit : Nat) (mapping : Option Mapping) (source target : List Hop)
    (document : Json) : Except Fault Json := do
  let origin ← locate limit source document
  writeAt limit target (mapped mapping origin.node) origin.document

/-- Copy the node at the end of a walk to each item of an array, and to one item at least. -/
def copyToEach (limit : Nat) (mapping : Option Mapping) (source array after : List Hop)
    (document : Json) : Except Fault Json := do
  let origin ← locate limit source document
  let place ← locate limit array origin.document
  let count ← size place.node
  -- An empty object, too, makes room for an array.
  let items := if count = 0 then Move.singleItem else place.node
  let filled ← (List.range (max 1 count)).foldlM (fun array index =>
    writeAt limit (.item (some index) :: after) (mapped mapping origin.node) array) items
  return (place.put filled).document

/-- The number of items to pass over, and the document when they have been counted. -/
def passOver (limit : Nat) (offset : Option (List Hop)) (document : Json) :
    Except Fault (Nat × Json) :=
  match offset with
  | none => .ok (0, document)
  | some walk => do
    let place ← locate limit walk document
    return (← size place.node, place.document)

theorem passOver_sizedBelow {limit bound first : Nat} {offset : Option (List Hop)}
    {document document' : Json} (h : document.SizedBelow bound) (hpos : 0 < bound)
    (hc : passOver limit offset document = .ok (first, document')) :
    first < bound ∧ document'.SizedBelow (bound + limit + 1) := by
  cases offset with
  | none =>
    cases hc
    exact ⟨hpos, h.mono (by omega)⟩
  | some walk =>
    obtain ⟨place, hplace, hc⟩ := bind_eq_ok.1 hc
    obtain ⟨count, hcount, hc⟩ := bind_eq_ok.1 hc
    cases hc
    obtain ⟨hdocument, hnode⟩ := locate_sizedBelow h hpos hplace
    exact ⟨size_lt hnode hcount, hdocument⟩

/-- Copy the items of one array to the items of another, past the ones to pass over. Each copy
walks from the root, on the document that the one before has left. -/
def copyItems (limit : Nat) (mapping : Option Mapping) (offset : Option (List Hop))
    (source fromItem target toPlace : List Hop) (document : Json) : Except Fault Json := do
  let (first, document) ← passOver limit offset document
  let place ← locate limit source document
  let count ← size place.node
  (List.range count).foldlM (fun document index =>
    copyOne limit mapping (source ++ .item (some index) :: fromItem)
      (target ++ .item (some (first + index)) :: toPlace) document) place.document

end Direct

/-! ### Moves -/

/-- A component for all items of one array. -/
def Component.IsItems : Component → Prop
  | .arrayAll _ => True
  | .arrayAllOffset .. => True
  | _ => False

theorem Component.IsItems.isPattern {component : Component} (h : component.IsItems) :
    component.isPattern = true := by
  cases component <;> first | rfl | exact h.elim

/-- A component for the items of one array past the first ones. -/
def Component.IsOffset : Component → Prop
  | .arrayAllOffset .. => True
  | _ => False

/-- A component that names one node at most. -/
def Component.IsSingle (component : Component) : Prop := component.isPattern = false

theorem any_isPattern_eq_false {path : List Component}
    (h : ∀ component ∈ path, component.IsSingle) : path.any Component.isPattern = false := by
  rw [List.any_eq_false]
  intro component hc hpattern
  cases (h component hc).symm.trans hpattern

namespace ArrayPath

/-- The components of a path around its array pattern. -/
def components (path : ArrayPath) : List Component := path.before ++ path.array :: path.after

/-- One component is for the items of an array, and the others are for single nodes. -/
structure WellFormed (path : ArrayPath) : Prop where
  before : ∀ component ∈ path.before, component.IsSingle
  array : path.array.IsItems
  after : ∀ component ∈ path.after, component.IsSingle

theorem checkAfter_eq_ok {path : List Component} :
    checkAfter path = .ok () ↔ ∀ component ∈ path, component.IsSingle := by
  induction path with
  | nil => simp [checkAfter]
  | cons component rest ih =>
    cases component <;> simp [checkAfter, Component.IsSingle, Component.isPattern]
    all_goals exact ih

theorem ofComponents?_cons {component : Component} (h : component.IsSingle)
    (rest : List Component) :
    ofComponents? (component :: rest) =
      (ofComponents? rest).map fun path => { path with before := component :: path.before } := by
  cases component <;> first | rfl | cases h

theorem ofComponents?_items {component : Component} (h : component.IsItems)
    (rest : List Component) :
    ofComponents? (component :: rest) =
      match checkAfter rest with
      | .ok _ => .ok ⟨[], component, rest⟩
      | .error e => .error (.blocked e) := by
  cases component <;> first | rfl | exact h.elim

/-- The array path of some components is the only well-formed one that has them. -/
theorem ofComponents?_eq_ok {path : List Component} {around : ArrayPath} :
    ofComponents? path = .ok around ↔ path = around.components ∧ around.WellFormed := by
  constructor
  · intro h
    induction path generalizing around with
    | nil => cases h
    | cons component rest ih =>
      by_cases hsingle : component.IsSingle
      · rw [ofComponents?_cons hsingle] at h
        cases hrest : ofComponents? rest with
        | error e => simp [hrest, Except.map] at h
        | ok path =>
          obtain ⟨rfl, hpath⟩ := ih hrest
          rw [hrest] at h
          cases h
          refine ⟨rfl, ?_, hpath.array, hpath.after⟩
          exact List.forall_mem_cons.2 ⟨hsingle, hpath.before⟩
      · by_cases hitems : component.IsItems
        · rw [ofComponents?_items hitems] at h
          split at h
          case h_1 hafter =>
            cases h
            exact ⟨rfl, List.forall_mem_nil _, hitems, checkAfter_eq_ok.1 hafter⟩
          case h_2 => cases h
        · cases component <;>
            first | exact (hsingle rfl).elim | exact (hitems trivial).elim | cases h
  · rintro ⟨rfl, hbefore, harray, hafter⟩
    obtain ⟨before, array, after⟩ := around
    induction before with
    | nil =>
      show ofComponents? (array :: after) = _
      rw [ofComponents?_items harray, checkAfter_eq_ok.2 hafter]
    | cons component before ih =>
      obtain ⟨hsingle, hbefore⟩ := List.forall_mem_cons.1 hbefore
      show ofComponents? (component :: (before ++ array :: after)) = _
      rw [ofComponents?_cons hsingle]
      exact congrArg (Except.map _) (ih hbefore harray hafter)

theorem any_isPattern {path : ArrayPath} (h : path.WellFormed) :
    path.components.any Component.isPattern = true := by
  simp [components, h.array.isPattern]

end ArrayPath

/-- The walk to the array of a pattern. -/
def ArrayPath.hops (path : ArrayPath) : List Hop :=
  Reshape.hops .object path.before ++ path.array.hops .object

theorem ArrayPath.hops_eq {path : ArrayPath} (h : path.array.IsItems) :
    path.hops = Reshape.hops .object path.before ++ intoArray path.field := by
  unfold hops field
  cases ha : path.array <;> simp_all [Component.IsItems, Component.hops, Component.field?]

/-- The walk to the node of which the size is passed over. -/
def ArrayPath.offset? (path : ArrayPath) : Option (List Hop) :=
  match path.array with
  | .arrayAllOffset _ text =>
    match Path.parse text with
    | .ok components => some (Reshape.hops .object components)
    | .error _ => none
  | _ => none

theorem ArrayPath.offset?_eq_none {path : ArrayPath} (h : ¬ path.array.IsOffset) :
    path.offset? = none := by
  unfold offset?
  cases harray : path.array with
  | arrayAllOffset name text => exact (h (harray ▸ trivial)).elim
  | _ => rfl

/-- The document after a move for which there is a program. The other moves leave it alone. -/
def Move.direct (limit : Nat) (move : Move) (document : Json) : Except Fault Json :=
  match move.paths with
  | .error _ => .ok document
  | .ok (source, target) =>
    match Strategy.select source target with
    | .simpleMove =>
      Direct.copyOne limit move.mapping (hops .object source) (hops .leaf target) document
    | .replication =>
      match ArrayPath.ofComponents? target with
      | .ok target =>
        Direct.copyToEach limit move.mapping (hops .object source) target.hops
          (hops .object target.after) document
      | .error _ => .ok document
    | .patternMove =>
      match ArrayPath.ofComponents? source, ArrayPath.ofComponents? target with
      | .ok source, .ok target =>
        Direct.copyItems limit move.mapping target.offset? source.hops (hops .leaf source.after)
          target.hops (hops .leaf target.after) document
      | _, _ => .ok document

/-! ### What a program runs beyond its length -/

/-- What the run of a program takes beyond the length of the program. -/
structure Effort where
  /-- How often the body of the loop is run. -/
  rounds : Nat
  /-- How many instructions are run by jumps. -/
  jumps : Nat

/-- The body of the loop of a program, if there is a loop. -/
def Program.loopBody : List Instruction → Program
  | [] => []
  | .pushCommand body :: _ => body
  | _ :: rest => loopBody rest

theorem Program.loopBody_append {front : Program} (h : ∀ body, .pushCommand body ∉ front)
    (rest : Program) : loopBody (front ++ rest) = loopBody rest := by
  induction front with
  | nil => rfl
  | cons i front ih =>
    rw [← ih fun body hbody => h body (List.mem_cons_of_mem i hbody)]
    cases i with
    | pushCommand body => exact (h body List.mem_cons_self).elim
    | _ => rfl

/-- How many instructions a program completes. -/
def Effort.instructions (effort : Effort) (program : Program) : Nat :=
  program.length + effort.rounds * (Program.loopBody program).length + effort.jumps

/-- No more rounds, and no more instructions run by jumps. -/
instance : LE Effort where
  le effort other := effort.rounds ≤ other.rounds ∧ effort.jumps ≤ other.jumps

theorem Effort.instructions_mono {effort other : Effort} (h : effort ≤ other) (program : Program) :
    effort.instructions program ≤ other.instructions program :=
  Nat.add_le_add (Nat.add_le_add_left (Nat.mul_le_mul_right _ h.1) _) h.2

namespace Direct

/-- The source node of a copy to each item, the place of the array, and its length. -/
def arrayFound (limit : Nat) (source array : List Hop) (document : Json) :
    Except Fault (Json × Place × Nat) := do
  let origin ← locate limit source document
  let place ← locate limit array origin.document
  return (origin.node, place, ← size place.node)

/-- An array that is empty is made first. -/
def effortToEach (limit : Nat) (source array : List Hop) (document : Json) :
    Except Fault Effort :=
  (fun found => ⟨max 1 found.2.2, if found.2.2 = 0 then 1 else 0⟩) <$>
    arrayFound limit source array document

/-- The number of items to pass over, the place of the source array, and its length. -/
def itemsFound (limit : Nat) (offset : Option (List Hop)) (source : List Hop) (document : Json) :
    Except Fault (Nat × Place × Nat) := do
  let (first, document) ← passOver limit offset document
  let place ← locate limit source document
  return (first, place, ← size place.node)

/-- Nothing is run by jumps. -/
def effortOfItems (limit : Nat) (offset : Option (List Hop)) (source : List Hop)
    (document : Json) : Except Fault Effort :=
  (fun found => ⟨found.2.2, 0⟩) <$> itemsFound limit offset source document

variable {limit : Nat} {mapping : Option Mapping} {source array after : List Hop} {document : Json}

theorem size_of_arrayFound {value : Json} {place : Place} {count : Nat}
    (h : arrayFound limit source array document = .ok (value, place, count)) :
    size place.node = .ok count := by
  obtain ⟨origin, -, h⟩ := bind_eq_ok.1 h
  obtain ⟨base, -, h⟩ := bind_eq_ok.1 h
  obtain ⟨length, hlength, h⟩ := bind_eq_ok.1 h
  cases h
  exact hlength

theorem copyToEach_eq :
    copyToEach limit mapping source array after document = do
      let (value, place, count) ← arrayFound limit source array document
      let filled ← (List.range (max 1 count)).foldlM (fun array index =>
        writeAt limit (.item (some index) :: after) (mapped mapping value) array)
        (if count = 0 then Move.singleItem else place.node)
      return (place.put filled).document := by
  simp only [copyToEach, arrayFound, bind_assoc, pure_bind]

theorem copyItems_eq {offset : Option (List Hop)} {fromItem target toPlace : List Hop} :
    copyItems limit mapping offset source fromItem target toPlace document = (do
      let (first, place, count) ← itemsFound limit offset source document
      (List.range count).foldlM (fun document index =>
        copyOne limit mapping (source ++ .item (some index) :: fromItem)
          (target ++ .item (some (first + index)) :: toPlace) document) place.document) := by
  simp only [copyItems, itemsFound, bind_assoc, pure_bind]

end Direct

/-- What the program of a move runs beyond its length. -/
def Move.effort (limit : Nat) (move : Move) (document : Json) : Except Fault Effort :=
  match move.paths with
  | .error _ => .ok ⟨0, 0⟩
  | .ok (source, target) =>
    match Strategy.select source target with
    | .simpleMove => .ok ⟨0, 0⟩
    | .replication =>
      match ArrayPath.ofComponents? target with
      | .ok target => Direct.effortToEach limit (hops .object source) target.hops document
      | .error _ => .ok ⟨0, 0⟩
    | .patternMove =>
      match ArrayPath.ofComponents? source, ArrayPath.ofComponents? target with
      | .ok source, .ok target => Direct.effortOfItems limit target.offset? source.hops document
      | _, _ => .ok ⟨0, 0⟩

end Reshape
