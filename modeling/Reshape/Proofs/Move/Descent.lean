import Mathlib.Logic.Function.Iterate
import Reshape.Proofs.Move.Accepted
import Reshape.Proofs.Move.Simulation

/-!
# Down a route and up again

A route says how many locators its moves add to the trail of the cursor. So many steps up lead back
to where it started, whatever the moves have put into the document, and whatever else the machine
holds.

* `Cursor.descend`, a cursor below another one, and `moveOut_iterate_descend`, the way back;
* `Component.locators`, what a component adds to a trail;
* `Machine.Descends`, a machine that has only moved down, and `Steers.descends`, by induction on the
  moves of a walk;
* `Machine.run_moveOuts`, steps up on any machine;
* `Route.run_moves_and_back`, for the moves to the end of a path.
-/

namespace Reshape

/-! ### Cursors -/

namespace Cursor

/-- The cursor at the end of locators that lead down from its node. -/
def descend (c : Cursor) (locators : List Locator) : Cursor := locators.foldl intoChild c

variable {c : Cursor} {locators : List Locator}

theorem trail_descend (c : Cursor) (locators : List Locator) :
    (c.descend locators).trail = c.trail ++ locators := by
  induction locators generalizing c with
  | nil => exact (List.append_nil _).symm
  | cons locator rest ih =>
    rw [descend, List.foldl_cons]
    exact (ih (c.intoChild locator)).trans (by rw [trail_intoChild, List.append_assoc]; rfl)

/-- Moving down does not depend on the document. -/
theorem descend_document (c : Cursor) (document : Json) (locators : List Locator) :
    { c with document }.descend locators = { c.descend locators with document } := by
  induction locators generalizing c with
  | nil => rfl
  | cons locator rest ih => exact ih (c.intoChild locator)

theorem moveOut_intoChild (h : c.detached = false) (locator : Locator) :
    (c.intoChild locator).moveOut = c := by
  cases c
  cases h
  rfl

/-- So many steps up lead back. -/
theorem moveOut_iterate_descend {locators : List Locator}
    (h : locators ≠ [] → c.detached = false) :
    moveOut^[locators.length] (c.descend locators) = c := by
  induction locators generalizing c with
  | nil => rfl
  | cons locator rest ih =>
    have hd := h (List.cons_ne_nil _ _)
    have hrest : moveOut^[rest.length] (rest.foldl intoChild (c.intoChild locator)) =
      c.intoChild locator := ih fun _ => hd
    rw [List.length_cons, Function.iterate_succ_apply', descend, List.foldl_cons, hrest,
      moveOut_intoChild hd]

/-- They lead back whatever has become of the document. -/
theorem moveOut_iterate_of_descend {c' : Cursor} {locators : List Locator}
    (h : locators ≠ [] → c.detached = false)
    (hc' : c' = { c.descend locators with document := c'.document }) :
    moveOut^[locators.length] c' = { c with document := c'.document } := by
  conv_lhs => rw [hc', ← descend_document]
  exact moveOut_iterate_descend (c := { c with document := c'.document }) h

/-- A cursor that has changed its node and moved into a child that the node has then. -/
theorem current?_intoChild {node new : Json} {locator : Locator} (hnode : c.current? = some node)
    (hchild : (new.child? locator).isSome) :
    (intoChild { c with document := Json.replace c.trail new c.document }
      locator).current?.isSome := by
  obtain ⟨hattached, hresolve⟩ := attached_of_current? hnode
  have hnew : Json.resolve c.trail (Json.replace c.trail new c.document) = some new :=
    Json.resolve_replace new (Option.isSome_of_eq_some hresolve)
  have hcurrent : (intoChild { c with document := Json.replace c.trail new c.document }
      locator).current? =
        Json.resolve (c.trail ++ [locator]) (Json.replace c.trail new c.document) := by
    rw [← trail_intoChild]
    exact current?_of_attached hattached
  obtain ⟨child, hchild⟩ := Option.isSome_iff_exists.1 hchild
  rw [hcurrent, Json.resolve_append, hnew]
  simp [Json.resolve, hchild]

end Cursor

/-- What a component for a single node adds to the trail: the field, unless its name is empty, and
then the position. -/
def Component.locators : Component → List Locator
  | .field name => [.field name]
  | .arrayIndex name index =>
    (if name = "" then [] else [.field name]) ++ [.index index.toInt.toNat]
  | _ => []

/-- A position on the way to a node is one of an array of the document. -/
theorem Json.SizedBelow.position_lt {bound position : Nat} {document : Json} {trail : List Locator}
    (h : document.SizedBelow bound) (hr : (Json.resolve trail document).isSome)
    (hp : .index position ∈ trail) : position < bound := by
  induction trail generalizing document with
  | nil => cases hp
  | cons locator rest ih =>
    obtain ⟨child, hchild, hrest⟩ := Json.exists_child_of_resolve hr
    rcases List.mem_cons.1 hp with rfl | hlater
    · cases document with
      | array items =>
        have hlength : items.length < bound := h [] (.array items) _ rfl rfl
        exact Nat.lt_trans (List.getElem?_eq_some_iff.1 hchild).1 hlength
      | _ => cases hchild
    · exact ih (h.child locator hchild) hrest hlater

namespace Machine

/-! ### Steps down -/

/-- A machine that has made the steps of a walk down, and nothing else. Its document may have
changed on the way. -/
structure Descends (walk : List Hop) (m m' : Machine) : Prop where
  eq : ∃ document log, m' = { m with
    cursor := { m.cursor.descend (trailOf walk) with document }
    operations := m.operations + walk.length
    log }
  attached : walk ≠ [] → m.cursor.current?.isSome
  arrives : m.cursor.current?.isSome → m'.cursor.current?.isSome
  positions : .item none ∉ walk

variable {fuel : Nat} {run : Runner} {i : Instruction} {hop : Hop} {walk : List Hop}
  {program : Program} {m m' m₁ : Machine}

theorem Descends.stay (m : Machine) : Descends [] m m :=
  ⟨⟨m.document, m.log, rfl⟩, nofun, id, nofun⟩

theorem Descends.cons (h : Descends [hop] m m₁) (h' : Descends walk m₁ m') :
    Descends (hop :: walk) m m' := by
  refine ⟨?_, fun _ => h.attached (List.cons_ne_nil _ _), h'.arrives ∘ h.arrives, fun hnone => ?_⟩
  · obtain ⟨document, log, rfl⟩ := h.eq
    obtain ⟨document', log', rfl⟩ := h'.eq
    have hcount : m.operations + [hop].length + walk.length =
        m.operations + (hop :: walk).length := by
      simp only [List.length_cons, List.length_nil]
      omega
    refine ⟨document', log', ?_⟩
    rw [Cursor.descend_document, hcount]
    rfl
  · rcases List.mem_cons.1 hnone with hfirst | hrest
    · exact h.positions (List.mem_singleton.2 hfirst)
    · exact h'.positions hrest

theorem Descends.trail (h : Descends walk m m') :
    m'.cursor.trail = m.cursor.trail ++ trailOf walk := by
  obtain ⟨document, log, rfl⟩ := h.eq
  exact Cursor.trail_descend _ _

/-- Each position of the walk is one of an array of the document. -/
theorem Descends.position_lt {bound position : Nat} (h : Descends walk m m')
    (hsized : m'.document.SizedBelow bound) (hitem : .item (some position) ∈ walk) :
    position < bound := by
  obtain ⟨node, hnode⟩ :=
    Option.isSome_iff_exists.1 (h.arrives (h.attached (List.ne_nil_of_mem hitem)))
  have hresolve := Option.isSome_of_eq_some (Cursor.attached_of_current? hnode).2
  rw [h.trail] at hresolve
  exact hsized.position_lt hresolve
    (List.mem_append_right _ (List.mem_map_of_mem (f := Hop.locator) hitem))

/-- As many steps up as the walk has made lead back. -/
theorem Descends.moveOut_iterate (h : Descends walk m m') :
    Cursor.moveOut^[(trailOf walk).length] m'.cursor =
      { m.cursor with document := m'.document } := by
  obtain ⟨document, log, hm'⟩ := h.eq
  refine Cursor.moveOut_iterate_of_descend (fun hne => ?_) (by rw [hm'])
  have hwalk : walk ≠ [] := fun hnil => hne (congrArg trailOf hnil)
  obtain ⟨node, hnode⟩ := Option.isSome_iff_exists.1 (h.attached hwalk)
  exact (Cursor.attached_of_current? hnode).1

/-- What a single instruction that succeeds has done, besides being reported and counted. -/
theorem exists_of_step
    (hi : ∀ m : Machine, m.carryOut run i = some (.ofEffect i.perform m))
    (h : step run i m = some (.done m')) :
    ∃ m₁ log, i.perform.run (m.announce i) = .ok () m₁ ∧
      m' = { m₁ with operations := m₁.operations + 1, log } := by
  rw [step_eq, hi] at h
  unfold Outcome.ofEffect at h
  cases hrun : i.perform.run (m.announce i) with
  | error cause m₁ =>
    rw [hrun] at h
    cases h
  | ok _ m₁ =>
    rw [hrun] at h
    obtain ⟨log, -, hcomplete⟩ := m₁.complete_eq i
    have hdone : m₁.complete i = .done m' := Option.some.inj h
    rw [hcomplete] at hdone
    split at hdone <;> cases hdone
    exact ⟨m₁, log, rfl, rfl⟩

theorem descends_field {mode : FieldMode} {name : String}
    (h : step run (.moveIntoField mode name) m = some (.done m')) :
    Descends [.field mode name] m m' := by
  obtain ⟨m₁, log, hrun, rfl⟩ := exists_of_step (fun _ => rfl) h
  obtain ⟨log', hannounce⟩ := m.announce_eq (.moveIntoField mode name)
  rw [hannounce, Instruction.perform, Effect.run_moveCursor] at hrun
  split at hrun
  next cursor hcursor =>
    cases hrun
    obtain ⟨node, new, hnode, hnew, rfl⟩ := Cursor.intoField_eq_ok hcursor
    obtain ⟨-, hchild⟩ := Cursor.withField_eq_ok hnew
    exact ⟨⟨_, log, rfl⟩, fun _ => Option.isSome_of_eq_some hnode,
      fun _ => Cursor.current?_intoChild hnode hchild, by simp⟩
  next => cases hrun

theorem descends_index {number : Number}
    (hlast : ∀ position, number.toIndex? = some position → position < Number.lastIndex)
    (h : step run (.moveIntoIndex (.given (.number number))) m = some (.done m')) :
    Descends [.item number.toIndex?] m m' := by
  obtain ⟨m₁, log, hrun, rfl⟩ := exists_of_step (fun _ => rfl) h
  obtain ⟨log', hannounce⟩ := m.announce_eq (.moveIntoIndex (.given (.number number)))
  replace hrun : (Effect.intoIndex (.number number)).run { m with log := log' } = .ok () m₁ := by
    rw [← hannounce]
    exact hrun
  cases hposition : number.toIndex? with
  | none =>
    rw [Effect.run_intoIndex_of_none hposition] at hrun
    cases hrun
  | some position =>
    have hindex : (Json.number number).toIndex? = some position := hposition
    rw [Effect.run_intoIndex hindex] at hrun
    split at hrun
    next cursor hcursor =>
      cases hrun
      obtain ⟨node, new, hnode, hnew, rfl⟩ := Cursor.intoIndex_eq_ok hcursor
      obtain ⟨items, rfl, hlength⟩ := Cursor.withIndex_eq_ok hnew
      have hitem : position < items.length := by
        have := hlast position hposition
        omega
      have hchild : ((Json.array items).child? (.index position)).isSome := by
        simpa [Json.child?, Json.getIndex?] using hitem
      exact ⟨⟨_, log, rfl⟩, fun _ => Option.isSome_of_eq_some hnode,
        fun _ => Cursor.current?_intoChild hnode hchild, by simp⟩
    next => cases hrun
    next => cases hrun

end Machine

/-- **Moves of a walk that succeed have made its steps**, from whatever machine. -/
theorem Steers.descends {fuel : Nat} {program : Program} {walk : List Hop} {m m' : Machine}
    (h : Steers [] program walk) (hrun : Machine.run (fuel + 1) program m = some (.done m')) :
    Machine.Descends walk m m' := by
  generalize hvalues : ([] : List Json) = values at h
  induction h generalizing m with
  | stay =>
    cases hrun
    exact .stay _
  | field mode name _ ih =>
    obtain ⟨m₁, hstep, hrest⟩ := Machine.exists_of_run_cons hrun
    exact (Machine.descends_field hstep).cons (ih hrest)
  | given word _ ih =>
    obtain ⟨m₁, hstep, hrest⟩ := Machine.exists_of_run_cons hrun
    exact (Machine.descends_index (fun _ => Number.toIndex?_ofWord_lt) hstep).cons (ih hrest)
  | counter hv _ _ _ => cases hvalues.trans hv

/-! ### Steps up -/

theorem Machine.step_moveOut (run : Runner) (m : Machine) :
    ∃ log, Machine.step run .moveOut m = some (if m.limits.operations ≤ m.operations then
        .bare (.operationLimitExceeded m.limits.operations)
          { m with cursor := m.cursor.moveOut, operations := m.operations + 1, log }
      else .done { m with cursor := m.cursor.moveOut, operations := m.operations + 1, log }) := by
  obtain ⟨log, hannounce⟩ := m.announce_eq .moveOut
  obtain ⟨log', -, hcomplete⟩ :=
    Machine.complete_eq { m with cursor := m.cursor.moveOut, log } .moveOut
  refine ⟨log', ?_⟩
  rw [← hcomplete, Machine.step, hannounce]
  rfl

/-- Steps up go back on whatever machine, or there were too many instructions. -/
theorem Machine.run_moveOuts (fuel count : Nat) (m : Machine) :
    ∃ o, Machine.run (fuel + 1) (List.replicate count .moveOut) m = some o ∧
      ((∃ log, o = .done { m with
        cursor := Cursor.moveOut^[count] m.cursor
        operations := m.operations + count
        log }) ∨
      ∃ left, o = .bare (.operationLimitExceeded m.limits.operations) left) := by
  induction count generalizing m with
  | zero => exact ⟨_, rfl, .inl ⟨m.log, rfl⟩⟩
  | succ count ih =>
    obtain ⟨log, hstep⟩ := Machine.step_moveOut (Machine.run fuel) m
    rw [List.replicate_succ, Machine.run, inSequence, hstep]
    by_cases hlimit : m.limits.operations ≤ m.operations
    · rw [if_pos hlimit]
      exact ⟨_, rfl, .inr ⟨_, rfl⟩⟩
    rw [if_neg hlimit]
    obtain ⟨o, ho, h⟩ := ih { m with
      cursor := m.cursor.moveOut, operations := m.operations + 1, log }
    rcases h with ⟨last, rfl⟩ | hceiling
    · refine ⟨_, ho, .inl ⟨last, ?_⟩⟩
      rw [Function.iterate_succ_apply, Nat.add_assoc, Nat.add_comm 1]
    · exact ⟨o, ho, .inr hceiling⟩

/-! ### Paths -/

/-- A word that is read as a position among the first 2⁵³ is that position, and so is a word up to
2⁵³. A greater word may be rounded. -/
theorem eq_of_position? {word : Int64} {position : Nat} (h : position? word = some position)
    (hle : position < 2 ^ 53 ∨ word.toInt ≤ 2 ^ 53) : position = word.toInt.toNat := by
  unfold position? at h
  by_cases hneg : word.toInt < 0
  · rw [Number.toIndex?_ofWord_of_neg hneg] at h
    cases h
  by_cases hlow : word.toInt ≤ 2 ^ 53
  · rw [Number.toIndex?_ofWord (by omega) hlow] at h
    exact (Option.some.inj h).symm
  · obtain ⟨far, hfar, hge⟩ := Number.exists_toIndex?_ofWord (show 2 ^ 53 ≤ word.toInt by omega)
    cases h.symm.trans hfar
    omega

theorem trailOf_intoArray (field : String) :
    trailOf (intoArray field) = if field = "" then [] else [.field field] := by
  unfold intoArray
  split <;> rfl

/-- The steps along a component add its locators, unless they go to a rounded position. -/
theorem Component.trailOf_hops {component : Component} (mode : FieldMode)
    (hsingle : component.IsSingle)
    (hexact : ∀ name index, component = .arrayIndex name index →
      position? index = some index.toInt.toNat) :
    trailOf (component.hops mode) = component.locators := by
  cases component with
  | field name => rfl
  | arrayIndex name index =>
    rw [hops, hexact name index rfl, trailOf, List.map_append, ← trailOf, trailOf_intoArray]
    rfl
  | _ => cases hsingle

/-- The steps along a path are those along its components. `mode` is for the last one. -/
theorem hops_cons_cons (mode : FieldMode) (component next : Component) (rest : List Component) :
    hops mode (component :: next :: rest) =
      component.hops .object ++ hops mode (next :: rest) := rfl

theorem trailOf_hops {path : List Component} (mode : FieldMode)
    (hpath : ∀ component ∈ path, component.IsSingle)
    (hexact : ∀ name index, .arrayIndex name index ∈ path →
      position? index = some index.toInt.toNat) :
    trailOf (hops mode path) = path.flatMap Component.locators := by
  induction path with
  | nil => rfl
  | cons component rest ih =>
    obtain ⟨hfirst, hrest⟩ := List.forall_mem_cons.1 hpath
    have hcomponent (mode : FieldMode) : trailOf (component.hops mode) = component.locators :=
      Component.trailOf_hops mode hfirst fun name index heq =>
        hexact name index (heq ▸ List.mem_cons_self)
    cases rest with
    | nil =>
      rw [List.flatMap_singleton]
      exact hcomponent mode
    | cons next rest =>
      rw [hops_cons_cons, trailOf, List.map_append, ← trailOf, ← trailOf, List.flatMap_cons,
        hcomponent, ih hrest fun name index h => hexact name index (List.mem_cons_of_mem _ h)]

theorem item_mem_hops {path : List Component} {name : String} {index : Int64} (mode : FieldMode)
    (h : .arrayIndex name index ∈ path) : .item (position? index) ∈ hops mode path := by
  have hlast (mode : FieldMode) :
      .item (position? index) ∈ (Component.arrayIndex name index).hops mode :=
    List.mem_append_right _ (List.mem_singleton_self _)
  induction path with
  | nil => cases h
  | cons component rest ih =>
    cases rest with
    | nil =>
      obtain rfl := List.mem_singleton.1 h
      exact hlast mode
    | cons next rest =>
      rw [hops_cons_cons]
      rcases List.mem_cons.1 h with rfl | hrest
      · exact List.mem_append_left _ (hlast .object)
      · exact List.mem_append_right _ (ih hrest)

/-- **Moves along a path to a single node that succeed have added as many locators to the trail as
the depth of the route**, and they are those of the components in their order. So many steps up
lead back to the same cursor, though not to the same document. They succeed, unless there are too
many instructions.

An index is a number on the way, which is rounded if it is beyond 2⁵³. There is such a node only in
a document with as many items. -/
theorem Route.run_moves_and_back {path : List Component} (mode : FieldMode)
    (hpath : ∀ component ∈ path, component.IsSingle) :
    ∃ route, Route.to? mode path = .ok route ∧
      ∀ {fuel : Nat} {m m' : Machine}, Machine.run fuel route.moves m = some (.done m') →
        m'.cursor.trail = m.cursor.trail ++ trailOf (hops mode path) ∧
        (trailOf (hops mode path)).length = route.depth ∧
        (m'.document.SizedBelow (2 ^ 53) ∨
            (∀ name index, .arrayIndex name index ∈ path → index.toInt ≤ 2 ^ 53) →
          trailOf (hops mode path) = path.flatMap Component.locators) ∧
        ∃ o, Machine.run fuel (List.replicate route.depth .moveOut) m' = some o ∧
          ((∃ log, o = .done { m with
            cursor := { m.cursor with document := m'.document }
            operations := m'.operations + route.depth
            log }) ∨
          ∃ left, o = .bare (.operationLimitExceeded m.limits.operations) left) := by
  obtain ⟨route, hroute⟩ := Route.exists_to? mode hpath
  have hfollows := Route.follows_to hroute
  refine ⟨route, hroute, fun {fuel m m'} hrun => ?_⟩
  cases fuel with
  | zero => cases hrun
  | succ fuel =>
  have hdescends := (hfollows.steers []).descends hrun
  have hlength : (trailOf (hops mode path)).length = route.depth := by
    rw [hfollows.depth, trailOf, List.length_map]
  refine ⟨hdescends.trail, hlength, fun hsmall => ?_, ?_⟩
  · refine trailOf_hops mode hpath fun name index hindex => ?_
    have hitem := item_mem_hops mode hindex
    obtain ⟨position, hposition⟩ := Option.ne_none_iff_exists'.1
      fun hnone => hdescends.positions (hnone ▸ hitem)
    rw [hposition] at hitem ⊢
    exact congrArg some (eq_of_position? hposition (hsmall.imp (hdescends.position_lt · hitem)
      (· name index hindex)))
  · obtain ⟨o, ho, ⟨last, hlast⟩ | hceiling⟩ := Machine.run_moveOuts fuel route.depth m'
    · refine ⟨o, ho, .inl ⟨last, ?_⟩⟩
      rw [hlast, ← hlength, hdescends.moveOut_iterate]
      obtain ⟨document, log, rfl⟩ := hdescends.eq
      rfl
    · obtain ⟨document, log, rfl⟩ := hdescends.eq
      exact ⟨o, ho, .inr hceiling⟩

/-- There are three locators for two components, one of which has no name. The array at the end
becomes longer on the way. -/
theorem Route.run_moves_and_back_of_nested_arrays :
    (∀ component ∈ [Component.arrayIndex "a" 1, .arrayIndex "" 2], component.IsSingle) ∧
    ∃ route m', Route.to? .object [.arrayIndex "a" 1, .arrayIndex "" 2] = .ok route ∧
      Machine.run 1 route.moves
        (.start (.object [("a", .array [.null, .array [.null]])]) {} false) = some (.done m') ∧
      m'.cursor.trail = [.field "a", .index 1, .index 2] ∧
      [Locator.field "a", .index 1, .index 2].length = route.depth ∧
      ∃ log, Machine.run 1 (List.replicate route.depth .moveOut) m' =
        some (.done { Machine.start m'.document {} false with
          operations := m'.operations + route.depth
          log }) := by
  have hpath : ∀ component ∈ [Component.arrayIndex "a" 1, .arrayIndex "" 2],
      component.IsSingle := by
    simp [Component.IsSingle, Component.isPattern]
  refine ⟨hpath, ?_⟩
  obtain ⟨route, hroute, hback⟩ := Route.run_moves_and_back .object hpath
  have hends : (Route.to? .object [.arrayIndex "a" 1, .arrayIndex "" 2]).toOption.bind
      (fun route => (Machine.run 1 route.moves
        (.start (.object [("a", .array [.null, .array [.null]])]) {} false)).map fun o =>
          (o.isDone, decide (o.machine.document.widest < 2 ^ 53),
            (Machine.run 1 (List.replicate route.depth .moveOut) o.machine).map
              Outcome.isDone)) = some (true, true, some true) := by
    decide +kernel
  rw [hroute] at hends
  obtain ⟨o, ho, hdone⟩ := Option.map_eq_some_iff.1 hends
  obtain ⟨hdone, hwidest, hout⟩ := Prod.mk.injEq _ _ _ _ ▸ (Prod.mk.injEq _ _ _ _ ▸ hdone)
  cases o with
  | failed e m' => cases hdone
  | done m' =>
    obtain ⟨htrail, hlength, hliteral, o, hup, hends⟩ := hback ho
    rw [hliteral (.inl (Json.sizedBelow_of_widest_lt _ (of_decide_eq_true hwidest)))]
      at htrail hlength
    refine ⟨route, m', hroute, ho, htrail, hlength, ?_⟩
    rcases hends with ⟨log, rfl⟩ | ⟨left, rfl⟩
    · exact ⟨log, hup⟩
    · rw [Outcome.machine, hup] at hout
      cases hout

end Reshape
