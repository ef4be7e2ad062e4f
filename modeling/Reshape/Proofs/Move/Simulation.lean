import Reshape.Move.Apply
import Reshape.Proofs.Machine.Afford
import Reshape.Proofs.Move.Direct

/-!
# Programs of moves

The program of a move does what the move does directly. Every part of a program realizes the part
of `Move.direct` that it was made for, from whatever scene it is run on.

* `Steers`, programs that make the steps of a walk, and `Route.Follows`, their routes;
* `realizes_copyOne`, `realizes_copyToEach` and `realizes_copyItems`, for the three strategies;
* `exists_copyNode`, `exists_fillArray` and `exists_copyArray`, what `Move.copy` makes for each
  strategy, and `Move.Compiled`, the programs that there are, with the walks that they make;
* `program_spends`, for the program of a move on any machine and what it takes, and
  `program_agrees`, without that.
-/

namespace Reshape

variable {limits : Limits} {fuel : Nat} {p : Place} {elements values : List Json}
  {commands : List Program} {operations : Nat}

/-! ### Composition -/

namespace Realizes

variable {α β : Type} {program rest : Program} {s s' : Scene} {r : Except Fault α}
  {Q : α → Scene → Prop} {Q' : β → Scene → Prop}

/-- A program that leads from one scene to another, in front of a program. -/
theorem andThen {a : α} (h : Realizes limits fuel program s (.ok a) fun _ t => t = s')
    {r : Except Fault β} (h' : Realizes limits fuel rest s' r Q') :
    Realizes limits fuel (program ++ rest) s r Q' := by
  refine h.append (f := fun _ => r) ?_
  rintro - _ - rfl
  exact h'

theorem map (h : Realizes limits fuel program s r Q) {f : α → β}
    (hq : ∀ a s, r = .ok a → Q a s → Q' (f a) s) :
    Realizes limits fuel program s (f <$> r) Q' := by
  intro m hm
  obtain ⟨o, ho, hagrees⟩ := h m hm
  refine ⟨o, ho, ?_⟩
  rcases hagrees with ⟨hr, hm, h⟩ | ⟨m, hc⟩ | ⟨m, hr, he⟩
  · exact .done (by rw [hr, map_ok]) hm (hq _ _ hr h)
  · exact .ceiling m hc
  · exact .fault m (by rw [hr, map_error]) he

theorem of_map {f : α → β} (h : Realizes limits fuel program s (f <$> r) Q') :
    Realizes limits fuel program s r fun a t => Q' (f a) t := by
  intro m hm
  obtain ⟨o, ho, hagrees⟩ := h m hm
  refine ⟨o, ho, ?_⟩
  cases r with
  | ok a =>
    rcases hagrees with ⟨hr, hm, h⟩ | ⟨m, hc⟩ | ⟨m, hr, he⟩
    · cases hr
      exact .done rfl hm h
    · exact .ceiling m hc
    · cases hr
  | error fault =>
    rcases hagrees with ⟨hr, hm, h⟩ | ⟨m, hc⟩ | ⟨m, hr, he⟩
    · cases hr
    · exact .ceiling m hc
    · cases hr
      exact .fault m rfl he

end Realizes

/-! ### Walks -/

/-- The instructions that make the steps of a walk, on a given value stack. -/
inductive Steers (values : List Json) : Program → List Hop → Prop
  | stay : Steers values [] []
  | field {program : Program} {walk : List Hop} (mode : FieldMode) (name : String)
    (h : Steers values program walk) :
    Steers values (.moveIntoField mode name :: program) (.field mode name :: walk)
  | given {program : Program} {walk : List Hop} (word : Int64) (h : Steers values program walk) :
    Steers values (.moveIntoIndex (.given (Json.ofWord word)) :: program)
      (.item (position? word) :: walk)
  | counter {program : Program} {walk : List Hop} {count : Nat} {rest : List Json}
    (hv : values = Json.ofNat count :: rest) (hc : count ≤ 2 ^ 53)
    (h : Steers values program walk) :
    Steers values (.moveIntoIndex (.value 0) :: program) (.item (some count) :: walk)

namespace Steers

variable {program rest : Program} {walk behind : List Hop}

theorem append (h : Steers values program walk) (h' : Steers values rest behind) :
    Steers values (program ++ rest) (walk ++ behind) := by
  induction h with
  | stay => exact h'
  | field mode name _ ih => exact .field mode name ih
  | given word _ ih => exact .given word ih
  | counter hv hc _ ih => exact .counter hv hc ih

/-- One step, and the steps behind it. -/
theorem realizes_cons {i : Instruction} {hop : Hop}
    (h : Acts limits i ⟨p, elements, values, commands, operations⟩
      ((fun inner => ⟨inner.within p, elements, values, commands, operations⟩) <$>
        hop.enter limits.arrayPadding p.node))
    (h' : ∀ (p : Place) (operations : Nat),
      Realizes limits (fuel + 1) program ⟨p, elements, values, commands, operations⟩
        (locate limits.arrayPadding walk p.node) fun inner s =>
          s = ⟨inner.within p, elements, values, commands, operations + program.length⟩) :
    Realizes limits (fuel + 1) (i :: program) ⟨p, elements, values, commands, operations⟩
      (locate limits.arrayPadding (hop :: walk) p.node) fun inner s =>
        s = ⟨inner.within p, elements, values, commands, operations + (i :: program).length⟩ := by
  refine Realizes.cons h.realizes.of_map ?_
  rintro first _ - rfl
  refine (h' (first.within p) (operations + 1)).map ?_
  rintro last _ - rfl
  rw [Place.within_within, List.length_cons, Nat.add_assoc, Nat.add_comm 1]

/-- The moves of a walk lead to the place at its end. -/
theorem realizes (h : Steers values program walk) (p : Place) (operations : Nat) :
    Realizes limits (fuel + 1) program ⟨p, elements, values, commands, operations⟩
      (locate limits.arrayPadding walk p.node) fun inner s =>
        s = ⟨inner.within p, elements, values, commands, operations + program.length⟩ := by
  induction h generalizing p operations with
  | stay => exact .nil (by rw [Place.atRoot_within]; rfl)
  | field mode name _ ih => exact realizes_cons (acts_moveIntoField mode name _) ih
  | given word _ ih =>
    exact realizes_cons (acts_moveIntoIndex (Number.ofWord word) (fun _ _ => rfl)
      fun _ => Number.toIndex?_ofWord_lt) ih
  | @counter program walk count rest hv hc h ih =>
    -- A count of at most 2⁵³ is read back as the position that it is.
    have hindex : (Number.ofNat count).toIndex? = some count := Number.toIndex?_ofNat hc
    refine realizes_cons ?_ ih
    rw [← hindex]
    refine acts_moveIntoIndex _ (resolve_value (by rw [hv]; rfl)) fun position hp => ?_
    cases hindex.symm.trans hp
    exact Nat.lt_of_le_of_lt hc (by decide)

/-- The moves of a walk are single instructions. -/
theorem isStraight (h : Steers values program walk) : program.IsStraight := by
  induction h with
  | stay => exact .nil
  | field mode name _ ih => exact .cons rfl ih
  | given word _ ih => exact .cons rfl ih
  | counter hv hc _ ih => exact .cons rfl ih

end Steers

/-! ### Routes -/

/-- The moves of a route make the steps of a walk, which are as many as its depth. -/
structure Route.Follows (route : Route) (walk : List Hop) : Prop where
  steers : ∀ values, Steers values route.moves walk
  depth : route.depth = walk.length

namespace Route

variable {first second route : Route} {mode : FieldMode} {walk behind : List Hop}

theorem Follows.append (h : first.Follows walk) (h' : second.Follows behind) :
    (first.append second).Follows (walk ++ behind) where
  steers := fun values => (h.steers values).append (h'.steers values)
  depth := by rw [List.length_append, ← h.depth, ← h'.depth, Route.append]

theorem follows_stay : stay.Follows [] := ⟨fun _ => .stay, rfl⟩

theorem follows_intoArray (field : String) :
    (intoArray field).Follows (Reshape.intoArray field) := by
  unfold intoArray Reshape.intoArray
  split
  · exact follows_stay
  · exact ⟨fun _ => .field _ _ .stay, rfl⟩

theorem follows_along {component : Component} (h : along? mode component = .ok route) :
    route.Follows (component.hops mode) := by
  cases component with
  | field name =>
    cases h
    exact ⟨fun _ => .field _ _ .stay, rfl⟩
  | arrayIndex name index =>
    cases h
    exact (follows_intoArray name).append ⟨fun _ => .given _ .stay, rfl⟩
  | _ => cases h

/-- The route along a component, and the route behind it. -/
theorem follows_next {component : Component} {rest : Except Blocked Route}
    (h : (match along? .object component with
      | Except.error e => Except.error e
      | Except.ok first => rest.map first.append) = .ok route)
    (hrest : ∀ second, rest = .ok second → second.Follows behind) :
    route.Follows (component.hops .object ++ behind) := by
  cases hfirst : along? .object component with
  | error e => simp [hfirst] at h
  | ok first =>
    rw [hfirst] at h
    obtain ⟨second, hsecond, rfl⟩ := map_eq_ok.1 h
    exact (follows_along hfirst).append (hrest second hsecond)

theorem follows_to {path : List Component} (h : to? mode path = .ok route) :
    route.Follows (hops mode path) := by
  induction path generalizing route with
  | nil =>
    cases h
    exact follows_stay
  | cons component rest ih =>
    cases rest with
    | nil => exact follows_along h
    | cons next rest => exact follows_next h fun _ => ih

theorem hops_object_cons (component : Component) (rest : List Component) :
    hops .object (component :: rest) = component.hops .object ++ hops .object rest := by
  cases rest with
  | nil => exact (List.append_nil _).symm
  | cons next rest => rfl

theorem follows_toOffset {path : List Component} (h : toOffset? path = .ok route) :
    route.Follows (hops .object path) := by
  induction path generalizing route with
  | nil =>
    cases h
    exact follows_stay
  | cons component rest ih =>
    rw [hops_object_cons]
    cases component with
    | arrayAll name =>
      obtain ⟨second, hsecond, rfl⟩ := map_eq_ok.1 h
      exact (follows_intoArray name).append (ih hsecond)
    | _ => exact follows_next h fun _ => ih

end Route

/-! ### Parts of programs -/

namespace Move

variable {route : Route} {walk : List Hop} {mapping : Option Mapping}

/-- From wherever the cursor is, a route from the root leads to the end of its walk. -/
theorem realizes_fromRoot (h : Steers values route.moves walk) (p : Place) (operations : Nat) :
    Realizes limits (fuel + 1) (fromRoot route) ⟨p, elements, values, commands, operations⟩
      (locate limits.arrayPadding walk p.document) fun place s =>
        s = ⟨place, elements, values, commands, operations + (fromRoot route).length⟩ := by
  refine .next (acts_moveToRoot _) ((h.realizes (.atRoot p.document) (operations + 1)).mono ?_)
  rintro place _ - rfl
  rw [Place.within_atRoot, fromRoot, List.length_cons, Nat.add_assoc, Nat.add_comm 1]

theorem isStraight_fromRoot (h : route.Follows walk) : (fromRoot route).IsStraight :=
  .cons rfl (h.steers []).isStraight

theorem isStraight_pickUp (mapping : Option Mapping) : (pickUp mapping).IsStraight := by
  cases mapping with
  | none => exact .cons rfl .nil
  | some table => exact .cons rfl (.cons rfl .nil)

theorem realizes_pickUp (mapping : Option Mapping) (p : Place) (operations : Nat) :
    Realizes limits (fuel + 1) (pickUp mapping) ⟨p, elements, values, commands, operations⟩
      (.ok ()) fun _ s =>
        s = ⟨p, Direct.mapped mapping p.node :: elements, values, commands,
          operations + (pickUp mapping).length⟩ := by
  cases mapping with
  | none => exact .next acts_pushElement (.nil rfl)
  | some table => exact .next acts_pushElement (.next (acts_mapElement table) (.nil rfl))

theorem realizes_moveOuts (count : Nat) (p : Place) (operations : Nat) :
    Realizes limits (fuel + 1) (List.replicate count .moveOut)
      ⟨p, elements, values, commands, operations⟩ (.ok ()) fun _ s =>
        s = ⟨p.ups count, elements, values, commands, operations + count⟩ := by
  induction count generalizing p operations with
  | zero => exact .nil rfl
  | succ count ih =>
    refine .next (acts_moveOut _) ((ih p.up (operations + 1)).mono ?_)
    rintro _ _ - rfl
    rw [Place.ups, Nat.add_assoc, Nat.add_comm 1]

/-- A scene with a document, wherever in it the place is. -/
structure Shown (elements values : List Json) (commands : List Program) (operations : Nat)
    (document : Json) (s : Scene) : Prop where
  document : s.place.document = document
  elements : s.elements = elements
  values : s.values = values
  commands : s.commands = commands
  operations : s.operations = operations

theorem Shown.exists_place {document : Json} {s : Scene}
    (h : Shown elements values commands operations document s) :
    ∃ place : Place, place.document = document ∧
      s = ⟨place, elements, values, commands, operations⟩ := by
  obtain ⟨place, _, _, _, _⟩ := s
  exact ⟨place, h.document, by rw [Scene.mk.injEq]; exact
    ⟨rfl, h.elements, h.values, h.commands, h.operations⟩⟩

/-- The count of instructions behind a program that takes an effort, in which there were not too
many rounds. -/
def Spent (limits : Limits) (program : Program) (effort : Except Fault Effort)
    (operations total : Nat) : Prop :=
  ∃ e, effort = .ok e ∧ e.rounds ≤ limits.loopIterations ∧
    total = operations + e.instructions program

/-! ### One node to one place -/

/-- A program that copies one node to one place. -/
def copyNode (mapping : Option Mapping) (toSource toTarget : Route) : Program :=
  fromRoot toSource ++ pickUp mapping ++ [.moveOut] ++ fromRoot toTarget ++ [.popElement, .moveOut]

theorem realizes_copyOne {toSource toTarget : Route} {source target : List Hop}
    (hs : toSource.Follows source) (ht : toTarget.Follows target) (p : Place)
    (operations : Nat) :
    Realizes limits (fuel + 1) (copyNode mapping toSource toTarget)
      ⟨p, elements, values, commands, operations⟩
      (Direct.copyOne limits.arrayPadding mapping source target p.document)
      (Shown elements values commands
        (operations + (copyNode mapping toSource toTarget).length)) := by
  unfold copyNode
  simp only [List.append_assoc]
  refine (realizes_fromRoot (hs.steers values) p operations).append ?_
  rintro origin _ - rfl
  refine (realizes_pickUp mapping origin _).andThen (.next (acts_moveOut _) ?_)
  refine (realizes_fromRoot (ht.steers values) _ _).append ?_
  rintro slot _ - rfl
  refine .next acts_popElement (.next (acts_moveOut _) (.nil ⟨rfl, rfl, rfl, rfl, ?_⟩))
  simp only [Scene.tick, List.length_append, List.length_cons, List.length_nil, Nat.add_assoc,
    Nat.zero_add]

/-! ### One node to each item of an array -/

theorem realizes_copyToItem {toPlace : Route} {after : List Hop} (hp : toPlace.Follows after)
    {value : Json} {index : Nat} (hi : index + 1 ≤ 2 ^ 53) (base : Place) (array : Json)
    (operations : Nat) :
    Realizes limits (fuel + 1) (copyToItem toPlace)
      ⟨base.put array, [value], Json.ofNat index :: values, commands, operations⟩
      (Direct.writeAt limits.arrayPadding (.item (some index) :: after) value array) fun array s =>
        s = ⟨base.put array, [value], Json.ofNat (index + 1) :: values, commands,
          operations + (copyToItem toPlace).length⟩ := by
  have hsteers : Steers (Json.ofNat index :: values)
      (.moveIntoIndex (.value 0) :: toPlace.moves) (.item (some index) :: after) :=
    .counter rfl (by omega) (hp.steers _)
  unfold copyToItem
  simp only [List.append_assoc]
  refine (hsteers.realizes (base.put array) operations).append ?_
  rintro slot _ hslot rfl
  refine .next acts_duplicateElement (.next acts_popElement ?_)
  -- As many moves out as the route has made moves in lead back to the array.
  have hdepth : toPlace.depth + 1 = slot.trail.length := by
    rw [trail_of_locate hslot, trailOf, List.length_map, List.length_cons, hp.depth]
  have hups : ((slot.within (base.put array)).put value).ups slot.trail.length =
      base.put (slot.put value).document := by
    rw [Place.within_put]
    exact (Place.ups_within (slot.put value) (base.put array)).trans (Place.put_put _ _ _)
  rw [hdepth]
  refine (realizes_moveOuts _ _ _).andThen (.next (acts_increment hi) (.nil ?_))
  rw [hups]
  simp only [Scene.tick, List.length_append, List.length_cons, List.length_nil, Nat.add_assoc,
    Nat.zero_add, List.length_replicate]

/-- The part of a program that gives an array an item if it has none. -/
def ensureItem : Program :=
  [.storeGiven (Json.ofInt 1), .compare .ge, .jumpIfFalse (.storeElement singleItem)]

theorem realizes_ensureItem {count : Nat} (hc : count ≤ 2 ^ 53) (p : Place) (operations : Nat) :
    Realizes limits (fuel + 2) ensureItem
      ⟨p, elements, Json.ofNat count :: values, commands, operations⟩ (.ok ()) fun _ s =>
        s = ⟨p.put (if count = 0 then singleItem else p.node), elements, values, commands,
          operations + if count = 0 then 4 else 3⟩ := by
  refine .next (acts_storeValue fun _ _ => rfl) (.next (acts_compare hc (by decide)) ?_)
  by_cases hzero : count = 0
  · have htest : decide (1 ≤ count) = false := by simp [hzero]
    rw [if_pos hzero, if_pos hzero, htest]
    refine (realizes_jumpIfFalse_false (Q := fun _ s =>
      s = ⟨p.put singleItem, elements, values, commands, operations + 3⟩)
      (.next (acts_storeElement singleItem) (.nil rfl))).mono ?_
    rintro _ _ - ⟨_, rfl, rfl⟩
    rfl
  · have htest : decide (1 ≤ count) = true := decide_eq_true (Nat.pos_of_ne_zero hzero)
    rw [if_neg hzero, if_neg hzero, htest, Place.put_node]
    exact realizes_jumpIfFalse_true _

/-- The loop over the items of an array stays at the array. -/
theorem realizes_fill {toPlace : Route} {after : List Hop} (hp : toPlace.Follows after)
    (value : Json) {count : Nat} (hc : count ≤ 2 ^ 53) (base : Place) (array : Json)
    (operations : Nat) :
    Realizes limits (fuel + 2) (countingLoop (copyToItem toPlace))
      ⟨base.put array, [value], Json.ofNat 0 :: Json.ofNat count :: values, commands, operations⟩
      ((List.range count).foldlM (fun array index =>
        Direct.writeAt limits.arrayPadding (.item (some index) :: after) value array) array)
      fun array s => count ≤ limits.loopIterations ∧
        s = ⟨base.put array, [value], Json.ofNat count :: Json.ofNat count :: values, commands,
          operations + 2 + count * (copyToItem toPlace).length⟩ := by
  -- The place is always the array that is filled, with what has been written to it so far.
  refine (realizes_countingLoop (R := fun i array place total => i ≤ limits.loopIterations ∧
    place = base.put array ∧ total = operations + 1 + i * (copyToItem toPlace).length) hc
    ?_ ⟨Nat.zero_le _, rfl, by rw [Nat.zero_mul, Nat.add_zero]⟩).mono ?_
  · rintro i array _ hi hround ⟨_, _, ⟨-, rfl, rfl⟩, rfl⟩
    refine (realizes_copyToItem hp (by omega) base array _).mono ?_
    rintro array _ - rfl
    exact ⟨_, _, ⟨hround, rfl, by rw [Nat.succ_mul]; omega⟩, rfl⟩
  · rintro array _ - ⟨_, _, ⟨hrounds, rfl, rfl⟩, rfl⟩
    refine ⟨hrounds, ?_⟩
    congr 1
    omega

/-- The array that is filled is as long as the loop goes on. -/
theorem size_ensured {node : Json} {count : Nat} (h : size node = .ok count) :
    size (if count = 0 then singleItem else node) = .ok (max 1 count) := by
  by_cases hzero : count = 0
  · subst hzero
    rfl
  · rw [if_neg hzero, h, Nat.max_eq_right (Nat.pos_of_ne_zero hzero)]

/-- The front of a program that copies one node to each item of an array. -/
def findArray (mapping : Option Mapping) (toSource toArray : Route) : Program :=
  fromRoot toSource ++ pickUp mapping ++ fromRoot toArray ++ [.storeSize]

theorem isStraight_findArray {toSource toArray : Route} {source array : List Hop}
    (hs : toSource.Follows source) (ha : toArray.Follows array) :
    (findArray mapping toSource toArray).IsStraight :=
  (((isStraight_fromRoot hs).append (isStraight_pickUp mapping)).append
    (isStraight_fromRoot ha)).append (.cons rfl .nil)

theorem realizes_findArray {toSource toArray : Route} {source array : List Hop}
    (hs : toSource.Follows source) (ha : toArray.Follows array) (p : Place) (operations : Nat) :
    Realizes limits (fuel + 1) (findArray mapping toSource toArray)
      ⟨p, elements, values, commands, operations⟩
      (Direct.arrayFound limits.arrayPadding source array p.document) fun found s =>
        s = ⟨found.2.1, Direct.mapped mapping found.1 :: elements, Json.ofNat found.2.2 :: values,
          commands, operations + (findArray mapping toSource toArray).length⟩ := by
  unfold findArray
  simp only [List.append_assoc]
  refine (realizes_fromRoot (hs.steers values) p operations).append ?_
  rintro origin _ - rfl
  refine (realizes_pickUp mapping origin _).andThen ?_
  refine (realizes_fromRoot (ha.steers values) origin _).append ?_
  rintro base _ - rfl
  refine Realizes.map acts_storeSize.realizes.of_map ?_
  rintro count _ - rfl
  simp only [Scene.tick, List.length_append, List.length_cons, List.length_nil, Nat.add_assoc,
    Nat.zero_add]

/-- Walks pad by less than 2⁵² items, so the length of the array is below 2⁵². -/
theorem arrayFound_sizedBelow {limit : Nat} {source array : List Hop} {document : Json}
    {found : Json × Place × Nat} (h : document.SizedBelow (2 ^ 52)) (hlimit : limit < 2 ^ 52)
    (hfound : Direct.arrayFound limit source array document = .ok found) : found.2.2 < 2 ^ 53 := by
  obtain ⟨origin, horigin, hfound⟩ := bind_eq_ok.1 hfound
  obtain ⟨base, hbase, hfound⟩ := bind_eq_ok.1 hfound
  obtain ⟨count, hcount, hfound⟩ := bind_eq_ok.1 hfound
  cases hfound
  obtain ⟨hsource, -⟩ := locate_sizedBelow h (by decide) horigin
  obtain ⟨-, hnode⟩ := locate_sizedBelow hsource (by omega) hbase
  have hlt := size_lt hnode hcount
  show count < 2 ^ 53
  omega

/-- A program that copies one node to each item of an array. -/
def fillArray (mapping : Option Mapping) (toSource toArray toPlace : Route) : Program :=
  findArray mapping toSource toArray ++ (ensureItem ++
    ([.storeSize, .storeGiven (Json.ofInt 0)] ++ countingLoop (copyToItem toPlace)))

theorem loopBody_fillArray {toSource toArray : Route} {source array : List Hop}
    (hs : toSource.Follows source) (ha : toArray.Follows array) (toPlace : Route) :
    Program.loopBody (fillArray mapping toSource toArray toPlace) = copyToItem toPlace :=
  Program.loopBody_append (isStraight_findArray hs ha).not_mem _

theorem instructions_fillArray {toSource toArray : Route} {source array : List Hop}
    (hs : toSource.Follows source) (ha : toArray.Follows array) (toPlace : Route)
    (effort : Effort) :
    effort.instructions (fillArray mapping toSource toArray toPlace) =
      (findArray mapping toSource toArray).length + 7 +
        effort.rounds * (copyToItem toPlace).length + effort.jumps := by
  rw [Effort.instructions, loopBody_fillArray hs ha, fillArray, List.length_append]
  rfl

/-- The part of it in front of the loop. -/
def beforeFilling (mapping : Option Mapping) (toSource toArray : Route) : Program :=
  findArray mapping toSource toArray ++ (ensureItem ++ [.storeSize, .storeGiven (Json.ofInt 0)])

theorem fillArray_eq (mapping : Option Mapping) (toSource toArray toPlace : Route) :
    fillArray mapping toSource toArray toPlace =
      beforeFilling mapping toSource toArray ++ countingLoop (copyToItem toPlace) := by
  simp only [fillArray, beforeFilling, List.append_assoc]

/-- Where the loop starts, the place is the array, which has one item at least. -/
theorem realizes_beforeFilling {toSource toArray : Route} {source array : List Hop}
    (hs : toSource.Follows source) (ha : toArray.Follows array)
    (hlimit : limits.arrayPadding < 2 ^ 52) (p : Place) (hsize : p.document.SizedBelow (2 ^ 52))
    (operations : Nat) :
    Realizes limits (fuel + 2) (beforeFilling mapping toSource toArray)
      ⟨p, elements, values, commands, operations⟩
      (Direct.arrayFound limits.arrayPadding source array p.document) fun found s =>
        s = ⟨found.2.1.put (if found.2.2 = 0 then singleItem else found.2.1.node),
          Direct.mapped mapping found.1 :: elements,
          Json.ofNat 0 :: Json.ofNat (max 1 found.2.2) :: values, commands,
          operations + (findArray mapping toSource toArray).length +
            (if found.2.2 = 0 then 4 else 3) + 2⟩ := by
  rw [← bind_pure (Direct.arrayFound _ _ _ _)]
  refine (realizes_findArray hs ha p operations).append ?_
  rintro ⟨value, base, count⟩ _ hfound rfl
  have hlt : count < 2 ^ 53 := arrayFound_sizedBelow hsize hlimit hfound
  refine (realizes_ensureItem (Nat.le_of_lt hlt) base _).andThen ?_
  exact .next (acts_storeSize_of_size (size_ensured (Direct.size_of_arrayFound hfound)))
    (.next (acts_storeValue fun _ _ => rfl) (.nil rfl))

theorem realizes_copyToEach {toSource toArray toPlace : Route} {source array after : List Hop}
    (hs : toSource.Follows source) (ha : toArray.Follows array) (hp : toPlace.Follows after)
    (hlimit : limits.arrayPadding < 2 ^ 52) (p : Place) (hsize : p.document.SizedBelow (2 ^ 52))
    (operations : Nat) :
    Realizes limits (fuel + 2) (fillArray mapping toSource toArray toPlace)
      ⟨p, [], values, commands, operations⟩
      (Direct.copyToEach limits.arrayPadding mapping source array after p.document)
      fun document s => s.place.document = document ∧
        Spent limits (fillArray mapping toSource toArray toPlace)
          (Direct.effortToEach limits.arrayPadding source array p.document) operations
          s.operations := by
  rw [Direct.copyToEach_eq, fillArray_eq]
  refine (realizes_beforeFilling hs ha hlimit p hsize operations).append ?_
  rintro ⟨value, base, count⟩ _ hfound rfl
  have hlt : count < 2 ^ 53 := arrayFound_sizedBelow hsize hlimit hfound
  have hmax : max 1 count ≤ 2 ^ 53 := by omega
  refine (realizes_fill hp _ hmax base _ _).map ?_
  rintro filled _ - ⟨hrounds, rfl⟩
  have heffort : Direct.effortToEach limits.arrayPadding source array p.document =
      .ok ⟨max 1 count, if count = 0 then 1 else 0⟩ := by
    rw [Direct.effortToEach, hfound]
    rfl
  refine ⟨rfl, _, heffort, hrounds, ?_⟩
  rw [← fillArray_eq, instructions_fillArray hs ha]
  dsimp only
  split <;> omega

/-! ### Items to items -/

theorem realizes_copyItem {toSource fromItem toTarget toPlace : Route}
    {source after target behind : List Hop} (hs : toSource.Follows source)
    (hf : fromItem.Follows after) (ht : toTarget.Follows target) (hp : toPlace.Follows behind)
    {first index : Nat} {bound : Json} (hi : first + index + 1 ≤ 2 ^ 53) (p : Place)
    (operations : Nat) :
    Realizes limits (fuel + 1) (copyItem mapping toSource fromItem toTarget toPlace)
      ⟨p, elements, [Json.ofNat index, bound, Json.ofNat first], commands, operations⟩
      (Direct.copyOne limits.arrayPadding mapping (source ++ .item (some index) :: after)
        (target ++ .item (some (first + index)) :: behind) p.document)
      (Shown elements [Json.ofNat (index + 1), bound, Json.ofNat first] commands
        (operations + (copyItem mapping toSource fromItem toTarget toPlace).length)) := by
  simp only [Direct.copyOne, Direct.writeAt, locate_append,
    List.append_cons target (.item (some (first + index))) behind, bind_assoc, pure_bind]
  unfold copyItem
  simp only [List.append_assoc]
  have hitem : Steers [Json.ofNat index, bound, Json.ofNat first]
      (.moveIntoIndex (.value 0) :: fromItem.moves) (.item (some index) :: after) :=
    .counter rfl (by omega) (hf.steers _)
  refine (realizes_fromRoot (hs.steers _) p operations).append ?_
  rintro outer _ - rfl
  refine (hitem.realizes outer _).append ?_
  rintro origin _ - rfl
  refine (realizes_pickUp mapping _ _).andThen ?_
  refine (realizes_fromRoot (ht.steers _) _ _).append ?_
  rintro array _ - rfl
  refine .next (acts_storeValue (resolve_value rfl)) (.next (acts_storeValue (resolve_value rfl))
    (.next (acts_add (by omega)) ?_))
  -- The sum of the counter and the first position is on top while the item is entered.
  have hsum : Steers
      [Json.ofNat (index + first), Json.ofNat index, bound, Json.ofNat first]
      [.moveIntoIndex (.value 0)] [.item (some (first + index))] := by
    rw [Nat.add_comm index first]
    exact .counter rfl (by omega) .stay
  refine (hsum.realizes array _).append ?_
  rintro slot _ - rfl
  refine .next acts_popValue (((hp.steers _).realizes _ _).append ?_)
  rintro inner _ - rfl
  refine .next acts_popElement (.next (acts_moveOut _) (.next (acts_moveOut _)
    (.next (acts_increment (by omega)) (.nil ⟨rfl, rfl, rfl, rfl, ?_⟩))))
  simp only [Scene.tick, List.length_append, List.length_cons, List.length_nil, Nat.add_assoc,
    Nat.zero_add]

/-- What is passed over is counted first. -/
theorem realizes_firstPosition {target : ArrayPath} {program : Program}
    (h : firstPosition target.array = .ok program) (p : Place) (operations : Nat) :
    Realizes limits (fuel + 1) program ⟨p, elements, values, commands, operations⟩
      (Direct.passOver limits.arrayPadding target.offset? p.document) fun counted s =>
        Shown elements (Json.ofNat counted.1 :: values) commands (operations + program.length)
          counted.2 s := by
  have hnone (hprogram : program = [.storeGiven (Json.ofInt 0)]) :
      Realizes limits (fuel + 1) program ⟨p, elements, values, commands, operations⟩
        (.ok (0, p.document)) fun counted s =>
          Shown elements (Json.ofNat counted.1 :: values) commands (operations + program.length)
            counted.2 s := by
    subst hprogram
    exact .next (acts_storeValue fun _ _ => rfl) (.nil ⟨rfl, rfl, rfl, rfl, rfl⟩)
  unfold ArrayPath.offset?
  cases harray : target.array with
  | arrayAllOffset name text =>
    rw [harray] at h
    obtain ⟨path, hparse, h⟩ := bind_eq_ok.1 h
    obtain ⟨route, hroute, h⟩ := bind_eq_ok.1 h
    cases h
    have hfollows := Route.follows_toOffset (mapError_eq_ok.1 hroute)
    simp only [mapError_eq_ok.1 hparse, Direct.passOver]
    refine (realizes_fromRoot (hfollows.steers _) p operations).append ?_
    rintro place _ - rfl
    refine Realizes.map acts_storeSize.realizes.of_map ?_
    rintro count _ - rfl
    exact ⟨rfl, rfl, rfl, rfl, by simp [Scene.tick, Nat.add_assoc]⟩
  | _ =>
    rw [harray] at h
    cases h
    exact hnone rfl

theorem isStraight_firstPosition {component : Component} {program : Program}
    (h : firstPosition component = .ok program) : program.IsStraight := by
  cases component with
  | arrayAllOffset name text =>
    obtain ⟨path, -, h⟩ := bind_eq_ok.1 h
    obtain ⟨route, hroute, h⟩ := bind_eq_ok.1 h
    cases h
    exact (isStraight_fromRoot (Route.follows_toOffset (mapError_eq_ok.1 hroute))).append
      (.cons rfl .nil)
  | _ =>
    cases h
    exact .cons rfl .nil

/-- The front of a program that copies the items of an array. -/
def findItems (first : Program) (toSource : Route) : Program :=
  first ++ fromRoot toSource ++ [.storeSize]

variable {first : Program} {targetPath : ArrayPath} {toSource fromItem toTarget toPlace : Route}
  {source after target behind : List Hop}

theorem isStraight_findItems (hfirst : firstPosition targetPath.array = .ok first)
    (hs : toSource.Follows source) : (findItems first toSource).IsStraight :=
  ((isStraight_firstPosition hfirst).append (isStraight_fromRoot hs)).append (.cons rfl .nil)

theorem realizes_findItems (hfirst : firstPosition targetPath.array = .ok first)
    (hs : toSource.Follows source) (p : Place) (operations : Nat) :
    Realizes limits (fuel + 1) (findItems first toSource)
      ⟨p, elements, values, commands, operations⟩
      (Direct.itemsFound limits.arrayPadding targetPath.offset? source p.document) fun found s =>
        s = ⟨found.2.1, elements, Json.ofNat found.2.2 :: Json.ofNat found.1 :: values, commands,
          operations + (findItems first toSource).length⟩ := by
  unfold findItems
  simp only [List.append_assoc]
  refine (realizes_firstPosition hfirst p operations).append ?_
  rintro ⟨offset, document⟩ _ - hshown
  obtain ⟨place, rfl, rfl⟩ := hshown.exists_place
  refine (realizes_fromRoot (hs.steers _) place _).append ?_
  rintro array _ - rfl
  refine Realizes.map acts_storeSize.realizes.of_map ?_
  rintro count _ - rfl
  simp only [Scene.tick, List.length_append, List.length_cons, List.length_nil, Nat.add_assoc,
    Nat.zero_add]

/-- What is passed over is below 2⁵², and the length of the source array is below 2⁵³. -/
theorem itemsFound_sizedBelow {limit : Nat} {offset : Option (List Hop)} {document : Json}
    {found : Nat × Place × Nat} (h : document.SizedBelow (2 ^ 52)) (hlimit : limit < 2 ^ 52)
    (hfound : Direct.itemsFound limit offset source document = .ok found) :
    found.1 < 2 ^ 52 ∧ found.2.2 < 2 ^ 53 := by
  obtain ⟨⟨first, counted⟩, hcounted, hfound⟩ := bind_eq_ok.1 hfound
  obtain ⟨place, hplace, hfound⟩ := bind_eq_ok.1 hfound
  obtain ⟨count, hcount, hfound⟩ := bind_eq_ok.1 hfound
  cases hfound
  obtain ⟨hfirst, hdocument⟩ := Direct.passOver_sizedBelow h (by decide) hcounted
  obtain ⟨-, hnode⟩ := locate_sizedBelow hdocument (by omega) hplace
  have hlt := size_lt hnode hcount
  refine ⟨hfirst, ?_⟩
  show count < 2 ^ 53
  omega

/-- A program that copies the items of an array. -/
def copyArray (mapping : Option Mapping) (first : Program)
    (toSource fromItem toTarget toPlace : Route) : Program :=
  findItems first toSource ++ ([.storeGiven (Json.ofInt 0)] ++
    countingLoop (copyItem mapping toSource fromItem toTarget toPlace))

theorem loopBody_copyArray (hfirst : firstPosition targetPath.array = .ok first)
    (hs : toSource.Follows source) (fromItem toTarget toPlace : Route) :
    Program.loopBody (copyArray mapping first toSource fromItem toTarget toPlace) =
      copyItem mapping toSource fromItem toTarget toPlace :=
  Program.loopBody_append (isStraight_findItems hfirst hs).not_mem _

theorem instructions_copyArray (hfirst : firstPosition targetPath.array = .ok first)
    (hs : toSource.Follows source) (fromItem toTarget toPlace : Route) (effort : Effort) :
    effort.instructions (copyArray mapping first toSource fromItem toTarget toPlace) =
      (findItems first toSource).length + 3 +
        effort.rounds * (copyItem mapping toSource fromItem toTarget toPlace).length +
        effort.jumps := by
  rw [Effort.instructions, loopBody_copyArray hfirst hs, copyArray, List.length_append]
  rfl

/-- The part of it in front of the loop. -/
def beforeCopying (first : Program) (toSource : Route) : Program :=
  findItems first toSource ++ [.storeGiven (Json.ofInt 0)]

theorem copyArray_eq (mapping : Option Mapping) (first : Program)
    (toSource fromItem toTarget toPlace : Route) :
    copyArray mapping first toSource fromItem toTarget toPlace =
      beforeCopying first toSource ++
        countingLoop (copyItem mapping toSource fromItem toTarget toPlace) := by
  simp only [copyArray, beforeCopying, List.append_assoc]

/-- Where the loop starts, the place is the source array. -/
theorem realizes_beforeCopying (hfirst : firstPosition targetPath.array = .ok first)
    (hs : toSource.Follows source) (p : Place) (operations : Nat) :
    Realizes limits (fuel + 1) (beforeCopying first toSource)
      ⟨p, elements, values, commands, operations⟩
      (Direct.itemsFound limits.arrayPadding targetPath.offset? source p.document) fun found s =>
        s = ⟨found.2.1, elements,
          Json.ofNat 0 :: Json.ofNat found.2.2 :: Json.ofNat found.1 :: values, commands,
          operations + (findItems first toSource).length + 1⟩ := by
  rw [← bind_pure (Direct.itemsFound _ _ _ _)]
  refine (realizes_findItems hfirst hs p operations).append ?_
  rintro found _ - rfl
  exact .next (acts_storeValue fun _ _ => rfl) (.nil rfl)

theorem realizes_copyItems (hfirst : firstPosition targetPath.array = .ok first)
    (hs : toSource.Follows source) (hf : fromItem.Follows after) (ht : toTarget.Follows target)
    (hp : toPlace.Follows behind) (hlimit : limits.arrayPadding < 2 ^ 52)
    (hrounds : limits.loopIterations < 2 ^ 52) (p : Place)
    (hsize : p.document.SizedBelow (2 ^ 52)) (operations : Nat) :
    Realizes limits (fuel + 2) (copyArray mapping first toSource fromItem toTarget toPlace)
      ⟨p, elements, [], commands, operations⟩
      (Direct.copyItems limits.arrayPadding mapping targetPath.offset? source after target behind
        p.document)
      fun document s => s.place.document = document ∧
        Spent limits (copyArray mapping first toSource fromItem toTarget toPlace)
          (Direct.effortOfItems limits.arrayPadding targetPath.offset? source p.document) operations
          s.operations := by
  rw [Direct.copyItems_eq, copyArray_eq]
  refine (realizes_beforeCopying hfirst hs p operations).append ?_
  rintro ⟨offset, place, count⟩ _ hfound rfl
  obtain ⟨hoffset, hlt⟩ : offset < 2 ^ 52 ∧ count < 2 ^ 53 :=
    itemsFound_sizedBelow hsize hlimit hfound
  -- Every round starts from the root, so only the document goes from one round to the next.
  refine (realizes_countingLoop (R := fun i document place total => i ≤ limits.loopIterations ∧
    place.document = document ∧ total = operations + (findItems first toSource).length + 2 +
      i * (copyItem mapping toSource fromItem toTarget toPlace).length)
    (Nat.le_of_lt hlt) ?_ ⟨Nat.zero_le _, rfl, by rw [Nat.zero_mul]⟩).mono ?_
  · rintro i _ _ hi hround ⟨place, total, ⟨-, rfl, rfl⟩, rfl⟩
    refine (realizes_copyItem hs hf ht hp (by omega) place _).mono ?_
    rintro document _ - hshown
    obtain ⟨place, rfl, rfl⟩ := hshown.exists_place
    exact ⟨_, _, ⟨hround, rfl, by rw [Nat.succ_mul]; omega⟩, rfl⟩
  · rintro document _ - ⟨place, total, ⟨hcount, rfl, rfl⟩, rfl⟩
    have heffort : Direct.effortOfItems limits.arrayPadding targetPath.offset? source p.document =
        .ok ⟨count, 0⟩ := by
      rw [Direct.effortOfItems, hfound]
      rfl
    refine ⟨rfl, _, heffort, hcount, ?_⟩
    rw [← copyArray_eq, instructions_copyArray hfirst hs]
    dsimp only
    omega

/-! ### Whole programs -/

theorem le_nesting (program : Program) : 1 ≤ Program.nesting program := by
  cases program with
  | nil => exact Nat.le_refl 1
  | cons i rest =>
    rw [Program.nesting]
    omega

theorem nesting_append (first second : Program) :
    Program.nesting (first ++ second) = max (Program.nesting first) (Program.nesting second) := by
  induction first with
  | nil => exact (Nat.max_eq_right (le_nesting second)).symm
  | cons i rest ih =>
    rw [List.cons_append, Program.nesting, Program.nesting, ih, Nat.max_assoc]

theorem two_le_nesting {program body : Program} (h : .pushCommand body ∈ program) :
    2 ≤ Program.nesting program := by
  have hbody := le_nesting body
  induction program with
  | nil => cases h
  | cons i rest ih =>
    rw [Program.nesting]
    rcases List.mem_cons.1 h with rfl | h
    · rw [Instruction.nesting]
      omega
    · have hrest := ih h
      omega

theorem route_follows {mode : FieldMode} {path : List Component}
    (h : Move.route mode path = .ok route) : route.Follows (hops mode path) :=
  Route.follows_to (mapError_eq_ok.1 h)

theorem follows_hops {around : ArrayPath} (h : around.array.IsItems) {toParent : Route}
    (hp : toParent.Follows (hops .object around.before)) :
    (toParent.append (Route.intoArray around.field)).Follows around.hops := by
  rw [ArrayPath.hops_eq h]
  exact hp.append (Route.follows_intoArray _)

/-- The program of a move behind its reset, with the walks that its routes make. -/
inductive Compiled (move : Move) : Program → Prop
  | simpleMove {toSource toTarget : Route} {source target : List Hop}
    (hs : toSource.Follows source) (ht : toTarget.Follows target)
    (hdirect : ∀ limit document, move.direct limit document =
      Direct.copyOne limit move.mapping source target document)
    (heffort : ∀ limit document, move.effort limit document = .ok ⟨0, 0⟩) :
    Compiled move (copyNode move.mapping toSource toTarget)
  | replication {toSource toArray toPlace : Route} {source array after : List Hop}
    (hs : toSource.Follows source) (ha : toArray.Follows array) (hp : toPlace.Follows after)
    (hdirect : ∀ limit document, move.direct limit document =
      Direct.copyToEach limit move.mapping source array after document)
    (heffort : ∀ limit document, move.effort limit document =
      Direct.effortToEach limit source array document) :
    Compiled move (fillArray move.mapping toSource toArray toPlace)
  | patternMove {first : Program} {sourcePath : List Component} {targetPath : ArrayPath}
    {toSource fromItem toTarget toPlace : Route} {source after target behind : List Hop}
    (hpaths : move.paths = .ok (sourcePath, targetPath.components))
    (hfirst : firstPosition targetPath.array = .ok first) (hs : toSource.Follows source)
    (hf : fromItem.Follows after) (ht : toTarget.Follows target) (hp : toPlace.Follows behind)
    (hdirect : ∀ limit document, move.direct limit document = Direct.copyItems limit move.mapping
      targetPath.offset? source after target behind document)
    (heffort : ∀ limit document, move.effort limit document =
      Direct.effortOfItems limit targetPath.offset? source document) :
    Compiled move (copyArray move.mapping first toSource fromItem toTarget toPlace)

section Shapes

variable {move : Move} {sourceComponents targetComponents : List Component} {program : Program}

theorem exists_copyNode
    (hstrategy : Strategy.select sourceComponents targetComponents = .simpleMove)
    (h : move.copy sourceComponents targetComponents = .ok program) :
    ∃ toSource toTarget : Route, toSource.Follows (hops .object sourceComponents) ∧
      toTarget.Follows (hops .leaf targetComponents) ∧
      program = copyNode move.mapping toSource toTarget := by
  simp only [copy, hstrategy] at h
  obtain ⟨toSource, hsource, h⟩ := bind_eq_ok.1 h
  obtain ⟨toTarget, htarget, h⟩ := bind_eq_ok.1 h
  cases h
  exact ⟨toSource, toTarget, route_follows hsource, route_follows htarget, rfl⟩

theorem exists_fillArray
    (hstrategy : Strategy.select sourceComponents targetComponents = .replication)
    (h : move.copy sourceComponents targetComponents = .ok program) :
    ∃ (around : ArrayPath) (toSource toArray toPlace : Route),
      ArrayPath.ofComponents? targetComponents = .ok around ∧
      toSource.Follows (hops .object sourceComponents) ∧ toArray.Follows around.hops ∧
      toPlace.Follows (hops .object around.after) ∧
      program = fillArray move.mapping toSource toArray toPlace := by
  simp only [copy, hstrategy] at h
  obtain ⟨around, haround, h⟩ := bind_eq_ok.1 h
  obtain ⟨toSource, hsource, h⟩ := bind_eq_ok.1 h
  obtain ⟨toParent, hparent, h⟩ := bind_eq_ok.1 h
  obtain ⟨toPlace, hplace, h⟩ := bind_eq_ok.1 h
  replace haround := mapError_eq_ok.1 haround
  have hitems := (ArrayPath.ofComponents?_eq_ok.1 haround).2.array
  refine ⟨around, toSource, toParent.append (Route.intoArray around.field), toPlace, haround,
    route_follows hsource, follows_hops hitems (route_follows hparent), route_follows hplace, ?_⟩
  cases h
  simp only [fillArray, findArray, ensureItem, List.append_assoc]
  rfl

theorem exists_copyArray
    (hstrategy : Strategy.select sourceComponents targetComponents = .patternMove)
    (h : move.copy sourceComponents targetComponents = .ok program) :
    ∃ (sourcePath targetPath : ArrayPath) (first : Program)
        (toSource fromItem toTarget toPlace : Route),
      ArrayPath.ofComponents? sourceComponents = .ok sourcePath ∧
      ArrayPath.ofComponents? targetComponents = .ok targetPath ∧
      firstPosition targetPath.array = .ok first ∧ toSource.Follows sourcePath.hops ∧
      fromItem.Follows (hops .leaf sourcePath.after) ∧ toTarget.Follows targetPath.hops ∧
      toPlace.Follows (hops .leaf targetPath.after) ∧
      program = copyArray move.mapping first toSource fromItem toTarget toPlace := by
  simp only [copy, hstrategy] at h
  obtain ⟨sourcePath, hsourcePath, h⟩ := bind_eq_ok.1 h
  obtain ⟨targetPath, htargetPath, h⟩ := bind_eq_ok.1 h
  replace hsourcePath := mapError_eq_ok.1 hsourcePath
  replace htargetPath := mapError_eq_ok.1 htargetPath
  split at h
  · cases h
  · obtain ⟨first, hfirst, h⟩ := bind_eq_ok.1 h
    obtain ⟨toSourceParent, hsourceParent, h⟩ := bind_eq_ok.1 h
    obtain ⟨fromItem, hitem, h⟩ := bind_eq_ok.1 h
    obtain ⟨toTargetParent, htargetParent, h⟩ := bind_eq_ok.1 h
    obtain ⟨toPlace, hplace, h⟩ := bind_eq_ok.1 h
    have hsourceItems := (ArrayPath.ofComponents?_eq_ok.1 hsourcePath).2.array
    have htargetItems := (ArrayPath.ofComponents?_eq_ok.1 htargetPath).2.array
    refine ⟨sourcePath, targetPath, first,
      toSourceParent.append (Route.intoArray sourcePath.field), fromItem,
      toTargetParent.append (Route.intoArray targetPath.field), toPlace, hsourcePath, htargetPath,
      hfirst, follows_hops hsourceItems (route_follows hsourceParent), route_follows hitem,
      follows_hops htargetItems (route_follows htargetParent), route_follows hplace, ?_⟩
    cases h
    simp only [copyArray, findItems, List.append_assoc]
    rfl

end Shapes

theorem compiled_of_copy {move : Move} {source target : List Component} {program : Program}
    (hpaths : move.paths = .ok (source, target)) (hp : move.copy source target = .ok program) :
    Compiled move program := by
  have hdirect := fun limit document => show move.direct limit document = _ from by
    rw [direct, hpaths]
  have heffort := fun limit document => show move.effort limit document = _ from by
    rw [effort, hpaths]
  cases hstrategy : Strategy.select source target with
  | simpleMove =>
    simp only [hstrategy] at hdirect heffort
    obtain ⟨toSource, toTarget, hs, ht, rfl⟩ := exists_copyNode hstrategy hp
    exact .simpleMove hs ht hdirect heffort
  | replication =>
    obtain ⟨around, toSource, toArray, toPlace, haround, hs, ha, hplace, rfl⟩ :=
      exists_fillArray hstrategy hp
    simp only [hstrategy, haround] at hdirect heffort
    exact .replication hs ha hplace hdirect heffort
  | patternMove =>
    obtain ⟨sourcePath, targetPath, first, toSource, fromItem, toTarget, toPlace, hsource, htarget,
      hfirst, hs, hf, ht, hplace, rfl⟩ := exists_copyArray hstrategy hp
    simp only [hstrategy, hsource, htarget] at hdirect heffort
    have hcomponents := (ArrayPath.ofComponents?_eq_ok.1 htarget).1
    exact .patternMove (hcomponents ▸ hpaths) hfirst hs hf ht hplace hdirect heffort

theorem pushCommand_mem_fillArray (mapping : Option Mapping)
    (toSource toArray toPlace : Route) :
    .pushCommand (copyToItem toPlace) ∈ fillArray mapping toSource toArray toPlace := by
  simp [fillArray, countingLoop]

theorem pushCommand_mem_copyArray (mapping : Option Mapping) (first : Program)
    (toSource fromItem toTarget toPlace : Route) :
    .pushCommand (copyItem mapping toSource fromItem toTarget toPlace) ∈
      copyArray mapping first toSource fromItem toTarget toPlace := by
  simp [copyArray, countingLoop]

/-- The program of a move behind its reset, on a scene with empty stacks. -/
theorem realizes_copy {move : Move} {program : Program} (h : Compiled move program)
    (hlimit : limits.arrayPadding < 2 ^ 52) (hrounds : limits.loopIterations < 2 ^ 52)
    (hfuel : Program.nesting program ≤ fuel) (p : Place)
    (hsize : p.document.SizedBelow (2 ^ 52)) (operations : Nat) :
    Realizes limits fuel program ⟨p, [], [], [], operations⟩
      (move.direct limits.arrayPadding p.document) fun document s =>
        s.place.document = document ∧ Spent limits program
          (move.effort limits.arrayPadding p.document) operations s.operations := by
  cases h with
  | @simpleMove toSource toTarget source target hs ht hdirect heffort =>
    have hnesting := Nat.le_trans (le_nesting _) hfuel
    obtain ⟨fuel, rfl⟩ : ∃ less, fuel = less + 1 := ⟨fuel - 1, by omega⟩
    rw [hdirect, heffort]
    refine (realizes_copyOne hs ht p operations).mono fun document s _ hshown => ?_
    refine ⟨hshown.document, _, rfl, Nat.zero_le _, ?_⟩
    rw [hshown.operations, Effort.instructions, Nat.zero_mul]
    rfl
  | replication hs ha hp hdirect heffort =>
    have hnesting := Nat.le_trans (two_le_nesting (pushCommand_mem_fillArray _ _ _ _)) hfuel
    obtain ⟨fuel, rfl⟩ : ∃ less, fuel = less + 2 := ⟨fuel - 2, by omega⟩
    rw [hdirect, heffort]
    exact realizes_copyToEach hs ha hp hlimit p hsize operations
  | patternMove _ hfirst hs hf ht hp hdirect heffort =>
    have hnesting := Nat.le_trans (two_le_nesting (pushCommand_mem_copyArray _ _ _ _ _ _)) hfuel
    obtain ⟨fuel, rfl⟩ : ∃ less, fuel = less + 2 := ⟨fuel - 2, by omega⟩
    rw [hdirect, heffort]
    exact realizes_copyItems hfirst hs hf ht hp hlimit hrounds p hsize operations

theorem instructions_reset (effort : Effort) (rest : Program) :
    effort.instructions (.reset :: rest) = effort.instructions rest + 1 := by
  have hbody : Program.loopBody (.reset :: rest) = Program.loopBody rest := rfl
  rw [Effort.instructions, Effort.instructions, hbody, List.length_cons]
  omega

/-- A program behind a reset starts on an empty scene, whatever the machine shows. -/
theorem run_reset_agrees {α : Type} {rest : Program} {m : Machine} {result : Except Fault α}
    {Q : α → Scene → Prop} (hfuel : Program.nesting (.reset :: rest) ≤ fuel)
    (h : ∀ fuel, Program.nesting rest ≤ fuel → Realizes m.limits fuel rest
      ⟨.atRoot m.document, [], [], [], m.operations + 1⟩ result Q) :
    ∃ o, Machine.run fuel (.reset :: rest) m = some o ∧ o.Agrees m.limits result Q := by
  rw [Program.nesting] at hfuel
  obtain ⟨fuel, rfl⟩ : ∃ less, fuel = less + 1 := ⟨fuel - 1, by omega⟩
  have hreset : Machine.carryOut (Machine.run fuel) .reset (m.announce .reset) =
      some (.ofEffect Instruction.reset.perform (m.announce .reset)) := rfl
  obtain ⟨o, ho, hagrees⟩ := step_agrees hreset (.ofEffect m.at_reset)
  rcases hagrees with ⟨hr, hm, _, rfl, rfl⟩ | ⟨m', hc⟩ | ⟨m', hr, he⟩
  · cases hr
    obtain ⟨o', ho', hagrees'⟩ := h (fuel + 1) (by omega) _ hm
    refine ⟨o', ?_, hagrees'⟩
    rw [Machine.run, inSequence, ho]
    exact ho'
  · refine ⟨_, ?_, .ceiling m' hc⟩
    rw [Machine.run, inSequence, ho]
  · cases hr

/-- The run of the program of a move, with what it takes. -/
theorem program_spends {move : Move} {program : Program} (hp : move.program = .ok program)
    {m : Machine} (hlimit : m.limits.arrayPadding < 2 ^ 52)
    (hrounds : m.limits.loopIterations < 2 ^ 52) (hsize : m.document.SizedBelow (2 ^ 52))
    (hfuel : Program.nesting program ≤ fuel) :
    ∃ o, Machine.run fuel program m = some o ∧
      o.Agrees m.limits (move.direct m.limits.arrayPadding m.document) fun document s =>
        s.place.document = document ∧ Spent m.limits program
          (move.effort m.limits.arrayPadding m.document) m.operations s.operations := by
  obtain ⟨⟨source, target⟩, hpaths, hp⟩ := bind_eq_ok.1 hp
  obtain ⟨rest, hcopy, hp⟩ := bind_eq_ok.1 hp
  cases hp
  have hcompiled := compiled_of_copy (mapError_eq_ok.1 hpaths) hcopy
  obtain ⟨o, ho, hagrees⟩ := run_reset_agrees hfuel fun fuel hnesting =>
    realizes_copy hcompiled hlimit hrounds hnesting (.atRoot m.document) hsize (m.operations + 1)
  refine ⟨o, ho, hagrees.mono ?_⟩
  rintro document s - ⟨hdocument, e, heffort, hle, hoperations⟩
  refine ⟨hdocument, e, heffort, hle, ?_⟩
  rw [hoperations, instructions_reset]
  omega

/-- **The program of a move does what the move does directly**, on any machine: its outcome is the
document of the direct copy, or a failure of the same kind, unless it stops at a ceiling. -/
theorem program_agrees {move : Move} {program : Program} (hp : move.program = .ok program)
    {m : Machine} (hlimit : m.limits.arrayPadding < 2 ^ 52)
    (hrounds : m.limits.loopIterations < 2 ^ 52) (hsize : m.document.SizedBelow (2 ^ 52))
    (hfuel : Program.nesting program ≤ fuel) :
    ∃ o, Machine.run fuel program m = some o ∧
      o.Agrees m.limits (move.direct m.limits.arrayPadding m.document) fun document s =>
        s.place.document = document := by
  obtain ⟨o, ho, hagrees⟩ := program_spends hp hlimit hrounds hsize hfuel
  exact ⟨o, ho, hagrees.mono fun _ _ _ hq => hq.1⟩

end Move

end Reshape
