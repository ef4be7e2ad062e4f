import Reshape.Proofs.Machine.Heads
import Reshape.Proofs.Move.Cost
import Reshape.Proofs.Move.Tally
import Reshape.Proofs.Move.Typing

/-!
# What the loops of moves find

The loop of a compiled program reads its counter and its bound by their depth on the value stack, so
every round has to leave the stacks as it found them. Whenever the loop asks whether it is to stop,
the stacks hold what the program put there in front of the loop, with the number of rounds on top.

* `exists_head`, from a call of a program to the heads of the loop at its end;
* `exists_head_of_copyArray` and `exists_head_of_fillArray`, for the two loops that there are;
* `Move.program_asks`, for all moves.
-/

namespace Reshape.Move

open Machine (Plain LoopHead)

variable {move : Move} {program front body : Program} {condition : StopCondition}
  {rounds fuel : Nat} {m s head : Machine} {mapping : Option Mapping}

/-! ### The loop at the end of a program -/

theorem reset_append_countingLoop (front body : Program) :
    .reset :: (front ++ countingLoop body) =
      (.reset :: (front ++ [.pushCommand body])) ++ [.loopUntil (.reached 0 1)] := by
  simp [countingLoop]

/-- Where the loop starts, its body is on the command stack, and no loop is running. -/
theorem fits_of_run {final : Shape} (htyped : Program.Typed front ⟨0, []⟩ final)
    (ho : Machine.run fuel (.reset :: (front ++ [.pushCommand body])) m = some (.done s)) :
    s.Fits final [body] 0 := by
  cases fuel with
  | zero => cases ho
  | succ fuel =>
    obtain ⟨m₁, hstep, ho⟩ := Machine.exists_of_run_cons ho
    obtain ⟨m₂, hfront, hpush⟩ := Machine.exists_of_run_append ho
    obtain ⟨o, ho, hfits, -⟩ := step_reset (Machine.run fuel) m
    cases hstep.symm.trans ho
    obtain ⟨o, ho, hfits⟩ := htyped.leads (Nat.le_refl _) m₁ _ _ hfits
    cases Machine.run_eq_of_run hfront ho
    have hfits : m₂.Fits final [] 0 := hfits
    obtain ⟨o, ho, hpushed⟩ :=
      (hfits.announce (.pushCommand body)).pushCommand body (Machine.run fuel)
    obtain ⟨o, ho, hfits⟩ : ∃ o, Machine.run (fuel + 1) [.pushCommand body] m₂ = some o ∧
        o.Fits final [body] 0 :=
      Machine.Fits.run_cons ho hpushed fun m' hm' => ⟨.done m', rfl, hm'⟩
    cases hpush.symm.trans ho
    exact hfits

section Loop

variable {α : Type} {result : Except Fault α} {Q : α → Scene → Prop}
  {P : α → Nat → Machine → Prop} {final : Shape}

/-- A loop at the end of a program, behind a reset and a front that comes to a result. What holds at
its heads if it starts with this result, holds whenever it asks. -/
theorem exists_head (hplain : ∀ i ∈ front, Plain i) (hbody : body.IsStraight)
    (htyped : Program.Typed front ⟨0, []⟩ final)
    (hrealizes : ∀ fuel, Realizes m.limits (fuel + 2) front
      ⟨.atRoot m.document, [], [], [], m.operations + 1⟩ result Q)
    (hloop : ∀ {found t start level rounds head}, result = .ok found → Q found t →
      start.At m.limits { t with commands := body :: t.commands, operations := t.operations + 1 } →
      LoopHead (.reached 0 1) level m.limits.loopIterations start rounds head →
      head.commands.items = [body] ∧ head.loopLevel = start.loopLevel ∧ P found rounds head)
    (h : m.AsksIn (.reset :: (front ++ countingLoop body)) condition rounds head) :
    ∃ found, result = .ok found ∧ head.commands.items = [body] ∧ head.loopLevel = 1 ∧
      P found rounds head := by
  rw [reset_append_countingLoop] at h
  have hpushes (fuel : Nat) (hfuel : Program.nesting (front ++ [.pushCommand body]) ≤ fuel) :
      Realizes m.limits fuel (front ++ [.pushCommand body])
        ⟨.atRoot m.document, [], [], [], m.operations + 1⟩ result fun found t' =>
          ∃ t, Q found t ∧
            t' = { t with commands := body :: t.commands, operations := t.operations + 1 } := by
    have hpush : Instruction.pushCommand body ∈ front ++ [.pushCommand body] :=
      List.mem_append_right _ (List.mem_singleton_self _)
    have hnesting := Nat.le_trans (two_le_nesting hpush) hfuel
    obtain ⟨less, rfl⟩ : ∃ less, fuel = less + 2 := ⟨fuel - 2, by omega⟩
    rw [← bind_pure result]
    refine (hrealizes less).append ?_
    rintro found t - ht
    exact .next (acts_pushCommand body) (.nil ⟨t, ht, rfl⟩)
  have hhead {fuel length : Nat} {s : Machine} {rounds : Nat} {head : Machine}
      (hrun : Machine.run fuel (.reset :: (front ++ [.pushCommand body]))
        (m.record (.executing length m.trace)) = some (.done s))
      (hasks : (s.announce (.loopUntil (.reached 0 1))).Asks (.reached 0 1) rounds head) :
      ∃ found, result = .ok found ∧ head.commands.items = [body] ∧ head.loopLevel = 1 ∧
        P found rounds head := by
    have hlevel := ((fits_of_run htyped hrun).announce (.loopUntil (.reached 0 1))).level
    obtain ⟨found, _, hresult, hs, t, ht, rfl⟩ :=
      exists_shown (m := m.record (.executing length m.trace)) hpushes hrun
    replace hs := hs.announce (.loopUntil (.reached 0 1))
    have hstart : (s.announce (.loopUntil (.reached 0 1))).enterLoop.At m.limits _ := { hs with }
    unfold Machine.Asks at hasks
    rw [hs.limits] at hasks
    obtain ⟨hcommands, hkept, hP⟩ := hloop hresult ht hstart hasks
    exact ⟨found, hresult, hcommands, hkept.trans (congrArg (· + 1) hlevel), hP⟩
  have hplain' : ∀ i ∈ .reset :: (front ++ [.pushCommand body]), Plain i := by
    refine List.forall_mem_cons.2 ⟨.inl rfl, fun i hi => ?_⟩
    rcases List.mem_append.1 hi with hi | hi
    · exact hplain i hi
    · exact .inr (.inl ⟨body, List.mem_singleton.1 hi⟩)
  have hbodies {fuel rounds : Nat} {s head : Machine} {body' : Program}
      (hrun : Machine.run fuel (.reset :: (front ++ [.pushCommand body])) (m.record (.executing
        ((Instruction.reset :: (front ++ [.pushCommand body])).length + 1) m.trace)) =
          some (.done s))
      (hasks : (s.announce (.loopUntil (.reached 0 1))).Asks (.reached 0 1) rounds head)
      (hpeek : head.commands.peek = .ok body') : body'.IsStraight := by
    obtain ⟨_, -, hcommands, -, -⟩ := hhead hrun hasks
    rw [Stack.peek, Stack.peekAt, hcommands] at hpeek
    cases hpeek
    exact hbody
  obtain ⟨fuel, s, hrun, hasks⟩ := Machine.exists_asks hplain' hbodies h
  exact hhead hrun hasks

end Loop

/-! ### From items to items -/

/-- What the loop of a pattern move finds behind so many rounds: the first position, the length of
the source array and the counter are all that is on its stacks of data. -/
structure ItemsHead (first count rounds : Nat) (head : Machine) : Prop where
  elements : head.elements.items = []
  values : head.values.toList = [Json.ofNat first, Json.ofNat count, Json.ofNat rounds]
  rounds_le : rounds ≤ count

section Items

variable {first : Program} {targetPath : ArrayPath} {toSource fromItem toTarget toPlace : Route}
  {source after target behind : List Hop}

/-- A pattern move finds its first position, the length of the source array and its counter. -/
theorem exists_head_of_copyArray (hfirst : firstPosition targetPath.array = .ok first)
    (hs : toSource.Follows source) (hf : fromItem.Follows after) (ht : toTarget.Follows target)
    (hp : toPlace.Follows behind) (hpadding : m.limits.arrayPadding < 2 ^ 52)
    (hrounds : m.limits.loopIterations < 2 ^ 52) (hsize : m.document.SizedBelow (2 ^ 52))
    (h : m.AsksIn (.reset :: copyArray mapping first toSource fromItem toTarget toPlace) condition
      rounds head) :
    ∃ found,
      Direct.itemsFound m.limits.arrayPadding targetPath.offset? source m.document = .ok found ∧
      head.commands.items = [copyItem mapping toSource fromItem toTarget toPlace] ∧
      head.loopLevel = 1 ∧ ItemsHead found.1 found.2.2 rounds head := by
  have hplain : ∀ i ∈ beforeCopying first toSource, Plain i := fun i hi =>
    .inl (((isStraight_findItems hfirst hs).append (.cons rfl .nil)) i hi)
  have hscene (fuel : Nat) : Realizes m.limits (fuel + 2) (beforeCopying first toSource)
      ⟨.atRoot m.document, [], [], [], m.operations + 1⟩
      (Direct.itemsFound m.limits.arrayPadding targetPath.offset? source m.document) _ :=
    realizes_beforeCopying hfirst hs (.atRoot m.document) _
  rw [copyArray_eq] at h
  refine exists_head hplain (isStraight_copyItem hs hf ht hp) (typed_beforeCopying hfirst hs)
    hscene ?_ h
  rintro ⟨offset, place, count⟩ _ start level rounds head hfound rfl hstart hhead
  obtain ⟨hoffset, hlt⟩ : offset < 2 ^ 52 ∧ count < 2 ^ 53 :=
    itemsFound_sizedBelow hsize hpadding hfound
  have hfinite : Cell.finite.Admits (Json.ofNat offset) := Json.exists_toWord?_ofNat (by omega)
  -- Every round starts from the root, so only the document goes from one round to the next.
  have hbody (i : Nat) (document : Json) (s : Scene) (hi : i < count)
      (hround : i < m.limits.loopIterations)
      (hscene : HeadScene [] [Json.ofNat offset] []
        (copyItem mapping toSource fromItem toTarget toPlace) count
        (fun _ document place _ => place.document = document) i document s) :
      Realizes m.limits 1 (copyItem mapping toSource fromItem toTarget toPlace) s
        (Direct.copyOne m.limits.arrayPadding mapping (source ++ .item (some i) :: after)
          (target ++ .item (some (offset + i)) :: behind) document)
        (HeadScene [] [Json.ofNat offset] []
          (copyItem mapping toSource fromItem toTarget toPlace) count
          (fun _ document place _ => place.document = document) (i + 1)) := by
    obtain ⟨place, total, rfl, rfl⟩ := hscene
    refine (realizes_copyItem hs hf ht hp (by omega) place _).mono ?_
    rintro document _ - hshown
    obtain ⟨place, rfl, rfl⟩ := hshown.exists_place
    exact ⟨_, _, rfl, rfl⟩
  obtain ⟨hle, hlevel, _, _, -, ⟨_, _, -, rfl⟩, hat⟩ := hhead.exists_scene (Nat.le_of_lt hlt) hbody
    (typed_copyItem hs hf ht hp) (.cons hfinite .nil) ⟨place, _, rfl, rfl⟩ hstart
  refine ⟨hat.commands, hlevel, hat.elements, ?_, hle⟩
  simp [Stack.toList, hat.values]

end Items

/-! ### From one node to items -/

/-- A write behind an item that is there leaves the size of the array. -/
theorem size_of_writeAt {limit index count : Nat} {after : List Hop} {value array array' : Json}
    (h : Direct.writeAt limit (.item (some index) :: after) value array = .ok array')
    (hcount : size array = .ok count) (hi : index < count) : size array' = .ok count := by
  have hslot : Direct.writeAt limit (Direct.slot [] after index) value array = .ok array' := h
  obtain ⟨items, hitems, hlength⟩ := Direct.exists_items_of_writeAt hslot
  have hkind := Direct.kind_of_writeAt_slot hslot
  obtain rfl : array' = .array items := Option.some.inj hitems
  cases array with
  | array old =>
    have hold : old.length = count := Option.some.inj (size_eq_ok.1 hcount)
    replace hlength : items.length = max old.length (index + 1) := hlength
    exact size_eq_ok.2 (congrArg some (by omega))
  | _ => cases hkind

/-- What the loop of a move to each item finds behind so many rounds: the element that it copies,
the number of items and the counter are all that is on its stacks of data, and the cursor is at the
array, which has so many items. -/
structure EachHead (value : Json) (array : List Locator) (count rounds : Nat) (head : Machine) :
    Prop where
  elements : head.elements.items = [value]
  values : head.values.toList = [Json.ofNat count, Json.ofNat rounds]
  rounds_le : rounds ≤ count
  attached : head.cursor.detached = false
  trail : head.cursor.trail = array
  node : ∃ node, head.cursor.current? = some node ∧ node.length? = some count

section Each

variable {toSource toArray toPlace : Route} {source array after : List Hop}

theorem plain_beforeFilling (hs : toSource.Follows source) (ha : toArray.Follows array) :
    ∀ i ∈ beforeFilling mapping toSource toArray, Plain i := by
  intro i hi
  rcases List.mem_append.1 hi with hi | hi
  · exact .inl (isStraight_findArray hs ha i hi)
  · simp only [ensureItem, List.cons_append, List.nil_append, List.mem_cons, List.not_mem_nil,
      or_false] at hi
    rcases hi with rfl | rfl | rfl | rfl | rfl
    · exact .inl rfl
    · exact .inl rfl
    · exact .inr (.inr ⟨_, rfl, rfl⟩)
    · exact .inl rfl
    · exact .inl rfl

/-- A move to each item finds its element, the number of items and its counter, and is at the
array. -/
theorem exists_head_of_fillArray (hs : toSource.Follows source) (ha : toArray.Follows array)
    (hp : toPlace.Follows after) (hpadding : m.limits.arrayPadding < 2 ^ 52)
    (hsize : m.document.SizedBelow (2 ^ 52))
    (h : m.AsksIn (.reset :: fillArray mapping toSource toArray toPlace) condition rounds head) :
    ∃ found, Direct.arrayFound m.limits.arrayPadding source array m.document = .ok found ∧
      head.commands.items = [copyToItem toPlace] ∧ head.loopLevel = 1 ∧
      EachHead (Direct.mapped mapping found.1) (trailOf array) (max 1 found.2.2) rounds head := by
  have hscene (fuel : Nat) : Realizes m.limits (fuel + 2) (beforeFilling mapping toSource toArray)
      ⟨.atRoot m.document, [], [], [], m.operations + 1⟩
      (Direct.arrayFound m.limits.arrayPadding source array m.document) _ :=
    realizes_beforeFilling hs ha hpadding (.atRoot m.document) hsize _
  rw [fillArray_eq] at h
  refine exists_head (plain_beforeFilling hs ha) (isStraight_copyToItem hp)
    (typed_beforeFilling hs ha) hscene ?_ h
  rintro ⟨value, base, count⟩ _ start level rounds head hfound rfl hstart hhead
  have hlt : count < 2 ^ 53 := arrayFound_sizedBelow hsize hpadding hfound
  have hmax : max 1 count ≤ 2 ^ 53 := by omega
  -- The place is always the array, with what has been written to its items so far.
  have hbody (i : Nat) (node : Json) (s : Scene) (hi : i < max 1 count)
      (hround : i < m.limits.loopIterations)
      (hscene : HeadScene [Direct.mapped mapping value] [] [] (copyToItem toPlace) (max 1 count)
        (fun _ node place _ => place = base.put node ∧ size node = .ok (max 1 count)) i node s) :
      Realizes m.limits 1 (copyToItem toPlace) s
        (Direct.writeAt m.limits.arrayPadding (.item (some i) :: after)
          (Direct.mapped mapping value) node)
        (HeadScene [Direct.mapped mapping value] [] [] (copyToItem toPlace) (max 1 count)
          (fun _ node place _ => place = base.put node ∧ size node = .ok (max 1 count))
          (i + 1)) := by
    obtain ⟨place, total, ⟨rfl, hcount⟩, rfl⟩ := hscene
    refine (realizes_copyToItem hp (by omega) base node _).mono ?_
    rintro written _ hwritten rfl
    exact ⟨_, _, ⟨rfl, size_of_writeAt hwritten hcount hi⟩, rfl⟩
  have hensured := size_ensured (Direct.size_of_arrayFound hfound)
  obtain ⟨hle, hlevel, node, _, -, ⟨_, _, ⟨rfl, hcount⟩, rfl⟩, hat⟩ := hhead.exists_scene hmax hbody
    (typed_copyToItem hp) .nil ⟨_, _, ⟨rfl, hensured⟩, rfl⟩ hstart
  refine ⟨hat.commands, hlevel, hat.elements, ?_, hle, hat.attached, ?_, node, ?_,
    size_eq_ok.1 hcount⟩
  · simp [Stack.toList, hat.values]
  · exact hat.trail.trans (trail_of_arrayFound hfound)
  · exact hat.current?

end Each

/-! ### Calls -/

/-- **What the loop of a move finds whenever it asks whether it is to stop.** Take any move that has
a program, any machine with ceilings and containers below 2⁵², and any call, whether it succeeds,
fails, or does not end. The body of the loop is the only one on the command stack, and no other loop
is running. The stacks of data hold what the program has measured in front of the loop and the
number of rounds so far, which is no more than the bound; a move to each item holds the element that
it copies, too, and is at the array of the target path. A move from one node to one place never
asks. -/
theorem program_asks (hp : move.program = .ok program)
    (hpadding : m.limits.arrayPadding < 2 ^ 52) (hrounds : m.limits.loopIterations < 2 ^ 52)
    (hsize : m.document.SizedBelow (2 ^ 52)) (h : m.AsksIn program condition rounds head) :
    head.commands.items = [Program.loopBody program] ∧ head.loopLevel = 1 ∧
      ∃ source target, move.paths = .ok (source, target) ∧
        match Strategy.select source target with
        | .simpleMove => False
        | .patternMove => ∃ (sourcePath targetPath : ArrayPath) (first count : Nat) (place : Place),
            ArrayPath.ofComponents? source = .ok sourcePath ∧
            ArrayPath.ofComponents? target = .ok targetPath ∧
            Direct.itemsFound m.limits.arrayPadding targetPath.offset? sourcePath.hops m.document =
              .ok (first, place, count) ∧
            ItemsHead first count rounds head
        | .replication => ∃ (targetPath : ArrayPath) (value : Json) (place : Place) (count : Nat),
            ArrayPath.ofComponents? target = .ok targetPath ∧
            Direct.arrayFound m.limits.arrayPadding (hops .object source) targetPath.hops
              m.document = .ok (value, place, count) ∧
            EachHead (Direct.mapped move.mapping value) (trailOf targetPath.hops) (max 1 count)
              rounds head := by
  obtain ⟨⟨source, target⟩, hpaths, hp⟩ := bind_eq_ok.1 hp
  obtain ⟨rest, hcopy, hp⟩ := bind_eq_ok.1 hp
  cases hp
  replace hpaths := mapError_eq_ok.1 hpaths
  cases hstrategy : Strategy.select source target with
  | simpleMove =>
    obtain ⟨toSource, toTarget, hs, ht, rfl⟩ := exists_copyNode hstrategy hcopy
    have hstraight : Program.IsStraight (.reset :: copyNode move.mapping toSource toTarget) :=
      .cons rfl (isStraight_copyNode hs ht)
    exact (Machine.not_asksIn_of_isStraight hstraight h).elim
  | patternMove =>
    obtain ⟨sourcePath, targetPath, first, toSource, fromItem, toTarget, toPlace, hsource, htarget,
      hfirst, hs, hf, ht, hplace, rfl⟩ := exists_copyArray hstrategy hcopy
    obtain ⟨⟨offset, place, count⟩, hfound, hcommands, hlevel, hhead⟩ :=
      exists_head_of_copyArray hfirst hs hf ht hplace hpadding hrounds hsize h
    have hbody : Program.loopBody (.reset :: copyArray move.mapping first toSource fromItem toTarget
        toPlace) = copyItem move.mapping toSource fromItem toTarget toPlace :=
      loopBody_copyArray hfirst hs fromItem toTarget toPlace
    rw [hbody]
    refine ⟨hcommands, hlevel, source, target, hpaths, ?_⟩
    rw [hstrategy]
    exact ⟨sourcePath, targetPath, offset, count, place, hsource, htarget, hfound, hhead⟩
  | replication =>
    obtain ⟨around, toSource, toArray, toPlace, haround, hs, ha, hplace, rfl⟩ :=
      exists_fillArray hstrategy hcopy
    obtain ⟨⟨value, place, count⟩, hfound, hcommands, hlevel, hhead⟩ :=
      exists_head_of_fillArray hs ha hplace hpadding hsize h
    have hbody : Program.loopBody (.reset :: fillArray move.mapping toSource toArray toPlace) =
        copyToItem toPlace := loopBody_fillArray hs ha toPlace
    rw [hbody]
    refine ⟨hcommands, hlevel, source, target, hpaths, ?_⟩
    rw [hstrategy]
    exact ⟨around, value, place, count, haround, hfound, hhead⟩

/-- A move with a loop that succeeds has asked, and was told to stop. -/
theorem exists_asksIn_of_execute {m' : Machine} {source target : List Component}
    (hp : move.program = .ok program) (hpaths : move.paths = .ok (source, target))
    (hstrategy : Strategy.select source target ≠ .simpleMove)
    (ho : m.execute fuel program = some (.done m')) :
    ∃ rounds head, m.AsksIn program (.reached 0 1) rounds head ∧
      (StopCondition.reached 0 1).isMet head = .ok true := by
  obtain ⟨⟨source', target'⟩, hpaths', hp⟩ := bind_eq_ok.1 hp
  cases hpaths.symm.trans (mapError_eq_ok.1 hpaths')
  obtain ⟨rest, hcopy, hp⟩ := bind_eq_ok.1 hp
  cases hp
  obtain ⟨front, body, rfl⟩ : ∃ front body, rest = front ++ countingLoop body := by
    cases hselect : Strategy.select source target with
    | simpleMove => exact (hstrategy hselect).elim
    | patternMove =>
      obtain ⟨_, _, first, toSource, fromItem, toTarget, toPlace, -, -, -, -, -, -, -, rfl⟩ :=
        exists_copyArray hselect hcopy
      exact ⟨_, _, copyArray_eq move.mapping first toSource fromItem toTarget toPlace⟩
    | replication =>
      obtain ⟨_, toSource, toArray, toPlace, -, -, -, -, rfl⟩ := exists_fillArray hselect hcopy
      exact ⟨_, _, fillArray_eq move.mapping toSource toArray toPlace⟩
  rw [reset_append_countingLoop] at ho ⊢
  exact Machine.asksIn_of_run ho

/-- A loop that is told to stop has made all its rounds. -/
theorem rounds_eq_of_isMet {count : Nat} {values : List Json} (hle : rounds ≤ count)
    (hcount : count ≤ 2 ^ 53)
    (hvalues : head.values.items = Json.ofNat rounds :: Json.ofNat count :: values)
    (hmet : (StopCondition.reached 0 1).isMet head = .ok true) : rounds = count := by
  rw [isMet_reached (by omega) hcount hvalues] at hmet
  have hge : count ≤ rounds := by simpa using hmet
  omega

/-- Two items are copied behind themselves, and what a table has for a text to the one item that is
made for it. The loops ask last behind two rounds and behind one. -/
theorem program_asks_of_growing_arrays :
    (∃ program head, Move.program ⟨"$.a[*].x", "$.a[*+$.a].x", none⟩ = .ok program ∧
      (Machine.start (.object [("a", .array [.object [("x", .text "u")],
        .object [("x", .text "v")]])]) {} false).AsksIn program (.reached 0 1) 2 head ∧
      head.commands.items = [Program.loopBody program] ∧ head.loopLevel = 1 ∧
      ItemsHead 2 2 2 head) ∧
    ∃ program head, Move.program ⟨"$.v", "$.b[*].y", some [("u", .bool true)]⟩ = .ok program ∧
      (Machine.start (.object [("v", .text "u")]) {} false).AsksIn program (.reached 0 1) 1 head ∧
      head.commands.items = [Program.loopBody program] ∧ head.loopLevel = 1 ∧
      EachHead (.bool true) [.field "b"] 1 1 head := by
  constructor
  · obtain ⟨program, m', hp, ho⟩ := exists_done_of_isDone (m := Machine.start (.object
        [("a", .array [.object [("x", .text "u")], .object [("x", .text "v")]])]) {} false)
      (show (Move.program ⟨"$.a[*].x", "$.a[*+$.a].x", none⟩).toOption.bind (fun program =>
        (Machine.execute 2 program _).map Outcome.isDone) = some true by decide +kernel)
    have hsize : (Machine.start (.object [("a", .array [.object [("x", .text "u")],
        .object [("x", .text "v")]])]) {} false).document.SizedBelow (2 ^ 52) :=
      Json.sizedBelow_of_widest_lt _ (by decide)
    have hparse : Move.paths ⟨"$.a[*].x", "$.a[*+$.a].x", none⟩ =
        .ok ([.arrayAll "a", .field "x"], [.arrayAllOffset "a" "$.a", .field "x"]) := by
      decide +kernel
    obtain ⟨rounds, head, hasks, hmet⟩ := exists_asksIn_of_execute hp hparse (by decide) ho
    obtain ⟨hcommands, hlevel, source, target, hpaths, hhead⟩ :=
      program_asks hp (by decide) (by decide) hsize hasks
    cases hpaths.symm.trans hparse
    obtain ⟨sourcePath, targetPath, first, count, place, hsource, htarget, hfound, hhead⟩ := hhead
    cases hsource
    cases htarget
    have hmeasured : (Direct.itemsFound 10000 (ArrayPath.offset? ⟨[], .arrayAllOffset "a" "$.a",
        [.field "x"]⟩) (ArrayPath.hops ⟨[], .arrayAll "a", [.field "x"]⟩) (.object [("a", .array
          [.object [("x", .text "u")], .object [("x", .text "v")]])])).map
        (fun found => (found.1, found.2.2)) = .ok (2, 2) := by
      decide +kernel
    cases (congrArg (Except.map fun found => (found.1, found.2.2)) hfound).symm.trans hmeasured
    have hitems : head.values.items = [Json.ofNat rounds, Json.ofNat 2, Json.ofNat 2] :=
      List.reverse_eq_iff.1 hhead.values
    obtain rfl := rounds_eq_of_isMet hhead.rounds_le (by decide) hitems hmet
    exact ⟨program, head, hp, hasks, hcommands, hlevel, hhead⟩
  · obtain ⟨program, m', hp, ho⟩ := exists_done_of_isDone
      (m := Machine.start (.object [("v", .text "u")]) {} false)
      (show (Move.program ⟨"$.v", "$.b[*].y", some [("u", .bool true)]⟩).toOption.bind (fun program =>
        (Machine.execute 2 program _).map Outcome.isDone) = some true by decide +kernel)
    have hsize : (Machine.start (.object [("v", .text "u")]) {} false).document.SizedBelow (2 ^ 52) :=
      Json.sizedBelow_of_widest_lt _ (by decide)
    have hparse : Move.paths ⟨"$.v", "$.b[*].y", some [("u", .bool true)]⟩ =
        .ok ([.field "v"], [.arrayAll "b", .field "y"]) := by decide +kernel
    obtain ⟨rounds, head, hasks, hmet⟩ := exists_asksIn_of_execute hp hparse (by decide) ho
    obtain ⟨hcommands, hlevel, source, target, hpaths, hhead⟩ :=
      program_asks hp (by decide) (by decide) hsize hasks
    cases hpaths.symm.trans hparse
    obtain ⟨targetPath, value, place, count, htarget, hfound, hhead⟩ := hhead
    cases htarget
    have hmeasured : (Direct.arrayFound 10000 (hops .object [.field "v"]) (ArrayPath.hops
        ⟨[], .arrayAll "b", [.field "y"]⟩) (.object [("v", .text "u")])).map
        (fun found => (found.1, found.2.2)) = .ok (.text "u", 0) := by
      rfl
    cases (congrArg (Except.map fun found => (found.1, found.2.2)) hfound).symm.trans hmeasured
    have hitems : head.values.items = [Json.ofNat rounds, Json.ofNat 1] :=
      List.reverse_eq_iff.1 hhead.values
    obtain rfl := rounds_eq_of_isMet hhead.rounds_le (by decide) hitems hmet
    exact ⟨program, head, hp, hasks, hcommands, hlevel, hhead⟩

end Reshape.Move
