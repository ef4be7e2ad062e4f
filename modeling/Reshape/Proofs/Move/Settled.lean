import Reshape.Proofs.Move.Replication

/-!
# Copies that are made again

A walk may change a document, but the walk after it finds what it has left. So a copy whose source
is not touched by what it writes finds everything in place the second time, and changes nothing.

* `find?_of_locate_self` and `Direct.find?_of_writeAt_self`, a walk and a write that are found
  again; `EndsOpen`, walks at the end of which any value may be put;
* `Direct.Settled`, a copy of one node that has nothing left to do, `Direct.Filled`, a copy of one
  to each item of an array, and `Direct.Copied`, a copy of the items of an array;
* `settled_of_copyOne`, `exists_filled_of_copyToEach` and `copied_of_copyItems`, which come to them,
  and `Settled.copyOne`, `Filled.copyToEach` and `Copied.copyItems`, which change nothing.
-/

namespace Reshape

variable {limit : Nat} {hop : Hop} {walk : List Hop} {document node value : Json}
  {first place : Place}

/-! ### Walks -/

theorem FieldMode.accepts_entered (mode : FieldMode) (existing : Option Json) :
    mode.accepts (Hop.entered mode existing) = true := by
  unfold Hop.entered
  cases hkept : existing.filter mode.accepts with
  | none => cases mode <;> rfl
  | some child => exact (Option.filter_eq_some_iff.1 hkept).2

/-- The node that a step leads to is found by the same step. -/
theorem Hop.find?_of_enter (h : hop.enter limit document = .ok first) :
    hop.find? first.document = some first.node := by
  have hresolves := first.resolves
  rw [trail_of_enter h] at hresolves
  obtain ⟨child, hchild, -⟩ := Json.exists_child_of_resolve (Option.isSome_of_eq_some hresolves)
  rw [Json.resolve_cons hchild] at hresolves
  cases hresolves
  refine find?_eq_some.2 ⟨hchild, ?_⟩
  unfold enter at h
  split at h
  · cases h
    exact FieldMode.accepts_entered _ _
  · rfl
  · cases h

/-- A step finds what has been put behind it, if it leaves that. -/
theorem Hop.find?_setChild {old new : Json} (h : hop.find? document = some old)
    (haccepts : hop.accepts new = true) :
    hop.find? (document.setChild hop.locator new) = some new := by
  have hold := Option.isSome_of_eq_some (find?_eq_some.1 h).1
  exact find?_eq_some.2 ⟨Json.child?_setChild hold, haccepts⟩

/-- The node that a walk leads to is found by the same walk. -/
theorem find?_of_locate_self (h : locate limit walk document = .ok place) :
    find? walk place.document = some place.node := by
  induction walk generalizing document place with
  | nil =>
    cases h
    rfl
  | cons hop walk ih =>
    obtain ⟨first, hfirst, h⟩ := bind_eq_ok.1 h
    obtain ⟨last, hlast, h⟩ := bind_eq_ok.1 h
    cases h
    have hfound := Hop.find?_of_enter hfirst
    have haccepts : hop.accepts last.document = true := by
      rw [hop.accepts_of_kind (kind_of_locate hlast)]
      exact (Hop.find?_eq_some.1 hfound).2
    rw [Hop.document_within hfirst]
    exact find?_cons.2 ⟨_, Hop.find?_setChild hfound haccepts, ih hlast⟩

/-- So it changes nothing any more. -/
theorem locate_again (h : locate limit walk document = .ok place) :
    locate limit walk place.document = .ok place := by
  obtain ⟨again, hagain, hdocument, -⟩ := locate_of_find? limit (find?_of_locate_self h)
  rw [hagain, Place.ext hdocument ((trail_of_locate hagain).trans (trail_of_locate h).symm)]

/-- Any value at the end of the walk is left there by its last step. -/
def EndsOpen (walk : List Hop) : Prop := ∀ name, walk.getLast? ≠ some (.field .array name)

theorem EndsOpen.append {first second : List Hop} (h : EndsOpen first) (h' : EndsOpen second) :
    EndsOpen (first ++ second) := by
  intro name hname
  rw [List.getLast?_append] at hname
  cases hsecond : second.getLast? with
  | none =>
    rw [hsecond] at hname
    exact h name hname
  | some hop =>
    rw [hsecond] at hname
    exact h' name (hsecond.trans hname)

theorem Component.IsSingle.endsOpen {component : Component} (h : component.IsSingle)
    {mode : FieldMode} (hmode : mode ≠ .array) : EndsOpen (component.hops mode) := by
  intro name hname
  cases component with
  | field field =>
    cases hname
    exact hmode rfl
  | arrayIndex field index =>
    rw [Component.hops, List.getLast?_append] at hname
    cases hname
  | _ => cases h

/-- A path of single components does not end in the array of a pattern. -/
theorem endsOpen_hops {mode : FieldMode} (hmode : mode ≠ .array) {path : List Component}
    (h : ∀ component ∈ path, component.IsSingle) : EndsOpen (hops mode path) := by
  induction path with
  | nil =>
    intro name hname
    cases hname
  | cons component rest ih =>
    obtain ⟨hfirst, hrest⟩ := List.forall_mem_cons.1 h
    cases rest with
    | nil => exact hfirst.endsOpen hmode
    | cons next rest =>
      have hobject : FieldMode.object ≠ .array := by decide
      exact (hfirst.endsOpen hobject).append (ih hrest)

/-- A value in place of a node is found where the node was, if the last step leaves it. -/
theorem find?_replace_self (h : find? walk document = some node) {value : Json}
    (hlast : ∀ name, walk.getLast? = some (.field .array name) → value.kind = .array) :
    find? walk (Json.replace (trailOf walk) value document) = some value := by
  induction walk generalizing document with
  | nil => rfl
  | cons hop walk ih =>
    obtain ⟨child, hchild, hnode⟩ := find?_cons.1 h
    obtain ⟨hold, haccepts⟩ := Hop.find?_eq_some.1 hchild
    have hreplaced : Json.replace (trailOf (hop :: walk)) value document =
        document.setChild hop.locator (Json.replace (trailOf walk) value child) :=
      Json.replace_cons hold _ _
    rw [hreplaced]
    refine find?_cons.2 ⟨_, Hop.find?_setChild hchild ?_, ih hnode ?_⟩
    · cases walk with
      | nil =>
        show hop.accepts value = true
        cases hop with
        | item position => exact haccepts
        | field mode name =>
          cases mode with
          | array =>
            have hkind := hlast name rfl
            cases value <;> first | rfl | cases hkind
          | object => rfl
          | leaf => rfl
      | cons next walk =>
        have hbelow : trailOf (next :: walk) ≠ [] := List.cons_ne_nil _ _
        rw [hop.accepts_of_kind (Json.kind_replace hbelow _ _)]
        exact haccepts
    · intro name hname
      refine hlast name ?_
      cases walk with
      | nil => cases hname
      | cons next walk => rwa [List.getLast?_cons_cons]

/-! ### Arrays on the way -/

/-- A walk that leads along the trail of an array finds it. -/
theorem find?_of_locate_array {items : List Json} (h : locate limit walk document = .ok place)
    (harray : Json.resolve (trailOf walk) document = some (.array items)) :
    find? walk document = some (.array items) := by
  induction walk generalizing document place with
  | nil => exact harray
  | cons hop walk ih =>
    obtain ⟨first, hfirst, h⟩ := bind_eq_ok.1 h
    obtain ⟨last, hlast, -⟩ := bind_eq_ok.1 h
    obtain ⟨child, hchild, -⟩ := Json.exists_child_of_resolve (Option.isSome_of_eq_some harray)
    have hbelow : Json.resolve (trailOf walk) child = some (.array items) :=
      (Json.resolve_cons hchild _).symm.trans harray
    rcases Hop.enter_cases hfirst with ⟨hfound, -⟩ | ⟨-, hreplaced⟩
    · cases (Hop.find?_eq_some.1 hfound).1.symm.trans hchild
      exact find?_cons.2 ⟨_, hfound, ih hlast hbelow⟩
    · -- The child was no array, and an array was put in its place; the trail goes on otherwise.
      obtain ⟨hkind, hnew⟩ := hreplaced child hchild
      cases walk with
      | nil =>
        cases hbelow
        exact (hkind rfl).elim
      | cons next walk =>
        obtain ⟨second, hsecond, -⟩ := bind_eq_ok.1 hlast
        obtain ⟨grandchild, hgrandchild, -⟩ :=
          Json.exists_child_of_resolve (Option.isSome_of_eq_some hbelow)
        have hcontainer := Json.kind_of_child? hgrandchild
        rw [← Hop.kind_of_enter hsecond, hnew] at hcontainer
        exact (hkind hcontainer).elim

theorem Json.exists_items_of_kind {node : Json} (h : node.kind = .array) :
    ∃ items, node = .array items := by
  cases node with
  | array items => exact ⟨items, rfl⟩
  | _ => cases h

namespace Direct

variable {document' : Json} {mapping : Option Mapping} {source target array after : List Hop}

/-! ### One copy -/

/-- A value that has been written is found, unless it is put where only an array can be. -/
theorem find?_of_writeAt_self (h : writeAt limit walk value document = .ok document')
    (hopen : EndsOpen walk) : find? walk document' = some value := by
  obtain ⟨place, hplace, rfl⟩ := writeAt_eq_ok.1 h
  exact find?_replace_self (find?_of_locate_self hplace) fun name hname => (hopen name hname).elim

/-- To write the value that is found changes nothing. -/
theorem writeAt_of_find? (limit : Nat) (h : find? walk document = some value) :
    writeAt limit walk value document = .ok document := by
  obtain ⟨place, hplace, hdocument, -⟩ := locate_of_find? limit h
  refine writeAt_eq_ok.2 ⟨place, hplace, ?_⟩
  rw [hdocument, Json.replace_self (resolve_of_find? h)]

/-- A copy has nothing left to do: its source is found, and at its target what it writes there. -/
def Settled (mapping : Option Mapping) (source target : List Hop) (document : Json) : Prop :=
  ∃ value, find? source document = some value ∧
    find? target document = some (mapped mapping value)

/-- A copy is not seen where the trail parts from those of its source and its target. -/
theorem find?_of_copyOne (h : copyOne limit mapping source target document = .ok document')
    {other : List Hop} (hsource : Apart (trailOf other) (trailOf source))
    (htarget : Apart (trailOf other) (trailOf target)) (hfind : find? other document = some node) :
    find? other document' = some node := by
  obtain ⟨origin, horigin, h⟩ := bind_eq_ok.1 h
  rw [← List.append_nil (trailOf source)] at hsource
  exact find?_of_writeAt h htarget (find?_of_locate horigin (by simp) hsource hfind)

/-- After a copy from a node that is not touched by it, there is nothing left to do. -/
theorem settled_of_copyOne (h : copyOne limit mapping source target document = .ok document')
    (hapart : Apart (trailOf source) (trailOf target)) (hopen : EndsOpen target) :
    Settled mapping source target document' := by
  obtain ⟨origin, horigin, h⟩ := bind_eq_ok.1 h
  exact ⟨origin.node, find?_of_writeAt h hapart (find?_of_locate_self horigin),
    find?_of_writeAt_self h hopen⟩

theorem Settled.copyOne (h : Settled mapping source target document) (limit : Nat) :
    copyOne limit mapping source target document = .ok document := by
  obtain ⟨value, hsource, htarget⟩ := h
  rw [copyOne_of_find? hsource, writeAt_of_find? limit htarget]

/-- What is settled stays so under a copy that touches neither of its ends. -/
theorem Settled.of_copyOne {source' target' : List Hop}
    (h : Settled mapping source target document)
    (hcopy : Direct.copyOne limit mapping source' target' document = .ok document')
    (hsource : Apart (trailOf source) (trailOf source'))
    (hsource' : Apart (trailOf source) (trailOf target'))
    (htarget : Apart (trailOf target) (trailOf source'))
    (htarget' : Apart (trailOf target) (trailOf target')) :
    Settled mapping source target document' := by
  obtain ⟨value, hread, hwritten⟩ := h
  exact ⟨value, find?_of_copyOne hcopy hsource hsource' hread,
    find?_of_copyOne hcopy htarget htarget' hwritten⟩

/-! ### One node to each item of an array -/

theorem endsOpen_slot (h : EndsOpen after) (array : List Hop) (position : Nat) :
    EndsOpen (slot array after position) := by
  intro name hname
  rw [slot, List.getLast?_append, List.getLast?_cons] at hname
  cases hafter : after.getLast? with
  | none =>
    rw [hafter] at hname
    cases hname
  | some hop =>
    rw [hafter] at hname
    cases hname
    exact h name hafter

/-- Each slot is found with its value in the end: the writes behind it go to other items. -/
theorem find?_slot_of_writeSlots {first count : Nat} {fill : Nat → Json}
    (h : writeSlots limit array after first fill count document = .ok document')
    (hopen : EndsOpen after) {index : Nat} (hi : index < count) :
    find? (slot array after (first + index)) document' = some (fill index) := by
  refine foldlM_range_induction (motive := fun count written => ∀ index < count,
    find? (slot array after (first + index)) written = some (fill index)) h nofun ?_ index hi
  intro last earlier written _ hwrite hearlier index hi
  rcases Nat.lt_succ_iff_lt_or_eq.1 hi with hlt | rfl
  · have hapart := apart_slot (show first + index ≠ first + last by omega) array after after
    exact find?_of_writeAt hwrite hapart (hearlier index hlt)
  · exact find?_of_writeAt_self hwrite (endsOpen_slot hopen array _)

/-- A copy to each item has nothing left to do. -/
structure Filled (mapping : Option Mapping) (source array after : List Hop) (items : List Json)
    (document : Json) : Prop where
  array : find? array document = some (.array items)
  nonempty : 0 < items.length
  slots : ∃ value, find? source document = some value ∧ ∀ index < items.length,
    find? (slot [] after index) (.array items) = some (mapped mapping value)

/-- The array that is filled has as many items as there are rounds. -/
theorem length_of_fill {origin place : Place} {items : List Json} {effort : Effort}
    (horigin : locate limit source document = .ok origin)
    (hplace : locate limit array origin.document = .ok place)
    (hitems : place.node = .array items ∨
      items = [Json.emptyObject] ∧ place.node.length? = some 0) (hpos : 0 < items.length)
    (heffort : effortToEach limit source array document = .ok effort) :
    effort.rounds = items.length := by
  rw [effortToEach, arrayFound, horigin, ok_bind, hplace, ok_bind] at heffort
  rcases hitems with hitems | ⟨rfl, hempty⟩
  · have hsize : size place.node = .ok items.length := by
      rw [hitems]
      rfl
    rw [hsize] at heffort
    cases heffort
    exact Nat.max_eq_right hpos
  · rw [size_eq_ok.2 hempty] at heffort
    cases heffort
    rfl

/-- After a copy to each item, from a node that is not touched by it, there is nothing left to
do. -/
theorem exists_filled_of_copyToEach {effort : Effort}
    (h : copyToEach limit mapping source array after document = .ok document')
    (heffort : effortToEach limit source array document = .ok effort)
    (hapart : ∀ index < itemCountAt (trailOf array) document',
      Apart (trailOf source) (trailOf (slot array after index)))
    (hopen : EndsOpen after) :
    ∃ items, Filled mapping source array after items document' ∧ effort.rounds = items.length := by
  -- The source is found once it has been walked to.
  obtain ⟨origin, horigin, hrest⟩ := bind_eq_ok.1 h
  have hvalue := find?_of_locate_self horigin
  have hagain : copyToEach limit mapping source array after origin.document = .ok document' := by
    rw [copyToEach, locate_again horigin]
    exact hrest
  obtain ⟨place, items, written, hplace, hitems, hlength, hwrites, rfl⟩ :=
    copyToEach_eq_ok hvalue hagain
  have hpos : 0 < items.length := by omega
  have hrounds := length_of_fill horigin hplace hitems hpos heffort
  obtain ⟨final, hfinal, hcount⟩ := exists_items_of_writeSlots hwrites hpos
  cases hfinal
  have harray : find? array (Json.replace (trailOf array) (.array final) place.document) =
      some (.array final) := find?_replace_self (find?_of_locate_self hplace) fun _ _ => rfl
  have hfinalLength : final.length = items.length := by
    rw [hcount]
    show max items.length (0 + items.length) = items.length
    omega
  rw [itemCountAt, resolve_of_find? harray] at hapart
  replace hapart : ∀ index < items.length,
      Apart (trailOf source) (trailOf (slot array after index)) := hfinalLength ▸ hapart
  refine ⟨final, ⟨harray, by omega, origin.node, ?_, fun index hi => ?_⟩, by omega⟩
  · exact find?_of_fill hplace hitems hwrites hpos hapart hvalue
  · have hslot := find?_slot_of_writeSlots hwrites hopen (hfinalLength ▸ hi)
    rwa [Nat.zero_add] at hslot

theorem Filled.effortToEach {items : List Json}
    (h : Filled mapping source array after items document) (limit : Nat) :
    effortToEach limit source array document = .ok ⟨items.length, 0⟩ := by
  obtain ⟨value, hvalue, -⟩ := h.slots
  obtain ⟨origin, horigin, hdocument, rfl⟩ := locate_of_find? limit hvalue
  obtain ⟨place, hplace, -, hnode⟩ := locate_of_find? limit h.array
  have hsize : size (.array items) = .ok items.length := rfl
  have hpos := h.nonempty
  simp only [Direct.effortToEach, arrayFound, horigin, ok_bind, hdocument, hplace, hnode, hsize,
    map_pure, Nat.max_eq_right hpos, if_neg (Nat.ne_of_gt hpos)]
  rfl

theorem Filled.copyToEach {items : List Json}
    (h : Filled mapping source array after items document) (limit : Nat) :
    copyToEach limit mapping source array after document = .ok document := by
  obtain ⟨value, hvalue, hslots⟩ := h.slots
  obtain ⟨origin, horigin, hdocument, rfl⟩ := locate_of_find? limit hvalue
  obtain ⟨place, hplace, hdocument', hnode⟩ := locate_of_find? limit h.array
  have hsize : size (.array items) = .ok items.length := rfl
  have hpos := h.nonempty
  have hfill : (List.range items.length).foldlM (fun array index =>
      writeAt limit (.item (some index) :: after) (mapped mapping origin.node) array)
      (Json.array items) = .ok (.array items) :=
    foldlM_range_fixed fun index hi => writeAt_of_find? limit (hslots index hi)
  simp only [Direct.copyToEach, horigin, hdocument, hplace, hsize, ok_bind, hnode,
    if_neg (Nat.ne_of_gt hpos), Nat.max_eq_right hpos, hfill]
  rw [← hnode, place.put_node, hdocument']
  rfl

/-! ### The items of an array -/

/-- An array stays one under a walk that is not on the way to one of its items. -/
theorem exists_items_of_locate_apart {items : List Json} {position : Nat} {below : List Locator}
    (h : locate limit walk document = .ok place)
    (harray : find? array document = some (.array items))
    (hapart : Apart (trailOf walk) (trailOf array ++ .index position :: below)) :
    ∃ items', find? array place.document = some (.array items') := by
  rcases hapart.of_append with hapart | ⟨rest, hrest⟩
  · rw [← List.append_nil (trailOf walk)] at hapart
    exact ⟨items, find?_of_locate h (by simp) hapart.symm harray⟩
  · -- The walk goes on behind the array, which is made no other thing by what follows.
    obtain ⟨outer, inner, rfl, houter, -⟩ := List.map_eq_append_iff.1 hrest
    replace houter : trailOf outer = trailOf array := houter
    rw [locate_append] at h
    obtain ⟨base, hbase, h⟩ := bind_eq_ok.1 h
    obtain ⟨last, hlast, h⟩ := bind_eq_ok.1 h
    cases h
    have hresolve := resolve_of_find? harray
    rw [← houter] at hresolve
    obtain ⟨base', hbase', hdocument, hnode⟩ :=
      locate_of_find? limit (find?_of_locate_array hbase hresolve)
    cases hbase.symm.trans hbase'
    rw [hnode] at hlast
    obtain ⟨items', hitems⟩ := Json.exists_items_of_kind (kind_of_locate hlast)
    refine ⟨items', ?_⟩
    show find? array (Json.replace base.trail last.document base.document) = _
    rw [trail_of_locate hbase, houter, hdocument, hitems]
    exact find?_replace_node harray _ rfl

/-- So it does under a write. -/
theorem exists_items_of_writeAt_apart {items : List Json} {position : Nat} {below : List Locator}
    (h : writeAt limit walk value document = .ok document')
    (harray : find? array document = some (.array items))
    (hapart : Apart (trailOf walk) (trailOf array ++ .index position :: below)) :
    ∃ items', find? array document' = some (.array items') := by
  obtain ⟨place, hplace, rfl⟩ := writeAt_eq_ok.1 h
  obtain ⟨items', hitems⟩ := exists_items_of_locate_apart hplace harray hapart
  rcases hapart.of_append with haside | ⟨rest, hrest⟩
  · exact ⟨items', (find?_replace haside.symm _ _).trans hitems⟩
  · have hne : rest ≠ [] := by
      rintro rfl
      rw [hrest, Apart.append_left_iff] at hapart
      exact hapart.elim
    obtain ⟨written, hwritten⟩ :=
      Json.exists_items_of_kind (Json.kind_replace hne value (.array items'))
    refine ⟨written, ?_⟩
    rw [hrest, Json.replace_append (resolve_of_find? hitems), hwritten]
    exact find?_replace_node hitems _ rfl

variable {fromItem toPlace : List Hop}

/-- A copy of the items of an array has nothing left to do. -/
structure Copied (mapping : Option Mapping) (source fromItem target toPlace : List Hop)
    (count : Nat) (document : Json) : Prop where
  array : ∃ node, find? source document = some node ∧ size node = .ok count
  slots : ∀ index < count,
    Settled mapping (slot source fromItem index) (slot target toPlace index) document

/-- A copy of items that has been made found an array, unless there was nothing to copy. -/
theorem count_of_copyItems
    (h : copyItems limit mapping none source fromItem target toPlace document = .ok document') :
    ∃ place count, locate limit source document = .ok place ∧ size place.node = .ok count ∧
      count = itemCountAt (trailOf source) document ∧
      (0 < count → ∃ items, place.node = .array items ∧ items.length = count) ∧
      (List.range count).foldlM (fun document index =>
        copyOne limit mapping (slot source fromItem index) (slot target toPlace index) document)
        place.document = .ok document' := by
  obtain ⟨⟨first, _⟩, hfirst, h⟩ := bind_eq_ok.1 h
  cases hfirst
  obtain ⟨place, hplace, h⟩ := bind_eq_ok.1 h
  obtain ⟨count, hcount, h⟩ := bind_eq_ok.1 h
  simp only [Nat.zero_add] at h
  -- The first round goes to the first item.
  have harray : 0 < count → ∃ items, place.node = .array items := by
    refine (foldlM_range_induction (motive := fun round written =>
      (round = 0 → written = place.document) ∧ (0 < round → ∃ items, place.node = .array items))
      h ⟨fun _ => rfl, fun hpos => (Nat.lt_irrefl 0 hpos).elim⟩ ?_).2
    rintro index written _ - hcopy ⟨hnone, hsome⟩
    refine ⟨fun hzero => (Nat.succ_ne_zero index hzero).elim, fun _ => ?_⟩
    rcases Nat.eq_zero_or_pos index with rfl | hpos
    · obtain ⟨origin, horigin, -⟩ := bind_eq_ok.1 hcopy
      rw [hnone rfl, locate_append, locate_again hplace, ok_bind] at horigin
      obtain ⟨inner, hinner, -⟩ := bind_eq_ok.1 horigin
      obtain ⟨item, hitem, -⟩ := bind_eq_ok.1 hinner
      obtain ⟨items, hitems, -⟩ := Hop.enter_item hitem
      exact ⟨items, hitems⟩
    · exact hsome hpos
  have hitems : 0 < count → ∃ items, place.node = .array items ∧ items.length = count := by
    intro hpos
    obtain ⟨items, hitems⟩ := harray hpos
    have hlength := size_eq_ok.1 hcount
    rw [hitems] at hlength
    exact ⟨items, hitems, Option.some.inj hlength⟩
  refine ⟨place, count, hplace, hcount, ?_, hitems, h⟩
  rw [← itemCount_of_locate hplace]
  rcases Nat.eq_zero_or_pos count with rfl | hpos
  · exact (itemCount_of_blank (Json.child?_of_empty (size_eq_ok.1 hcount))).symm
  · obtain ⟨items, hnode, hlength⟩ := hitems hpos
    rw [hnode]
    exact hlength.symm

/-- There are as many rounds as there are items. -/
theorem rounds_of_copyItems {effort : Effort}
    (h : copyItems limit mapping none source fromItem target toPlace document = .ok document')
    (heffort : effortOfItems limit none source document = .ok effort) :
    effort.rounds = itemCountAt (trailOf source) document := by
  obtain ⟨place, count, hplace, hcount, heq, -, -⟩ := count_of_copyItems h
  simp only [effortOfItems, itemsFound, passOver, ok_bind, hplace, hcount, map_pure] at heffort
  cases heffort
  exact heq

/-- One more copy leaves settled what is settled, and settles itself. -/
theorem settled_succ {count last : Nat}
    (hapart : ∀ read < count, ∀ written < count,
      Apart (trailOf (slot source fromItem read)) (trailOf (slot target toPlace written)))
    (hopen : EndsOpen toPlace) (hlast : last < count)
    (hcopy : copyOne limit mapping (slot source fromItem last) (slot target toPlace last) document =
      .ok document')
    (hslots : ∀ index < last,
      Settled mapping (slot source fromItem index) (slot target toPlace index) document) :
    ∀ index < last + 1,
      Settled mapping (slot source fromItem index) (slot target toPlace index) document' := by
  intro index hi
  rcases Nat.lt_succ_iff_lt_or_eq.1 hi with hlt | rfl
  · have hne : index ≠ last := Nat.ne_of_lt hlt
    have hindex := Nat.lt_trans hlt hlast
    exact (hslots index hlt).of_copyOne hcopy (apart_slot hne _ _ _)
      (hapart index hindex last hlast) (hapart last hlast index hindex).symm
      (apart_slot hne _ _ _)
  · exact settled_of_copyOne hcopy (hapart index hlast index hlast)
      (endsOpen_slot hopen target index)

/-- An array stays one under a copy from one of its items to a slot aside from another. -/
theorem exists_items_of_copyOne_slot {items : List Json} {position other : Nat} {walk : List Hop}
    (h : copyOne limit mapping (slot source fromItem position) walk document = .ok document')
    (harray : find? source document = some (.array items))
    (hapart : Apart (trailOf walk) (trailOf (slot source fromItem other))) :
    ∃ items', find? source document' = some (.array items') := by
  obtain ⟨origin, horigin, hwrite⟩ := bind_eq_ok.1 h
  have haside := apart_slot (Nat.succ_ne_self position).symm source fromItem fromItem
  rw [trailOf_slot source fromItem (position + 1)] at haside
  obtain ⟨items', harray'⟩ := exists_items_of_locate_apart horigin harray haside
  rw [trailOf_slot] at hapart
  exact exists_items_of_writeAt_apart hwrite harray' hapart

/-- After a copy of items, none of which is touched by it, there is nothing left to do, unless it
has made the array longer that they are in. -/
theorem copied_of_copyItems
    (h : copyItems limit mapping none source fromItem target toPlace document = .ok document')
    (hapart : ∀ read < itemCountAt (trailOf source) document,
      ∀ written < itemCountAt (trailOf source) document,
        Apart (trailOf (slot source fromItem read)) (trailOf (slot target toPlace written)))
    (hsame : itemCountAt (trailOf source) document' = itemCountAt (trailOf source) document)
    (hopen : EndsOpen toPlace) :
    Copied mapping source fromItem target toPlace (itemCountAt (trailOf source) document)
      document' := by
  obtain ⟨place, count, hplace, hcount, heq, hitems, hcopies⟩ := count_of_copyItems h
  rw [← heq] at hapart hsame ⊢
  have hfound := find?_of_locate_self hplace
  rcases Nat.eq_zero_or_pos count with rfl | hpos
  · cases hcopies
    exact ⟨⟨_, hfound, hcount⟩, fun index hi => (Nat.not_lt_zero index hi).elim⟩
  obtain ⟨items, hnode, -⟩ := hitems hpos
  rw [hnode] at hfound
  have hslots := foldlM_range_induction (motive := fun round written => ∀ index < round,
    Settled mapping (slot source fromItem index) (slot target toPlace index) written) hcopies
    (fun index hi => (Nat.not_lt_zero index hi).elim)
    fun last _ _ hlast => settled_succ hapart hopen hlast
  obtain ⟨items', harray⟩ := foldlM_range_induction (motive := fun _ written =>
    ∃ items, find? source written = some (.array items)) hcopies ⟨items, hfound⟩
    fun last _ _ hlast hcopy ⟨_, harray⟩ =>
      exists_items_of_copyOne_slot hcopy harray (hapart 0 hpos last hlast).symm
  rw [itemCountAt, resolve_of_find? harray] at hsame
  exact ⟨⟨_, harray, size_eq_ok.2 (congrArg some hsame)⟩, hslots⟩

theorem Copied.effortOfItems {count : Nat}
    (h : Copied mapping source fromItem target toPlace count document) (limit : Nat) :
    effortOfItems limit none source document = .ok ⟨count, 0⟩ := by
  obtain ⟨node, hnode, hsize⟩ := h.array
  obtain ⟨place, hplace, -, rfl⟩ := locate_of_find? limit hnode
  simp only [Direct.effortOfItems, itemsFound, passOver, ok_bind, hplace, hsize, map_pure]
  rfl

theorem Copied.copyItems {count : Nat}
    (h : Copied mapping source fromItem target toPlace count document) (limit : Nat) :
    copyItems limit mapping none source fromItem target toPlace document = .ok document := by
  obtain ⟨node, hnode, hsize⟩ := h.array
  obtain ⟨place, hplace, hdocument, rfl⟩ := locate_of_find? limit hnode
  have hcopies : (List.range count).foldlM (fun document index =>
      copyOne limit mapping (slot source fromItem index) (slot target toPlace (0 + index)) document)
      document = .ok document :=
    foldlM_range_fixed fun index hi => by
      rw [Nat.zero_add]
      exact (h.slots index hi).copyOne limit
  simp only [Direct.copyItems, passOver, ok_bind, hplace, hsize, hdocument]
  exact hcopies

end Direct

end Reshape
