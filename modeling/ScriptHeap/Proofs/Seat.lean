import Mathlib.Algebra.Ring.Nat
import Mathlib.Data.List.Range
import ScriptHeap.Node.Flatten
import ScriptHeap.Proofs.LookUp
/-!
# Seats

Where the nodes of a tree come to lie in a heap, told without a builder:

* `Node.keptParts`, `Node.cellCount`   the nodes that get cells, and how many cells there are;
* `Seat`               a node, the address of its cell, and the links that cells around it give it;
* `Seat.parts`         the seats of the parts of a node: one block of addresses after the other;
* `Seat.below`         the seats of a node and of all nodes below it, in pre-order;
* `Seat.draft`         the draft of the cell of a seat;
* `Seat.map_address_below`   the addresses of the seats follow each other without a gap.
-/

namespace ScriptHeap

/-! ## the nodes that get cells -/

namespace Node

/-- the parts of a node by the shape of its kind; none if the kind has no shape -/
def keptParts (corpus : Corpus) (n : Node) : List (Place × Node) :=
  match corpus.shapeOf? n.kind with
  | some shape => n.parts shape
  | none => []

theorem nestedArg?_eq_some_iff {n : Node} {name : String} {c : Node} :
    n.nestedArg? name = some c ↔ n.arg? name = some (.nested c) := by
  show (n.arg? name).bind Arg.nested? = some c ↔ _
  rcases n.arg? name with _ | (s | d) <;> simp [Arg.nested?]

theorem mem_children_of_nestedArg? {n : Node} {name : String} {c : Node}
    (h : n.nestedArg? name = some c) : c ∈ n.children :=
  mem_children_of_arg? (nestedArg?_eq_some_iff.mp h)

theorem mem_bodyParts {n : Node} {rule : BodyRule} {p : Place × Node} (h : p ∈ n.bodyParts rule) :
    (∃ kinds, rule = .block kinds ∧ p.1 = .statement ∧ p.2 ∈ n.body) ∨
      ∃ name, rule = .primary name ∧ p.1 = .arg name true ∧ n.nestedArg? name = some p.2 := by
  cases rule with
  | block kinds =>
    obtain ⟨c, hc, rfl⟩ := List.mem_map.mp h
    exact .inl ⟨kinds, rfl, rfl, hc⟩
  | primary name =>
    obtain ⟨c, hc, rfl⟩ := Option.map_eq_some_iff.mp (Option.mem_toList.mp h)
    exact .inr ⟨name, rfl, rfl, hc⟩
  | none => cases h

theorem argPart?_eq_some_iff {n : Node} {spec : ArgSpec} {p : Place × Node} :
    n.argPart? spec = some p ↔ spec.type.isNode = true ∧ p.1 = .arg spec.name false ∧
      n.nestedArg? spec.name = some p.2 := by
  unfold argPart?
  split
  · next ht =>
    rw [Option.map_eq_some_iff]
    constructor
    · rintro ⟨c, hc, rfl⟩
      exact ⟨ht, rfl, hc⟩
    · intro ⟨_, hp, hc⟩
      exact ⟨p.2, hc, by rw [← hp]⟩
  · next ht => exact ⟨nofun, fun h => absurd h.1 ht⟩

theorem mem_children_of_mem_parts {n : Node} {shape : KindShape} {p : Place × Node}
    (h : p ∈ n.parts shape) : p.2 ∈ n.children := by
  rcases List.mem_append.mp h with h | h
  · rcases mem_bodyParts h with ⟨_, _, _, hc⟩ | ⟨_, _, _, hc⟩
    · exact List.mem_append_right _ hc
    · exact mem_children_of_nestedArg? hc
  · obtain ⟨spec, _, hs⟩ := List.mem_filterMap.mp h
    exact mem_children_of_nestedArg? (argPart?_eq_some_iff.mp hs).2.2

theorem sizeOf_lt_of_mem_keptParts {corpus : Corpus} {n : Node} {p : Place × Node}
    (h : p ∈ n.keptParts corpus) : sizeOf p.2 < sizeOf n := by
  unfold keptParts at h
  split at h
  · exact sizeOf_lt_of_mem_children (mem_children_of_mem_parts h)
  · cases h

/-- the number of cells of a node and of all nodes below it -/
def cellCount (corpus : Corpus) (n : Node) : Nat :=
  1 + ((n.keptParts corpus).attach.map fun p => cellCount corpus p.1.2).sum
termination_by sizeOf n
decreasing_by exact sizeOf_lt_of_mem_keptParts p.2

theorem cellCount_eq (corpus : Corpus) (n : Node) :
    n.cellCount corpus = 1 + ((n.keptParts corpus).map fun p => p.2.cellCount corpus).sum := by
  rw [cellCount, List.attach_map_val (f := fun p : Place × Node => p.2.cellCount corpus)]

theorem cellCount_pos (corpus : Corpus) (n : Node) : 0 < n.cellCount corpus := by
  rw [cellCount_eq]
  omega

/-! ## the scalars of a cell -/

theorem argScalar?_eq_some_iff {n : Node} {spec : ArgSpec} {e : String × Scalar} :
    n.argScalar? spec = some e ↔
      e.1 = spec.name ∧ n.arg? spec.name = some (.scalar e.2) ∧ spec.type.accepts e.2 = true := by
  unfold argScalar?
  split
  · next s hs =>
    split
    · next ha =>
      constructor
      · intro h
        cases h
        exact ⟨rfl, hs, ha⟩
      · intro ⟨hname, harg, _⟩
        rw [hs] at harg
        cases harg
        rw [← hname]
    · next ha =>
      refine ⟨nofun, fun ⟨_, harg, hacc⟩ => ?_⟩
      rw [hs] at harg
      cases harg
      exact absurd hacc ha
  · next hs => exact ⟨nofun, fun ⟨_, harg, _⟩ => absurd harg (hs _)⟩

theorem mem_scalars_iff {n : Node} {shape : KindShape} {e : String × Scalar} :
    e ∈ n.scalars shape ↔ ∃ spec ∈ shape.ordinaryArgs, e.1 = spec.name ∧
      n.arg? spec.name = some (.scalar e.2) ∧ spec.type.accepts e.2 = true := by
  show e ∈ List.filterMap _ _ ↔ _
  rw [List.mem_filterMap]
  exact exists_congr fun spec => and_congr_right fun _ => argScalar?_eq_some_iff

section
variable {n : Node} {shape : KindShape} (hn : (shape.args.map (·.name)).Nodup)
include hn

theorem ordinaryArgs_nodup : (shape.ordinaryArgs.map (·.name)).Nodup :=
  hn.sublist (List.Sublist.map _ List.filter_sublist)

theorem scalars_nodup : ((n.scalars shape).map Prod.fst).Nodup :=
  (ordinaryArgs_nodup hn).sublist
    (sublist_map_filterMap (fun _ _ he => (argScalar?_eq_some_iff.mp he).1) _)

end

/-- the scalars that a cell holds, by name -/
def scalarArgs (n : Node) (shape : KindShape) : NameMap (Arg Address) :=
  (n.scalars shape).foldl (fun m e => m.insert e.1 (.scalar e.2)) .empty

theorem find?_scalarArgs {n : Node} {shape : KindShape} (hn : (shape.args.map (·.name)).Nodup)
    (name : String) :
    (n.scalarArgs shape).find? name = (Entries.find? name (n.scalars shape)).map Arg.scalar := by
  have hnodup : (((n.scalars shape).map fun e => (e.1, (Arg.scalar e.2 : Arg Address))).map
      Prod.fst).Nodup := by
    rw [List.map_map]
    exact scalars_nodup hn
  have hfold : n.scalarArgs shape = ((n.scalars shape).map fun e =>
      (e.1, (Arg.scalar e.2 : Arg Address))).foldl (fun m e => m.insert e.1 e.2) .empty := by
    rw [List.foldl_map]
    rfl
  rw [hfold, NameMap.find?_foldl_insert hnodup, Entries.find?_map]
  exact Option.or_none

theorem find?_scalarArgs_of_nestedArg? {n : Node} {shape : KindShape}
    (hn : (shape.args.map (·.name)).Nodup) {name : String} {c : Node}
    (hc : n.nestedArg? name = some c) : (n.scalarArgs shape).find? name = none := by
  rw [find?_scalarArgs hn, Option.map_eq_none_iff, Entries.find?_eq_none_iff_not_mem]
  intro hm
  obtain ⟨e, he, rfl⟩ := List.mem_map.mp hm
  obtain ⟨spec, _, hname, harg, _⟩ := mem_scalars_iff.mp he
  rw [nestedArg?_eq_some_iff, hname, harg] at hc
  cases hc

end Node

/-! ## seats -/

/-- a node with the address of its cell, its parent link, and its next link if one is written -/
structure Seat where
  node : Node
  address : Address
  parent : Address
  next : Option Address

/-- the address of the first statement among parts that get the cells from `free` on -/
def nextStatement (corpus : Corpus) : (free : Address) → List (Place × Node) → Address
  | _, [] => .nothing
  | free, (.statement, _) :: _ => free
  | free, (.arg _ _, c) :: rest => nextStatement corpus (free + c.cellCount corpus) rest

/-- the next link of a part -/
def Place.next (place : Place) (next : Address) : Option Address :=
  match place with
  | .statement => some next
  | .arg _ _ => none

/-- the seats of parts that get the cells from `free` on -/
def seatParts (corpus : Corpus) (linkage : ParentLinkage) (owner : Address) :
    (free : Address) → (last : Option Address) → List (Place × Node) → List (Place × Seat)
  | _, _, [] => []
  | free, last, (place, c) :: rest =>
    (place, ⟨c, free, (OpenCell.mk owner last).parentOf linkage place,
        place.next (nextStatement corpus (free + c.cellCount corpus) rest)⟩) ::
      seatParts corpus linkage owner (free + c.cellCount corpus) (place.last free last) rest

theorem seatParts_node {corpus : Corpus} {linkage : ParentLinkage} {owner free : Address}
    {last : Option Address} {ps : List (Place × Node)} :
    (seatParts corpus linkage owner free last ps).map (fun p => (p.1, p.2.node)) = ps := by
  induction ps generalizing free last with
  | nil => rfl
  | cons p ps ih =>
    obtain ⟨place, c⟩ := p
    rw [seatParts, List.map_cons, ih]

/-- what is written into a cell of the address of a part; statements are written by `close` -/
def Place.fill (place : Place) (child : Address) (d : Draft) : Draft :=
  match place with
  | .statement => d
  | .arg name primary =>
    if primary then (d.withArg name (.nested child)).withLink child .body
    else d.withArg name (.nested child)

/-- the slots that the address of a part is written into; a statement is chained instead -/
def Place.slots : Place → List Slot
  | .statement => []
  | .arg name primary => if primary then [.arg name, .link .body] else [.arg name]

theorem Place.arg_mem_slots_iff {place : Place} {name : String} :
    .arg name ∈ place.slots ↔ ∃ primary, place = .arg name primary := by
  cases place with
  | statement => simp [slots]
  | arg other primary => cases primary <;> simp [slots, eq_comm]

theorem Place.body_mem_slots_iff {place : Place} :
    .link .body ∈ place.slots ↔ ∃ name, place = .arg name true := by
  cases place with
  | statement => simp [slots]
  | arg other primary => cases primary <;> simp [slots]

namespace Draft

/-- what is written in a slot -/
def read (d : Draft) : Slot → Option (Arg Address)
  | .link field => (d.link? field).map .nested
  | .arg name => d.args.find? name

theorem read_body_iff {d : Draft} {a : Address} :
    d.read (.link .body) = some (.nested a) ↔ d.body = some a := by
  show Option.map Arg.nested _ = _ ↔ _
  rw [Option.map_eq_some_iff]
  exact ⟨fun ⟨b, hb, heq⟩ => (by cases heq; exact hb), fun h => ⟨a, h, rfl⟩⟩

theorem read_withLink_of_ne {d : Draft} {value : Address} {field : LinkField} {slot : Slot}
    (h : slot ≠ .link field) : (d.withLink value field).read slot = d.read slot := by
  cases slot with
  | arg name => cases field <;> rfl
  | link other =>
    have hne : other ≠ field := fun heq => h (heq ▸ rfl)
    cases field <;> cases other <;> first | rfl | exact absurd rfl hne

theorem read_withArg {d : Draft} {name : String} {value : Arg Address} {slot : Slot} :
    (d.withArg name value).read slot = if slot = .arg name then some value else d.read slot := by
  cases slot with
  | link field => cases field <;> rfl
  | arg other =>
    show (d.args.insert name value).find? other = _
    by_cases heq : other = name
    · subst heq
      rw [NameMap.find?_insert_self, if_pos rfl]
    · rw [NameMap.find?_insert_of_ne _ heq, if_neg fun h => heq (Slot.arg.inj h)]
      rfl

theorem read_fill {place : Place} {child : Address} {d : Draft} {slot : Slot} :
    (place.fill child d).read slot
      = if slot ∈ place.slots then some (.nested child) else d.read slot := by
  cases place with
  | statement => rfl
  | arg name primary =>
    cases primary with
    | false =>
      show (d.withArg name (.nested child)).read slot = if slot ∈ [Slot.arg name] then _ else _
      rw [read_withArg]
      simp only [List.mem_singleton]
    | true =>
      show ((d.withArg name (.nested child)).withLink child .body).read slot
        = if slot ∈ [Slot.arg name, .link .body] then _ else _
      by_cases hb : slot = .link .body
      · subst hb
        rfl
      · rw [read_withLink_of_ne hb, read_withArg]
        simp only [List.mem_pair, hb, or_false]

/-- a draft with the addresses of parts written -/
def filled (d : Draft) (parts : List (Place × Seat)) : Draft :=
  parts.foldl (fun d p => p.1.fill p.2.address d) d

theorem filled_cons (d : Draft) (p : Place × Seat) (parts : List (Place × Seat)) :
    d.filled (p :: parts) = (p.1.fill p.2.address d).filled parts := rfl

/-- parts are not written in the parent link or the next link -/
theorem fill_withLink {field : LinkField} (hf : field ≠ .body) (place : Place)
    (child value : Address) (d : Draft) :
    place.fill child (d.withLink value field) = (place.fill child d).withLink value field := by
  cases place with
  | statement => rfl
  | arg name primary =>
    cases field with
    | body => exact absurd rfl hf
    | parent => cases primary <;> rfl
    | next => cases primary <;> rfl

theorem filled_withLink {field : LinkField} (hf : field ≠ .body) (d : Draft) (value : Address)
    (parts : List (Place × Seat)) :
    (d.withLink value field).filled parts = (d.filled parts).withLink value field := by
  induction parts generalizing d with
  | nil => rfl
  | cons p parts ih => rw [filled_cons, filled_cons, fill_withLink hf, ih]

/-- what no part changes, all parts together do not change -/
theorem filled_fixed {α : Type} {f : Draft → α}
    (hf : ∀ (place : Place) (child : Address) (d : Draft), f (place.fill child d) = f d) (d : Draft)
    (parts : List (Place × Seat)) : f (d.filled parts) = f d := by
  induction parts generalizing d with
  | nil => rfl
  | cons p parts ih => rw [filled_cons, ih, hf]

theorem links_fill (place : Place) (child : Address) (d : Draft) :
    (place.fill child d).kind = d.kind ∧ (place.fill child d).parent = d.parent ∧
      (place.fill child d).next = d.next := by
  cases place with
  | statement => exact ⟨rfl, rfl, rfl⟩
  | arg name primary => cases primary <;> exact ⟨rfl, rfl, rfl⟩

theorem kind_filled (d : Draft) (parts : List (Place × Seat)) : (d.filled parts).kind = d.kind :=
  filled_fixed (fun place child d => (links_fill place child d).1) d parts

theorem parent_filled (d : Draft) (parts : List (Place × Seat)) :
    (d.filled parts).parent = d.parent :=
  filled_fixed (fun place child d => (links_fill place child d).2.1) d parts

theorem next_filled (d : Draft) (parts : List (Place × Seat)) : (d.filled parts).next = d.next :=
  filled_fixed (fun place child d => (links_fill place child d).2.2) d parts

end Draft

namespace Seat

/-- the seat of the root of a tree -/
def root (n : Node) : Seat := ⟨n, .root, .nothing, none⟩

section
variable (corpus : Corpus) (linkage : ParentLinkage)

/-- the seats of the parts of a node -/
def parts (s : Seat) : List (Place × Seat) :=
  seatParts corpus linkage s.address (s.address + 1) none (s.node.keptParts corpus)

theorem map_parts (s : Seat) :
    (s.parts corpus linkage).map (fun p => (p.1, p.2.node)) = s.node.keptParts corpus :=
  seatParts_node

theorem mem_keptParts_of_mem_parts {s : Seat} {p : Place × Seat} (h : p ∈ s.parts corpus linkage) :
    (p.1, p.2.node) ∈ s.node.keptParts corpus := by
  rw [← map_parts corpus linkage s]
  exact List.mem_map_of_mem h

/-- the seats of a node and of all nodes below it, in pre-order -/
def below (s : Seat) : List Seat :=
  s :: (s.parts corpus linkage).attach.flatMap fun p => below p.1.2
termination_by sizeOf s.node
decreasing_by exact Node.sizeOf_lt_of_mem_keptParts (mem_keptParts_of_mem_parts corpus linkage p.2)

theorem below_eq (s : Seat) :
    s.below corpus linkage
      = s :: (s.parts corpus linkage).flatMap fun p => p.2.below corpus linkage := by
  rw [below, List.flatMap_def, List.flatMap_def,
    List.attach_map_val (f := fun p : Place × Seat => below corpus linkage p.2)]

/-- the draft of the cell of a seat -/
def draft (s : Seat) : Draft :=
  match corpus.shapeOf? s.node.kind with
  | none => ⟨.nothing, some s.parent, s.next, none, .empty⟩
  | some shape =>
    Draft.filled ⟨shape.kind, some s.parent, s.next,
      if shape.isBlock then some (nextStatement corpus (s.address + 1) (s.node.parts shape)) else none,
      s.node.scalarArgs shape⟩
      (s.parts corpus linkage)

/-- the cell of a seat -/
def cell (s : Seat) : Cell := (s.draft corpus linkage).toCell

/-- the drafts of a node and of all nodes below it, in the order of their addresses -/
def drafts (s : Seat) : List Draft := (s.below corpus linkage).map (draft corpus linkage)

theorem drafts_eq (s : Seat) :
    s.drafts corpus linkage = s.draft corpus linkage ::
      (s.parts corpus linkage).flatMap fun p => p.2.drafts corpus linkage := by
  show (s.below corpus linkage).map (draft corpus linkage) = _
  rw [below_eq, List.map_cons, List.map_flatMap]
  rfl

/-- what holds of a seat when it holds of the seats of all parts holds of every seat -/
theorem induction {P : Seat → Prop} (h : ∀ s : Seat, (∀ p ∈ s.parts corpus linkage, P p.2) → P s)
    (s : Seat) : P s :=
  h s fun p _ => induction h p.2
termination_by sizeOf s.node
decreasing_by exact Node.sizeOf_lt_of_mem_keptParts (mem_keptParts_of_mem_parts corpus linkage ‹_›)

end

section
variable {corpus : Corpus} {linkage : ParentLinkage}

theorem parts_eq {s : Seat} {shape : KindShape} (hs : corpus.shapeOf? s.node.kind = some shape) :
    s.parts corpus linkage
      = seatParts corpus linkage s.address (s.address + 1) none (s.node.parts shape) := by
  unfold parts Node.keptParts
  rw [hs]

theorem draft_eq {s : Seat} {shape : KindShape} (hs : corpus.shapeOf? s.node.kind = some shape) :
    s.draft corpus linkage = Draft.filled ⟨shape.kind, some s.parent, s.next,
      if shape.isBlock then some (nextStatement corpus (s.address + 1) (s.node.parts shape)) else none,
      s.node.scalarArgs shape⟩ (s.parts corpus linkage) := by
  unfold draft
  rw [hs]

theorem mem_parts {s : Seat} {shape : KindShape} (hs : corpus.shapeOf? s.node.kind = some shape)
    {p : Place × Seat} (hp : p ∈ s.parts corpus linkage) : (p.1, p.2.node) ∈ s.node.parts shape := by
  have hmem := mem_keptParts_of_mem_parts corpus linkage hp
  rwa [Node.keptParts, hs] at hmem

variable (linkage) in
theorem exists_mem_parts {s : Seat} {shape : KindShape}
    (hs : corpus.shapeOf? s.node.kind = some shape) {place : Place} {c : Node}
    (h : (place, c) ∈ s.node.parts shape) :
    ∃ t, (place, t) ∈ s.parts corpus linkage ∧ t.node = c := by
  have hkept : s.node.keptParts corpus = s.node.parts shape := by
    rw [Node.keptParts, hs]
  rw [← hkept, ← map_parts corpus linkage s] at h
  obtain ⟨⟨place', t⟩, ht, heq⟩ := List.mem_map.mp h
  cases heq
  exact ⟨t, ht, rfl⟩

theorem parent_draft (s : Seat) : (s.draft corpus linkage).parent = some s.parent := by
  unfold draft
  split
  · rfl
  · exact Draft.parent_filled _ _

theorem next_draft (s : Seat) : (s.draft corpus linkage).next = s.next := by
  unfold draft
  split
  · rfl
  · exact Draft.next_filled _ _

/-- a next link that is written later changes the draft of the node itself only -/
theorem drafts_withNext (c : Node) (a parent next : Address) :
    (Seat.mk c a parent (some next)).drafts corpus linkage
      = ((Seat.mk c a parent none).draft corpus linkage).withLink next .next ::
        ((Seat.mk c a parent none).parts corpus linkage).flatMap
          fun p => p.2.drafts corpus linkage := by
  rw [drafts_eq]
  congr 1
  unfold draft
  split
  · next h => simp only [h]; rfl
  · next shape h =>
    simp only [h]
    have hne : LinkField.next ≠ .body := nofun
    rw [← Draft.filled_withLink hne]
    rfl

theorem mem_below_self (s : Seat) : s ∈ s.below corpus linkage := by
  rw [below_eq]
  exact List.mem_cons_self

theorem mem_below_of_mem_parts {s : Seat} {p : Place × Seat} (hp : p ∈ s.parts corpus linkage)
    {t : Seat} (ht : t ∈ p.2.below corpus linkage) : t ∈ s.below corpus linkage := by
  rw [below_eq]
  exact List.mem_cons_of_mem _ (List.mem_flatMap.mpr ⟨p, hp, ht⟩)

theorem below_trans {s t u : Seat} (ht : t ∈ s.below corpus linkage)
    (hu : u ∈ t.below corpus linkage) : u ∈ s.below corpus linkage := by
  induction s using Seat.induction corpus linkage with
  | h s ih =>
    rw [below_eq] at ht
    rcases List.mem_cons.mp ht with rfl | ht
    · exact hu
    · obtain ⟨p, hp, ht⟩ := List.mem_flatMap.mp ht
      exact mem_below_of_mem_parts hp (ih p hp ht)

/-! ## addresses -/

/-- one block of addresses after the other -/
theorem flatMap_range'_seatParts {owner free : Address} {last : Option Address}
    {ps : List (Place × Node)} :
    (seatParts corpus linkage owner free last ps).flatMap
        (fun p => List.range' p.2.address (p.2.node.cellCount corpus))
      = List.range' free (ps.map fun p => p.2.cellCount corpus).sum := by
  induction ps generalizing free last with
  | nil => rfl
  | cons p ps ih =>
    obtain ⟨place, c⟩ := p
    rw [seatParts, List.flatMap_cons, ih, List.map_cons, List.sum_cons]
    exact List.range'_append_1

/-- a part lies behind its owner -/
theorem lt_address_of_mem_parts {s : Seat} {p : Place × Seat} (hp : p ∈ s.parts corpus linkage) :
    s.address < p.2.address := by
  have hmem : p.2.address ∈ (s.parts corpus linkage).flatMap
      (fun p => List.range' p.2.address (p.2.node.cellCount corpus)) := by
    refine List.mem_flatMap.mpr ⟨p, hp, List.mem_range'_1.mpr ⟨Nat.le_refl _, ?_⟩⟩
    exact Nat.lt_add_of_pos_right (Node.cellCount_pos corpus p.2.node)
  rw [parts, flatMap_range'_seatParts, List.mem_range'_1] at hmem
  exact hmem.1

variable (corpus linkage) in
theorem map_address_below (s : Seat) :
    (s.below corpus linkage).map (·.address) = List.range' s.address (s.node.cellCount corpus) := by
  induction s using Seat.induction corpus linkage with
  | h s ih =>
    have hparts : ((s.parts corpus linkage).flatMap fun p =>
        (p.2.below corpus linkage).map (·.address))
        = List.range' (s.address + 1) ((s.node.keptParts corpus).map
          fun p => p.2.cellCount corpus).sum := by
      rw [List.flatMap_congr fun p hp => ih p hp]
      exact flatMap_range'_seatParts
    rw [below_eq, List.map_cons, List.map_flatMap, hparts, Node.cellCount_eq, Nat.add_comm 1,
      List.range'_succ]

theorem length_below (s : Seat) : (s.below corpus linkage).length = s.node.cellCount corpus := by
  have hlen := congrArg List.length (map_address_below corpus linkage s)
  rwa [List.length_map, List.length_range'] at hlen

theorem length_drafts (s : Seat) : (s.drafts corpus linkage).length = s.node.cellCount corpus := by
  show ((s.below corpus linkage).map _).length = _
  rw [List.length_map, length_below]

end

end Seat

end ScriptHeap
