import ScriptHeap.Proofs.Chain
import ScriptHeap.Proofs.Flattening
/-!
# The heap of a tree

* `Node.arg_mem_parts_iff`, `Node.statementsOf_parts`   which nodes are parts, and where;
* `Seat.arg?_cell_scalar_iff`, `Seat.arg?_cell_nested_iff`   the arguments of the cell of a seat;
* `Seat.below_perm`    every seat but the first is the seat of one part of one seat;
* `Node.getElem?_heap`   the cells of the heap of a tree;
* `Node.follows_heap`  the chain of a cell leads to the seats of the statements.
-/

namespace ScriptHeap

/-! ## parts of nodes -/

/-- the statements among parts -/
def statementsOf {α : Type} (ps : List (Place × α)) : List α :=
  ps.filterMap fun p => if p.1 = .statement then some p.2 else none

theorem statementsOf_statement {α : Type} (x : α) (ps : List (Place × α)) :
    statementsOf ((.statement, x) :: ps) = x :: statementsOf ps := rfl
theorem statementsOf_arg {α : Type} (name : String) (primary : Bool) (x : α)
    (ps : List (Place × α)) : statementsOf ((.arg name primary, x) :: ps) = statementsOf ps := rfl

theorem mem_statementsOf {α : Type} {ps : List (Place × α)} {x : α} :
    x ∈ statementsOf ps ↔ (.statement, x) ∈ ps := by
  unfold statementsOf
  rw [List.mem_filterMap]
  constructor
  · intro ⟨⟨place, y⟩, hp, hx⟩
    split at hx
    · next hplace =>
      cases hx
      cases hplace
      exact hp
    · cases hx
  · exact fun hx => ⟨_, hx, rfl⟩

namespace Node

section
variable {n c : Node} {shape : KindShape} {name : String}

theorem statementsOf_parts {kinds : List Kind} (hb : shape.body = .block kinds) :
    statementsOf (n.parts shape) = n.body := by
  have hstatements : ∀ body : List Node,
      statementsOf (body.map fun c => (Place.statement, c)) = body := by
    intro body
    induction body with
    | nil => rfl
    | cons c body ih =>
      rw [List.map_cons, statementsOf_statement, ih]
  have hargs : ∀ specs : List ArgSpec, statementsOf (specs.filterMap n.argPart?) = [] := by
    intro specs
    refine List.eq_nil_iff_forall_not_mem.mpr fun c hc => ?_
    obtain ⟨spec, _, hpart⟩ := List.mem_filterMap.mp (mem_statementsOf.mp hc)
    obtain ⟨_, hplace, _⟩ := argPart?_eq_some_iff.mp hpart
    cases hplace
  rw [parts, hb, bodyParts]
  show List.filterMap _ (_ ++ _) = _
  rw [List.filterMap_append]
  show statementsOf _ ++ statementsOf _ = _
  rw [hstatements, hargs, List.append_nil]

theorem statement_mem_parts_iff :
    (.statement, c) ∈ n.parts shape ↔ shape.isBlock = true ∧ c ∈ n.body := by
  constructor
  · intro h
    rcases List.mem_append.mp h with h | h
    · rcases mem_bodyParts h with ⟨kinds, hb, _, hc⟩ | ⟨_, _, hplace, _⟩
      · exact ⟨KindShape.isBlock_iff.mpr ⟨kinds, hb⟩, hc⟩
      · cases hplace
    · obtain ⟨spec, _, hpart⟩ := List.mem_filterMap.mp h
      cases (argPart?_eq_some_iff.mp hpart).2.1
  · intro ⟨hb, hc⟩
    obtain ⟨kinds, hb⟩ := KindShape.isBlock_iff.mp hb
    rw [← mem_statementsOf, statementsOf_parts hb]
    exact hc

/-- the nodes in declared node arguments are parts, the primary one with the body -/
theorem arg_mem_parts_iff {corpus : Corpus} {kind : Kind} (hs : corpus.shape? kind = some shape)
    {primary : Bool} : (.arg name primary, c) ∈ n.parts shape ↔
      (∃ spec kinds, shape.arg? name = some spec ∧ spec.type = .node kinds) ∧
        n.arg? name = some (.nested c) ∧ (primary = true ↔ shape.body = .primary name) := by
  have hn := Corpus.args_nodup hs
  constructor
  · intro h
    rcases List.mem_append.mp h with h | h
    · rcases mem_bodyParts h with ⟨_, _, hplace, _⟩ | ⟨other, hb, hplace, hc⟩
      · cases hplace
      · cases hplace
        obtain ⟨spec, kinds, hspec, ht⟩ := Corpus.exists_primary hs hb
        exact ⟨⟨spec, kinds, hspec, ht⟩, nestedArg?_eq_some_iff.mp hc, fun _ => hb, fun _ => rfl⟩
    · obtain ⟨spec, hspec, hpart⟩ := List.mem_filterMap.mp h
      obtain ⟨ht, hplace, hc⟩ := argPart?_eq_some_iff.mp hpart
      cases hplace
      obtain ⟨kinds, hkinds⟩ := ArgType.isNode_iff.mp ht
      have harg : shape.arg? spec.name = some spec :=
        (KindShape.arg?_eq_some_iff hn).mpr ⟨List.mem_of_mem_filter hspec, rfl⟩
      refine ⟨⟨spec, kinds, harg, hkinds⟩, nestedArg?_eq_some_iff.mp hc, fun hp => (by cases hp),
        fun hb => ?_⟩
      exact absurd rfl (primary_ne_of_mem_ordinaryArgs hspec hb)
  · intro ⟨⟨spec, kinds, hspec, ht⟩, hc, hp⟩
    obtain ⟨hmem, hname⟩ := KindShape.mem_args_of_arg? hspec
    have hnested := nestedArg?_eq_some_iff.mpr hc
    by_cases hb : shape.body = .primary name
    · obtain rfl : primary = true := hp.mpr hb
      refine List.mem_append_left _ ?_
      rw [hb, bodyParts, hnested]
      exact List.mem_singleton_self _
    · obtain rfl : primary = false := by
        cases primary with
        | false => rfl
        | true => exact absurd (hp.mp rfl) hb
      have hord : spec ∈ shape.ordinaryArgs := by
        refine List.mem_filter.mpr ⟨hmem, ?_⟩
        rw [hname, bne_iff_ne]
        exact fun h => hb (KindShape.primary?_eq_some_iff.mp h)
      refine List.mem_append_right _ (List.mem_filterMap.mpr ⟨spec, hord, ?_⟩)
      rw [argPart?_eq_some_iff, hname]
      exact ⟨ArgType.isNode_iff.mpr ⟨kinds, ht⟩, rfl, hnested⟩

end

end Node

/-! ## the cell of a seat -/

theorem Draft.read_filled_iff {d : Draft} {ps : List (Place × Seat)} {slot : Slot}
    {v : Arg Address} (hn : (ps.flatMap (·.1.slots)).Nodup)
    (hfree : ∀ slot ∈ ps.flatMap (·.1.slots), d.Free slot) :
    (d.filled ps).read slot = some v ↔
      d.read slot = some v ∨ ∃ p ∈ ps, slot ∈ p.1.slots ∧ v = .nested p.2.address := by
  induction ps generalizing d with
  | nil =>
    refine ⟨.inl, fun h => h.resolve_right ?_⟩
    intro ⟨_, hp, _⟩
    cases hp
  | cons p ps ih =>
    rw [List.flatMap_cons] at hn hfree
    obtain ⟨_, hrest, hdisj⟩ := List.nodup_append.mp hn
    have hfree' : ∀ slot ∈ ps.flatMap (·.1.slots), (p.1.fill p.2.address d).Free slot := by
      intro slot hs
      have hne : slot ∉ p.1.slots := fun h => hdisj slot h slot hs rfl
      exact Draft.free_fill hne (hfree slot (List.mem_append_right _ hs))
    rw [Draft.filled_cons, ih hrest hfree', Draft.read_fill]
    by_cases hslot : slot ∈ p.1.slots
    · have hnone : d.read slot = none := hfree slot (List.mem_append_left _ hslot)
      rw [if_pos hslot, hnone]
      constructor
      · rintro (hv | ⟨q, hq, hv⟩)
        · exact .inr ⟨p, List.mem_cons_self, hslot, (Option.some.inj hv).symm⟩
        · exact .inr ⟨q, List.mem_cons_of_mem _ hq, hv⟩
      · rintro (hv | ⟨q, hq, hqs, hv⟩)
        · cases hv
        · rcases List.mem_cons.mp hq with rfl | hq
          · exact .inl (hv ▸ rfl)
          · exact .inr ⟨q, hq, hqs, hv⟩
    · rw [if_neg hslot]
      constructor
      · rintro (hv | ⟨q, hq, hv⟩)
        · exact .inl hv
        · exact .inr ⟨q, List.mem_cons_of_mem _ hq, hv⟩
      · rintro (hv | ⟨q, hq, hqs, hv⟩)
        · exact .inl hv
        · rcases List.mem_cons.mp hq with rfl | hq
          · exact absurd hqs hslot
          · exact .inr ⟨q, hq, hqs, hv⟩

namespace Seat

section
variable {corpus : Corpus} {linkage : ParentLinkage} {s : Seat} {shape : KindShape}
  (hs : corpus.shapeOf? s.node.kind = some shape)
include hs

theorem flatMap_slots_parts : (s.parts corpus linkage).flatMap (·.1.slots)
    = (s.node.parts shape).flatMap (·.1.slots) := by
  have hkept : s.node.keptParts corpus = s.node.parts shape := by
    rw [Node.keptParts, hs]
  rw [← hkept, ← map_parts corpus linkage s, List.flatMap_map]

/-- a slot of the draft is written before the parts, or with the address of a part -/
theorem read_draft_iff {slot : Slot} {v : Arg Address} :
    (s.draft corpus linkage).read slot = some v ↔
      Draft.read ⟨shape.kind, some s.parent, s.next,
        if shape.isBlock then some (nextStatement corpus (s.address + 1) (s.node.parts shape)) else none,
        s.node.scalarArgs shape⟩ slot = some v ∨
      ∃ p ∈ s.parts corpus linkage, slot ∈ p.1.slots ∧ v = .nested p.2.address := by
  have hn := Corpus.args_nodup (Corpus.shape?_of_shapeOf? hs)
  have hready := s.node.ready_parts hn s.parent []
  obtain ⟨d, hd, hfree, _⟩ := hready.draft
  obtain rfl : s.node.opened shape s.parent = d := Option.some.inj hd
  rw [draft_eq hs]
  refine Draft.read_filled_iff ?_ fun slot hslot => ?_
  · rw [flatMap_slots_parts hs]
    exact hready.nodup
  · rw [flatMap_slots_parts hs] at hslot
    rcases Node.slots_parts hslot with rfl | ⟨name, c, rfl, _⟩
    · have hleaf : shape.isBlock = false := by
        cases hb : shape.isBlock with
        | false => rfl
        | true => exact absurd hslot (hready.block hb)
      show Option.map _ (if _ then _ else _) = none
      rw [hleaf]
      rfl
    · exact hfree _ hslot

/-- the addresses among the arguments are those of the parts -/
theorem arg?_cell_nested_iff {name : String} {a : Address} :
    (s.cell corpus linkage).arg? name = some (.nested a) ↔
      ∃ p ∈ s.parts corpus linkage, (∃ primary, p.1 = .arg name primary) ∧ p.2.address = a := by
  have hn := Corpus.args_nodup (Corpus.shape?_of_shapeOf? hs)
  show (s.draft corpus linkage).read (.arg name) = _ ↔ _
  rw [read_draft_iff hs]
  constructor
  · rintro (hv | ⟨p, hp, hslot, hv⟩)
    · change (s.node.scalarArgs shape).find? name = _ at hv
      rw [Node.find?_scalarArgs hn, Option.map_eq_some_iff] at hv
      obtain ⟨_, _, hv⟩ := hv
      cases hv
    · cases hv
      exact ⟨p, hp, Place.arg_mem_slots_iff.mp hslot, rfl⟩
  · rintro ⟨p, hp, hplace, rfl⟩
    exact .inr ⟨p, hp, Place.arg_mem_slots_iff.mpr hplace, rfl⟩

/-- the scalars among the arguments are those that the declarations accept -/
theorem arg?_cell_scalar_iff {name : String} {v : Scalar} :
    (s.cell corpus linkage).arg? name = some (.scalar v) ↔ ∃ spec, shape.arg? name = some spec ∧
      s.node.arg? name = some (.scalar v) ∧ spec.type.accepts v = true := by
  have hshape := Corpus.shape?_of_shapeOf? hs
  have hn := Corpus.args_nodup hshape
  have hscalars : (s.node.scalarArgs shape).find? name = some (.scalar v) ↔
      (name, v) ∈ s.node.scalars shape := by
    rw [Node.find?_scalarArgs hn, ← Entries.find?_eq_some_iff (Node.scalars_nodup hn),
      Option.map_eq_some_iff]
    exact ⟨fun ⟨w, hw, heq⟩ => (by cases heq; exact hw), fun h => ⟨v, h, rfl⟩⟩
  show (s.draft corpus linkage).read (.arg name) = _ ↔ _
  rw [read_draft_iff hs]
  constructor
  · rintro (hv | ⟨_, _, _, hv⟩)
    · obtain ⟨spec, hspec, rfl, harg, hacc⟩ := Node.mem_scalars_iff.mp (hscalars.mp hv)
      have hmem := List.mem_of_mem_filter hspec
      exact ⟨spec, (KindShape.arg?_eq_some_iff hn).mpr ⟨hmem, rfl⟩, harg, hacc⟩
    · cases hv
  · intro ⟨spec, hspec, harg, hacc⟩
    obtain ⟨hmem, hname⟩ := KindShape.mem_args_of_arg? hspec
    refine .inl (hscalars.mpr (Node.mem_scalars_iff.mpr ⟨spec, List.mem_filter.mpr ⟨hmem, ?_⟩,
      hname.symm, hname ▸ harg, hacc⟩))
    -- the primary argument is a node argument, which accepts no scalar
    rw [bne_iff_ne]
    intro hp
    obtain ⟨spec', kinds, hspec', ht⟩ :=
      Corpus.exists_primary hshape (KindShape.primary?_eq_some_iff.mp hp)
    rw [hname, hspec] at hspec'
    cases hspec'
    rw [ht, ArgType.accepts_node] at hacc
    cases hacc

theorem arg?_cell_none {name : String} (hspec : shape.arg? name = none) :
    (s.cell corpus linkage).arg? name = none := by
  cases hv : (s.cell corpus linkage).arg? name with
  | none => rfl
  | some v =>
    cases v with
    | scalar v =>
      obtain ⟨spec, hspec', _⟩ := (arg?_cell_scalar_iff hs).mp hv
      rw [hspec] at hspec'
      cases hspec'
    | nested a =>
      obtain ⟨⟨_, t⟩, hp, ⟨primary, rfl⟩, _⟩ := (arg?_cell_nested_iff hs).mp hv
      obtain ⟨⟨spec, _, hspec', _⟩, _⟩ :=
        (Node.arg_mem_parts_iff (Corpus.shape?_of_shapeOf? hs)).mp (mem_parts hs hp)
      rw [hspec] at hspec'
      cases hspec'

theorem kind_cell : (s.cell corpus linkage).kind = shape.kind := by
  show (s.draft corpus linkage).kind = _
  rw [draft_eq hs, Draft.kind_filled]

theorem body_cell_block (hb : shape.isBlock = true) : (s.cell corpus linkage).body
    = nextStatement corpus (s.address + 1) (s.node.parts shape) := by
  have hbody : (s.draft corpus linkage).body
      = some (nextStatement corpus (s.address + 1) (s.node.parts shape)) := by
    rw [← Draft.read_body_iff, read_draft_iff hs]
    refine .inl ?_
    show Option.map _ (if _ then _ else _) = _
    rw [hb]
    rfl
  show Option.getD _ _ = _
  rw [hbody]
  rfl

/-- the body of a cell that has no statements repeats the primary argument -/
theorem body_draft_leaf (hb : shape.isBlock = false) {a : Address} :
    (s.draft corpus linkage).body = some a ↔
      ∃ name, shape.body = .primary name ∧ (s.cell corpus linkage).arg? name = some (.nested a) := by
  have hshape := Corpus.shape?_of_shapeOf? hs
  have hparts : ∀ p ∈ s.parts corpus linkage, ∀ name primary, p.1 = .arg name primary →
      (primary = true ↔ shape.body = .primary name) := by
    intro p hp name primary hplace
    have hmem := mem_parts hs hp
    rw [hplace] at hmem
    exact ((Node.arg_mem_parts_iff hshape).mp hmem).2.2
  rw [← Draft.read_body_iff, read_draft_iff hs]
  constructor
  · rintro (hv | ⟨p, hp, hslot, hv⟩)
    · change Option.map _ (if _ then _ else _) = _ at hv
      rw [hb] at hv
      cases hv
    · obtain ⟨name, hplace⟩ := Place.body_mem_slots_iff.mp hslot
      cases hv
      exact ⟨name, (hparts p hp name true hplace).mp rfl,
        (arg?_cell_nested_iff hs).mpr ⟨p, hp, ⟨true, hplace⟩, rfl⟩⟩
  · intro ⟨name, hprimary, harg⟩
    obtain ⟨p, hp, ⟨primary, hplace⟩, rfl⟩ := (arg?_cell_nested_iff hs).mp harg
    obtain rfl : primary = true := (hparts p hp name primary hplace).mpr hprimary
    exact .inr ⟨p, hp, Place.body_mem_slots_iff.mpr ⟨name, hplace⟩, rfl⟩

theorem body_cell_primary {name : String} (hp : shape.body = .primary name) :
    (s.cell corpus linkage).body
      = (((s.cell corpus linkage).arg? name).bind Arg.nested?).getD .nothing := by
  have hb := KindShape.isBlock_of_primary hp
  show Option.getD _ _ = _
  cases hbody : (s.draft corpus linkage).body with
  | some a =>
    obtain ⟨name', hp', harg⟩ := (body_draft_leaf hs hb).mp hbody
    obtain rfl := BodyRule.primary.inj (hp.symm.trans hp')
    rw [harg]
    rfl
  | none =>
    rcases harg : (s.cell corpus linkage).arg? name with _ | (v | a)
    · rfl
    · rfl
    · rw [(body_draft_leaf hs hb).mpr ⟨name, hp, harg⟩] at hbody
      cases hbody

theorem body_cell_none (hnone : shape.body = .none) : (s.cell corpus linkage).body = .nothing := by
  have hb := KindShape.isBlock_of_none hnone
  show Option.getD _ _ = _
  cases hbody : (s.draft corpus linkage).body with
  | some a =>
    obtain ⟨name, hp, _⟩ := (body_draft_leaf hs hb).mp hbody
    rw [hnone] at hp
    cases hp
  | none => rfl

end

section
variable {corpus : Corpus} {linkage : ParentLinkage}

theorem next_cell (s : Seat) : (s.cell corpus linkage).next = s.next.getD .nothing := by
  show (s.draft corpus linkage).next.getD _ = _
  rw [next_draft]

theorem parent_cell (s : Seat) : (s.cell corpus linkage).parent = s.parent := by
  show (s.draft corpus linkage).parent.getD _ = _
  rw [parent_draft]
  rfl

/-! ## the seats of a tree -/

variable (corpus linkage) in
/-- every seat but the first is the seat of a part of one seat -/
theorem below_perm (s : Seat) : (s.below corpus linkage).Perm
    (s :: (s.below corpus linkage).flatMap fun t => (t.parts corpus linkage).map Prod.snd) := by
  induction s using Seat.induction corpus linkage with
  | h s ih =>
    have hparts : ((s.parts corpus linkage).flatMap fun p => p.2.below corpus linkage).Perm
        ((s.parts corpus linkage).map Prod.snd ++ (s.parts corpus linkage).flatMap fun p =>
          (p.2.below corpus linkage).flatMap fun t => (t.parts corpus linkage).map Prod.snd) := by
      have hsplit := List.map_append_flatMap_perm (s.parts corpus linkage) Prod.snd
        fun p => (p.2.below corpus linkage).flatMap fun t => (t.parts corpus linkage).map Prod.snd
      exact (List.Perm.flatMap_left _ ih).trans hsplit.symm
    rw [below_eq, List.flatMap_cons, List.flatMap_assoc]
    exact hparts.cons s

theorem address_mem_below {s t : Seat} (ht : t ∈ s.below corpus linkage) :
    s.address ≤ t.address ∧ t.address < s.address + s.node.cellCount corpus := by
  have hmem : t.address ∈ (s.below corpus linkage).map (·.address) := List.mem_map_of_mem ht
  rw [map_address_below, List.mem_range'_1] at hmem
  exact hmem

variable (linkage) in
theorem exists_mem_below {s : Seat} {a : Address} (hlo : s.address ≤ a)
    (hhi : a < s.address + s.node.cellCount corpus) : ∃ t ∈ s.below corpus linkage, t.address = a := by
  have hmem : a ∈ List.range' s.address (s.node.cellCount corpus) := List.mem_range'_1.mpr ⟨hlo, hhi⟩
  rw [← map_address_below corpus linkage] at hmem
  exact List.mem_map.mp hmem

end

end Seat

/-! ## the heap of a tree -/

section
variable {corpus : Corpus} {linkage : ParentLinkage} {n : Node}

theorem Node.size_heap : (n.heap corpus linkage).size = n.cellCount corpus + 1 := by
  show (List.toArray (Cell.sentinel :: _)).size = _
  rw [List.size_toArray, List.length_cons, List.length_map, Seat.length_below]
  rfl

theorem Node.getElem?_heap_nothing : (n.heap corpus linkage).cells[0]? = some .sentinel := rfl

theorem Node.getElem?_heap {t : Seat} (ht : t ∈ (Seat.root n).below corpus linkage) :
    (n.heap corpus linkage).cells[t.address]? = some (t.cell corpus linkage) := by
  obtain ⟨i, hi, hget⟩ := List.getElem_of_mem ht
  have haddress : ((Seat.root n).below corpus linkage |>.map (·.address))[i]? = some t.address := by
    rw [List.getElem?_map, List.getElem?_eq_getElem hi, hget]
    rfl
  have hcount : i < n.cellCount corpus := by
    rwa [Seat.length_below] at hi
  rw [Seat.map_address_below] at haddress
  change (List.range' 1 (n.cellCount corpus))[i]? = _ at haddress
  rw [List.getElem?_range' hcount, Nat.one_mul, Nat.add_comm] at haddress
  rw [← Option.some.inj haddress]
  show (List.toArray (Cell.sentinel :: _))[i + 1]? = _
  rw [List.getElem?_toArray, List.getElem?_cons_succ, List.getElem?_map,
    List.getElem?_eq_getElem hi, hget]
  rfl

end

section
variable {corpus : Corpus} {linkage : ParentLinkage}

/-- the next links of statements that lie in a heap lead from each to the next one -/
theorem follows_seatParts {h : Heap} {owner free : Address} {last : Option Address}
    {ps : List (Place × Node)} (hfree : free ≠ .nothing)
    (hcells : ∀ p ∈ seatParts corpus linkage owner free last ps,
      h.cells[p.2.address]? = some (p.2.cell corpus linkage)) :
    h.Follows (nextStatement corpus free ps)
      ((statementsOf (seatParts corpus linkage owner free last ps)).map
        fun t => (t.address, t.cell corpus linkage)) := by
  induction ps generalizing free last with
  | nil => exact .nothing
  | cons p ps ih =>
    obtain ⟨place, c⟩ := p
    have hfree' : free + c.cellCount corpus ≠ Address.nothing := by
      have hpos : 0 < free := Nat.pos_of_ne_zero hfree
      exact Nat.ne_of_gt (Nat.add_pos_left hpos _)
    have hrest := ih hfree' fun p hp => hcells p (List.mem_cons_of_mem _ hp)
    cases place with
    | arg name primary => exact hrest
    | statement =>
      refine .cell hfree (hcells _ List.mem_cons_self) ?_
      rw [Seat.next_cell]
      exact hrest

/-- the statements of a seat of the tree are chained in its heap -/
theorem Node.follows_heap {n : Node} {s : Seat} {shape : KindShape}
    (hs : corpus.shapeOf? s.node.kind = some shape) (hb : shape.isBlock = true)
    (hbelow : s ∈ (Seat.root n).below corpus linkage) :
    (n.heap corpus linkage).Follows (s.cell corpus linkage).body
      ((statementsOf (s.parts corpus linkage)).map fun t => (t.address, t.cell corpus linkage)) := by
  rw [Seat.body_cell_block hs hb, Seat.parts_eq hs]
  refine follows_seatParts (Nat.succ_ne_zero _) fun p hp => ?_
  rw [← Seat.parts_eq hs] at hp
  exact Node.getElem?_heap (Seat.below_trans hbelow
    (Seat.mem_below_of_mem_parts hp (Seat.mem_below_self p.2)))

variable (linkage) in
theorem map_node_statementsOf {s : Seat} {shape : KindShape} {kinds : List Kind}
    (hs : corpus.shapeOf? s.node.kind = some shape) (hb : shape.body = .block kinds) :
    (statementsOf (s.parts corpus linkage)).map (·.node) = s.node.body := by
  have hmap : ∀ ps : List (Place × Seat),
      (statementsOf ps).map (·.node) = statementsOf (ps.map fun p => (p.1, p.2.node)) := by
    intro ps
    induction ps with
    | nil => rfl
    | cons p ps ih =>
      obtain ⟨place, t⟩ := p
      cases place with
      | statement =>
        rw [statementsOf_statement, List.map_cons, List.map_cons, statementsOf_statement, ih]
      | arg name primary =>
        rw [statementsOf_arg, List.map_cons, statementsOf_arg, ih]
  rw [hmap, Seat.map_parts, Node.keptParts, hs]
  exact Node.statementsOf_parts hb

end

end ScriptHeap
