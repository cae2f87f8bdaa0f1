import ScriptHeap.Proofs.CellCheck
import ScriptHeap.Proofs.Layout
import ScriptHeap.Proofs.TreeCheck
/-!
# The links in the heap of a tree

* `Node.Known`         every node that gets a cell is of a registered kind;
* `Seat.exists_child`, `Node.child_heap`   the children of a cell are the seats of its parts;
* `Node.heap_rooted`, `Node.heap_linked`   the links are those of one tree;
* `Node.cellLinked_heap`   every cell has the links and the arguments that its shape allows.

Nothing is assumed of the tree but that its kinds are registered: arguments may be missing,
undeclared or of any type, and any node may hold statements.
-/

namespace ScriptHeap

/-- every node that gets a cell is of a registered kind -/
def Node.Known (corpus : Corpus) (linkage : ParentLinkage) (n : Node) : Prop :=
  ∀ t ∈ (Seat.root n).below corpus linkage, ∃ shape, corpus.shapeOf? t.node.kind = some shape

section
variable {corpus : Corpus} {linkage : ParentLinkage}

theorem Seat.known_of_flattenFault? {limit levels : Nat} {s : Seat}
    (hf : s.node.flattenFault? corpus limit levels = none) :
    ∀ t ∈ s.below corpus linkage, ∃ shape, corpus.shapeOf? t.node.kind = some shape := by
  induction levels generalizing s with
  | zero => cases hf
  | succ levels ih =>
    rw [Node.flattenFault?] at hf
    cases hs : corpus.shapeOf? s.node.kind with
    | none =>
      rw [hs] at hf
      cases hf
    | some shape =>
      rw [hs] at hf
      change (s.node.parts shape).findSome? _ = none at hf
      rw [List.findSome?_eq_none_iff] at hf
      intro t ht
      rw [Seat.below_eq] at ht
      rcases List.mem_cons.mp ht with rfl | ht
      · exact ⟨shape, hs⟩
      · obtain ⟨p, hp, ht⟩ := List.mem_flatMap.mp ht
        exact ih (hf _ (Seat.mem_parts hs hp)) t ht

theorem Node.known_of_flatten {policy : Policy} {n : Node} {r : Heap × Address}
    (hf : n.flatten corpus policy = .ok r) : n.Known corpus linkage :=
  Seat.known_of_flattenFault? (s := Seat.root n) (Node.flatten_eq_ok.mp hf).1

/-! ## links between seats -/

namespace Seat

/-- the parent of a part lies before it -/
theorem parent_lt_seatParts {owner free : Address} {last : Option Address}
    {ps : List (Place × Node)} (howner : owner < free) (hlast : ∀ x, last = some x → x < free) :
    ∀ p ∈ seatParts corpus linkage owner free last ps, p.2.parent < p.2.address := by
  induction ps generalizing free last with
  | nil => exact fun p hp => absurd hp List.not_mem_nil
  | cons p ps ih =>
    obtain ⟨place, c⟩ := p
    have hcount := c.cellCount_pos corpus
    have hparent : (OpenCell.mk owner last).parentOf linkage place < free := by
      cases last with
      | none => cases linkage <;> cases place <;> exact howner
      | some x =>
        have hx : x < free := hlast x rfl
        cases linkage <;> cases place <;> first | exact howner | exact hx
    have hlast' : ∀ x, place.last free last = some x → x < free + c.cellCount corpus := by
      intro x hx
      cases place with
      | statement =>
        obtain rfl := Option.some.inj hx
        exact Nat.lt_add_of_pos_right hcount
      | arg name primary => exact Nat.lt_of_lt_of_le (hlast x hx) (Nat.le_add_right _ _)
    refine List.forall_mem_cons.mpr ⟨hparent, ih ?_ hlast'⟩
    exact Nat.lt_of_lt_of_le howner (Nat.le_add_right _ _)

theorem next_seatParts {owner free : Address} {last : Option Address} {ps : List (Place × Node)} :
    ∀ p ∈ seatParts corpus linkage owner free last ps, p.1 ≠ .statement → p.2.next = none := by
  induction ps generalizing free last with
  | nil => exact fun p hp => absurd hp List.not_mem_nil
  | cons p ps ih =>
    obtain ⟨place, c⟩ := p
    refine List.forall_mem_cons.mpr ⟨fun hne => ?_, ih⟩
    cases place with
    | statement => exact absurd rfl hne
    | arg name primary => rfl

/-- a seat is the first one, or that of a part of another -/
theorem eq_or_mem_parts {s t : Seat} (ht : t ∈ s.below corpus linkage) :
    t = s ∨ ∃ u ∈ s.below corpus linkage, ∃ place, (place, t) ∈ u.parts corpus linkage := by
  rcases List.mem_cons.mp ((below_perm corpus linkage s).mem_iff.mp ht) with heq | hmem
  · exact .inl heq
  · obtain ⟨u, hu, hmem⟩ := List.mem_flatMap.mp hmem
    obtain ⟨⟨place, t⟩, hp, rfl⟩ := List.mem_map.mp hmem
    exact .inr ⟨u, hu, place, hp⟩

/-- a seat is that of one part of one seat only -/
theorem parts_unique {s t u : Seat} (ht : t ∈ s.below corpus linkage)
    (hu : u ∈ s.below corpus linkage) {p q : Place × Seat} (hp : p ∈ t.parts corpus linkage)
    (hq : q ∈ u.parts corpus linkage) (h : p.2.address = q.2.address) : t = u ∧ p = q := by
  let links := (s.below corpus linkage).flatMap fun t =>
    (t.parts corpus linkage).map fun p => (t, p)
  have hmap : links.map (fun e => e.2.2.address)
      = ((s.below corpus linkage).flatMap fun t => (t.parts corpus linkage).map Prod.snd).map
        (·.address) := by
    rw [List.map_flatMap, List.map_flatMap]
    refine List.flatMap_congr fun t _ => ?_
    rw [List.map_map, List.map_map]
    rfl
  have hall := (below_perm corpus linkage s).map (·.address)
  have hnodup : (links.map fun e => e.2.2.address).Nodup := by
    rw [hmap]
    rw [map_address_below, List.map_cons] at hall
    exact (List.nodup_cons.mp (hall.nodup_iff.mp List.nodup_range')).2
  have hmem : ∀ {t : Seat} {p : Place × Seat}, t ∈ s.below corpus linkage →
      p ∈ t.parts corpus linkage → (t, p) ∈ links := fun ht hp =>
    List.mem_flatMap.mpr ⟨_, ht, List.mem_map_of_mem hp⟩
  exact Prod.mk.inj (List.inj_on_of_nodup_map hnodup (hmem ht hp) (hmem hu hq) h)

end Seat

/-! ## children in the heap -/

variable {n : Node}

theorem Node.address_heap {s : Seat} (hs : s ∈ (Seat.root n).below corpus linkage) :
    s.address ≠ 0 ∧ s.address < (n.heap corpus linkage).size := by
  have hroot : (Seat.root n).address = 1 := rfl
  have hnode : (Seat.root n).node = n := rfl
  have hrange := Seat.address_mem_below hs
  rw [hroot, hnode, Nat.add_comm 1] at hrange
  rw [Node.size_heap]
  exact ⟨Nat.one_le_iff_ne_zero.mp hrange.1, hrange.2⟩

theorem Node.exists_seat {a : Address} {c : Cell} (ha : a ≠ 0)
    (hc : (n.heap corpus linkage).cells[a]? = some c) :
    ∃ s ∈ (Seat.root n).below corpus linkage, s.address = a ∧ c = s.cell corpus linkage := by
  have hroot : (Seat.root n).address = 1 := rfl
  have hlt := Heap.lt_size_of_getElem? hc
  rw [Node.size_heap] at hlt
  obtain ⟨s, hs, rfl⟩ := Seat.exists_mem_below linkage (s := Seat.root n) (a := a)
    (Nat.one_le_iff_ne_zero.mpr ha) (by
      rw [hroot, Nat.add_comm]
      exact hlt)
  exact ⟨s, hs, rfl, Option.some.inj (hc.symm.trans (Node.getElem?_heap hs))⟩

theorem Seat.part_mem_below {s : Seat} (hs : s ∈ (Seat.root n).below corpus linkage)
    {p : Place × Seat} (hp : p ∈ s.parts corpus linkage) :
    p.2 ∈ (Seat.root n).below corpus linkage :=
  Seat.below_trans hs (Seat.mem_below_of_mem_parts hp (Seat.mem_below_self p.2))

theorem Seat.exists_child (hk : n.Known corpus linkage) {s : Seat}
    (hs : s ∈ (Seat.root n).below corpus linkage) {p : Place × Seat}
    (hp : p ∈ s.parts corpus linkage) : ∃ spot,
      (n.heap corpus linkage).Child corpus s.address spot p.2.address ∧
        (p.1 = .statement → ∃ i, spot = .statement i) := by
  obtain ⟨shape, hshape⟩ := hk s hs
  obtain ⟨place, t⟩ := p
  have hget := Node.getElem?_heap hs
  cases place with
  | statement =>
    have hblock := (Node.statement_mem_parts_iff.mp (Seat.mem_parts hshape hp)).1
    have hfollows := Node.follows_heap hshape hblock hs
    obtain ⟨i, hi⟩ := List.mem_iff_getElem?.mp (mem_statementsOf.mpr hp)
    refine ⟨.statement i, ?_, fun _ => ⟨i, rfl⟩⟩
    have hcell : corpus.shape? (s.cell corpus linkage).kind = some shape := by
      rw [Seat.kind_cell hshape]
      exact Corpus.shape?_of_shapeOf? hshape
    refine .statement (d := t.cell corpus linkage) hget hcell hblock hfollows ?_
    rw [List.getElem?_map, hi]
    rfl
  | arg name primary =>
    have harg := (Seat.arg?_cell_nested_iff hshape).mpr ⟨_, hp, ⟨primary, rfl⟩, rfl⟩
    exact ⟨.arg name, .arg hget harg, nofun⟩

/-- what lies at a spot is the seat of a part at the place of the spot -/
theorem Node.child_heap (hk : n.Known corpus linkage) {a b : Address} {spot : Spot}
    (hb : (n.heap corpus linkage).Child corpus a spot b) :
    ∃ s ∈ (Seat.root n).below corpus linkage, s.address = a ∧
      ∃ p ∈ s.parts corpus linkage, p.2.address = b ∧
        ((∃ i, spot = .statement i ∧ p.1 = .statement) ∨
          ∃ name primary, spot = .arg name ∧ p.1 = .arg name primary) := by
  have ha : a ≠ 0 := hb.ne_nothing Node.getElem?_heap_nothing
  obtain ⟨c, hc⟩ := Heap.exists_getElem? hb.lt_size
  obtain ⟨s, hs, rfl, _⟩ := Node.exists_seat ha hc
  refine ⟨s, hs, rfl, ?_⟩
  obtain ⟨shape, hshape⟩ := hk s hs
  have hget := Node.getElem?_heap hs
  cases hb with
  | @statement c d shape' l i _ hc hs' hblock hl hi =>
    obtain rfl := Option.some.inj (hget.symm.trans hc)
    rw [Seat.kind_cell hshape, Corpus.shape?_of_shapeOf? hshape] at hs'
    obtain rfl := Option.some.inj hs'
    obtain rfl := hl.unique (Node.follows_heap hshape hblock hs)
    rw [List.getElem?_map, Option.map_eq_some_iff] at hi
    obtain ⟨t, ht, heq⟩ := hi
    cases heq
    exact ⟨_, mem_statementsOf.mp (List.mem_of_getElem? ht), rfl, .inl ⟨i, rfl, rfl⟩⟩
  | @arg c name _ hc harg =>
    obtain rfl := Option.some.inj (hget.symm.trans hc)
    obtain ⟨p, hp, ⟨primary, hplace⟩, rfl⟩ := (Seat.arg?_cell_nested_iff hshape).mp harg
    exact ⟨p, hp, rfl, .inr ⟨name, primary, rfl, hplace⟩⟩

/-! ## one tree -/

theorem Seat.reaches (hk : n.Known corpus linkage) (s : Seat)
    (hs : s ∈ (Seat.root n).below corpus linkage) :
    ∀ t ∈ s.below corpus linkage, (n.heap corpus linkage).Reaches corpus s.address t.address := by
  induction s using Seat.induction corpus linkage with
  | h s ih =>
    intro t ht
    rw [Seat.below_eq] at ht
    rcases List.mem_cons.mp ht with rfl | ht
    · exact .self
    · obtain ⟨p, hp, ht⟩ := List.mem_flatMap.mp ht
      obtain ⟨spot, hchild, _⟩ := Seat.exists_child hk hs hp
      exact (Heap.Reaches.child .self hchild).trans (ih p hp (Seat.part_mem_below hs hp) t ht)

/-- the cells of a tree form one tree -/
theorem Node.heap_rooted (hk : n.Known corpus linkage) : (n.heap corpus linkage).Rooted corpus := by
  refine ⟨fun a spot hb => ?_, fun {a a' b spot spot'} hb hb' => ?_, fun b hb hlt => ?_⟩
  · obtain ⟨s, hs, rfl, p, hp, hroot, _⟩ := Node.child_heap hk hb
    have hlt := Seat.lt_address_of_mem_parts hp
    rw [hroot] at hlt
    exact (Node.address_heap hs).1 (Nat.lt_one_iff.mp hlt)
  · obtain ⟨s, hs, rfl, p, hp, rfl, hspot⟩ := Node.child_heap hk hb
    obtain ⟨s', hs', rfl, p', hp', heq, hspot'⟩ := Node.child_heap hk hb'
    obtain ⟨rfl, rfl⟩ := Seat.parts_unique hs hs' hp hp' heq.symm
    refine ⟨rfl, ?_⟩
    rcases hspot with ⟨i, rfl, hplace⟩ | ⟨name, primary, rfl, hplace⟩
    · rcases hspot' with ⟨j, rfl, _⟩ | ⟨_, _, _, hplace'⟩
      · cases hb with
        | statement hc _ _ hl hi =>
          cases hb' with
          | statement hc' _ _ hl' hj =>
            obtain rfl := Option.some.inj (hc.symm.trans hc')
            obtain rfl := hl.unique hl'
            rw [hl.index_unique hi hj]
      · rw [hplace] at hplace'
        cases hplace'
    · rcases hspot' with ⟨_, _, hplace'⟩ | ⟨_, _, rfl, hplace'⟩
      · rw [hplace] at hplace'
        cases hplace'
      · rw [hplace] at hplace'
        cases hplace'
        rfl
  · obtain ⟨c, hc⟩ := Heap.exists_getElem? hlt
    obtain ⟨s, hs, rfl, _⟩ := Node.exists_seat hb hc
    exact Seat.reaches hk (Seat.root n) (Seat.mem_below_self _) s hs

/-- the links in the heap of a tree are those of one tree, and only statements are chained -/
theorem Node.heap_linked (hk : n.Known corpus linkage) :
    (n.heap corpus linkage).Linked corpus where
  sentinel := Node.getElem?_heap_nothing
  inside hb := by
    obtain ⟨s, hs, rfl, p, hp, rfl, _⟩ := Node.child_heap hk hb
    exact Node.address_heap (Seat.part_mem_below hs hp)
  ends a c ha hc shape hs hb := by
    obtain ⟨s, hmem, rfl, rfl⟩ := Node.exists_seat ha hc
    obtain ⟨shape', hshape⟩ := hk s hmem
    rw [Seat.kind_cell hshape, Corpus.shape?_of_shapeOf? hshape] at hs
    obtain rfl := Option.some.inj hs
    exact ⟨_, Node.follows_heap hshape hb hmem⟩
  next a c hc hfree := by
    by_cases ha : a = 0
    · subst ha
      obtain rfl := Option.some.inj (Node.getElem?_heap_nothing.symm.trans hc)
      rfl
    · obtain ⟨s, hs, rfl, rfl⟩ := Node.exists_seat ha hc
      rw [Seat.next_cell]
      rcases Seat.eq_or_mem_parts hs with rfl | ⟨u, hu, place, hp⟩
      · rfl
      · have hplace : place ≠ .statement := by
          rintro rfl
          obtain ⟨spot, hchild, hspot⟩ := Seat.exists_child hk hu hp
          obtain ⟨i, rfl⟩ := hspot rfl
          exact hfree _ i hchild
        rw [Seat.next_seatParts _ hp hplace]
        rfl
  rooted _ := Node.heap_rooted hk

/-! ## the cells -/

/-- the next link of a cell stays within the heap, since only statements are chained -/
theorem Node.next_lt_size (hk : n.Known corpus linkage) {s : Seat}
    (hs : s ∈ (Seat.root n).below corpus linkage) :
    (s.cell corpus linkage).next < (n.heap corpus linkage).size := by
  have hpos : 0 < (n.heap corpus linkage).size := by
    rw [Node.size_heap]
    exact Nat.succ_pos _
  by_cases hfree : ∀ a' i, ¬ (n.heap corpus linkage).Child corpus a' (.statement i) s.address
  · rw [(Node.heap_linked hk).next s.address _ (Node.getElem?_heap hs) hfree]
    exact hpos
  · simp only [not_forall, not_not] at hfree
    obtain ⟨a', i, hchild⟩ := hfree
    cases hchild with
    | @statement c d shape l _ _ hc hshape hb hl hi =>
      have hd := (hl.mem (List.mem_of_getElem? hi)).2
      obtain rfl := Option.some.inj ((Node.getElem?_heap hs).symm.trans hd)
      rw [hl.next_getElem? hi]
      cases hnext : l[i + 1]? with
      | none => exact hpos
      | some e => exact Heap.lt_size_of_getElem? (hl.mem (List.mem_of_getElem? hnext)).2

theorem Seat.parent_lt_address {s : Seat} (hs : s ∈ (Seat.root n).below corpus linkage) :
    s.parent < s.address := by
  rcases Seat.eq_or_mem_parts hs with rfl | ⟨u, _, place, hp⟩
  · exact Nat.one_pos
  · exact Seat.parent_lt_seatParts (Nat.lt_succ_self _) (fun x hx => (by cases hx)) _ hp

theorem Node.parent_lt_size {s : Seat} (hs : s ∈ (Seat.root n).below corpus linkage) :
    (s.cell corpus linkage).parent < (n.heap corpus linkage).size := by
  rw [Seat.parent_cell]
  exact Nat.lt_trans (Seat.parent_lt_address hs) (Node.address_heap hs).2

theorem Node.body_lt_size {s : Seat} (hs : s ∈ (Seat.root n).below corpus linkage)
    {shape : KindShape} (hshape : corpus.shapeOf? s.node.kind = some shape) :
    (s.cell corpus linkage).body < (n.heap corpus linkage).size := by
  have hpos : 0 < (n.heap corpus linkage).size := by
    rw [Node.size_heap]
    exact Nat.succ_pos _
  cases hb : shape.isBlock with
  | true =>
    have hl := Node.follows_heap hshape hb hs
    rw [hl.head]
    cases hfirst : ((statementsOf (s.parts corpus linkage)).map
      fun t => (t.address, t.cell corpus linkage))[0]? with
    | none => exact hpos
    | some e => exact Heap.lt_size_of_getElem? (hl.mem (List.mem_of_getElem? hfirst)).2
  | false =>
    show Option.getD _ _ < _
    cases hbody : (s.draft corpus linkage).body with
    | none => exact hpos
    | some a =>
      obtain ⟨name, _, harg⟩ := (Seat.body_draft_leaf hshape hb).mp hbody
      obtain ⟨p, hp, _, rfl⟩ := (Seat.arg?_cell_nested_iff hshape).mp harg
      exact (Node.address_heap (Seat.part_mem_below hs hp)).2

/-- every cell has the links and the arguments that its shape allows -/
theorem Node.cellLinked_heap (hk : n.Known corpus linkage) {s : Seat}
    (hs : s ∈ (Seat.root n).below corpus linkage) {shape : KindShape}
    (hshape : corpus.shapeOf? s.node.kind = some shape) :
    (n.heap corpus linkage).CellLinked shape (s.cell corpus linkage) where
  parent := Node.parent_lt_size hs
  next := Node.next_lt_size hk hs
  body := Node.body_lt_size hs hshape
  declared _ hname := Seat.arg?_cell_none hshape hname
  args spec hspec v hv := by
    have hn := Corpus.args_nodup (Corpus.shape?_of_shapeOf? hshape)
    have hdeclared : shape.arg? spec.name = some spec :=
      (KindShape.arg?_eq_some_iff hn).mpr ⟨hspec, rfl⟩
    cases v with
    | scalar v =>
      obtain ⟨spec', hspec', _, hacc⟩ := (Seat.arg?_cell_scalar_iff hshape).mp hv
      obtain rfl := Option.some.inj (hdeclared.symm.trans hspec')
      exact hacc
    | nested b =>
      obtain ⟨⟨_, t⟩, hp, ⟨primary, rfl⟩, rfl⟩ := (Seat.arg?_cell_nested_iff hshape).mp hv
      obtain ⟨⟨spec', kinds, hspec', ht⟩, _⟩ :=
        (Node.arg_mem_parts_iff (Corpus.shape?_of_shapeOf? hshape)).mp (Seat.mem_parts hshape hp)
      obtain rfl := Option.some.inj (hdeclared.symm.trans hspec')
      exact ⟨ArgType.isNode_iff.mpr ⟨kinds, ht⟩, Node.address_heap (Seat.part_mem_below hs hp)⟩
  primary _ hp := Seat.body_cell_primary hshape hp
  leaf hnone := Seat.body_cell_none hshape hnone

end

end ScriptHeap
