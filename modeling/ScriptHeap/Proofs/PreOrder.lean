import ScriptHeap.Proofs.DepthLimit
/-!
# The order of the cells

* `Node.listed`, `Node.preOrder`   the nodes of a tree that get cells, each before the nodes below it,
                       told from the tree and the shapes alone;
* `Seat.map_node_below`   the seats are those of the listed nodes;
* `Seat.prefix_below`  the seats below a seat follow it without a gap;
* `Node.reaches_heap_iff`   the cells below a cell are those of one range of addresses;
* `Heap.ListedCell`, `Heap.InPreOrder`   what a cell has to do with the listed node at its place;
* `Node.flatten_pre_order`   the heap of a tree is its listing, and gives back each listed subtree.
-/

namespace ScriptHeap

/-! ## the listing -/

namespace Node

/-- the nodes below a node that get cells: the statements of a block, the primary argument, and the
other declared node arguments as they are declared -/
def listed (corpus : Corpus) (n : Node) : List Node :=
  match corpus.shapeOf? n.kind with
  | none => []
  | some shape =>
    (if shape.isBlock then n.body else []) ++ (shape.primary?.bind n.nestedArg?).toList ++
      (shape.args.filter fun spec => spec.type.isNode && shape.primary? != some spec.name).filterMap
        fun spec => n.nestedArg? spec.name

theorem map_snd_argParts (n : Node) (other : ArgSpec → Bool) (specs : List ArgSpec) :
    ((specs.filter other).filterMap n.argPart?).map Prod.snd =
      (specs.filter fun spec => spec.type.isNode && other spec).filterMap
        fun spec => n.nestedArg? spec.name := by
  induction specs with
  | nil => rfl
  | cons spec specs ih =>
    cases ht : spec.type.isNode with
    | false =>
      have hpart : n.argPart? spec = none := by simp [argPart?, ht]
      cases ho : other spec <;> simp [ht, ho, hpart, ih]
    | true =>
      have hpart : n.argPart? spec = (n.nestedArg? spec.name).map fun c => (.arg spec.name false, c) :=
        if_pos ht
      cases ho : other spec <;> cases hc : n.nestedArg? spec.name <;> simp [ht, ho, hc, hpart, ih]

/-- the listed nodes are the parts -/
theorem listed_eq (corpus : Corpus) (n : Node) :
    n.listed corpus = (n.keptParts corpus).map Prod.snd := by
  unfold listed keptParts
  cases corpus.shapeOf? n.kind with
  | none => rfl
  | some shape =>
    have hbody : (n.bodyParts shape.body).map Prod.snd =
        (if shape.isBlock then n.body else []) ++ (shape.primary?.bind n.nestedArg?).toList := by
      cases hb : shape.body with
      | block kinds =>
        simp [bodyParts, KindShape.isBlock, KindShape.blockKinds?, KindShape.primary?, hb,
          Function.comp_def]
      | primary name =>
        cases hc : n.nestedArg? name <;>
          simp [bodyParts, KindShape.isBlock, KindShape.blockKinds?, KindShape.primary?, hb, hc]
      | none => simp [bodyParts, KindShape.isBlock, KindShape.blockKinds?, KindShape.primary?, hb]
    show _ = (n.parts shape).map Prod.snd
    rw [parts, List.map_append, hbody, KindShape.ordinaryArgs, map_snd_argParts]

theorem sizeOf_lt_of_mem_listed {corpus : Corpus} {n c : Node} (h : c ∈ n.listed corpus) :
    sizeOf c < sizeOf n := by
  rw [listed_eq] at h
  obtain ⟨p, hp, rfl⟩ := List.mem_map.mp h
  exact sizeOf_lt_of_mem_keptParts hp

/-- a node and all nodes below it that get cells, each before those below it -/
def preOrder (corpus : Corpus) (n : Node) : List Node :=
  n :: (n.listed corpus).attach.flatMap fun c => preOrder corpus c.1
termination_by sizeOf n
decreasing_by exact sizeOf_lt_of_mem_listed c.2

theorem preOrder_eq (corpus : Corpus) (n : Node) :
    n.preOrder corpus = n :: (n.listed corpus).flatMap (preOrder corpus) := by
  rw [preOrder, List.flatMap_def, List.flatMap_def, List.attach_map_val]

/-- where subtrees begin that are listed one behind the other -/
def starts (corpus : Corpus) : Address → List Node → List Address
  | _, [] => []
  | a, c :: rest => a :: starts corpus (a + (c.preOrder corpus).length) rest

end Node

/-! ## the seats of the listed nodes -/

namespace Seat

section
variable {corpus : Corpus} {linkage : ParentLinkage} {s t u : Seat}

variable (corpus linkage) in
theorem map_node_below (s : Seat) :
    (s.below corpus linkage).map (·.node) = s.node.preOrder corpus := by
  induction s using Seat.induction corpus linkage with
  | h s ih =>
    rw [below_eq, List.map_cons, List.map_flatMap, List.flatMap_congr fun p hp => ih p hp,
      Node.preOrder_eq, Node.listed_eq, ← map_parts corpus linkage s, List.map_map, List.flatMap_map]
    rfl

theorem length_preOrder (n : Node) : (n.preOrder corpus).length = n.cellCount corpus := by
  have hmap := congrArg List.length (map_node_below corpus .structural (Seat.root n))
  rw [List.length_map, length_below] at hmap
  exact hmap.symm

theorem address_of_getElem? {i : Nat} (ht : (s.below corpus linkage)[i]? = some t) :
    t.address = s.address + i := by
  have hlen : i < s.node.cellCount corpus := by
    have hi := (List.getElem?_eq_some_iff.mp ht).1
    rwa [length_below] at hi
  have haddress := congrArg (·[i]?) (map_address_below corpus linkage s)
  simp only [List.getElem?_map, ht, List.getElem?_range' hlen, Nat.one_mul] at haddress
  exact Option.some.inj haddress

theorem getElem?_of_mem_below (ht : t ∈ s.below corpus linkage) :
    (s.below corpus linkage)[t.address - s.address]? = some t := by
  obtain ⟨i, hi⟩ := List.mem_iff_getElem?.mp ht
  rwa [address_of_getElem? hi, Nat.add_sub_cancel_left]

theorem eq_of_address (ht : t ∈ s.below corpus linkage) (hu : u ∈ s.below corpus linkage)
    (h : t.address = u.address) : t = u := by
  have hget := getElem?_of_mem_below ht
  rw [h, getElem?_of_mem_below hu] at hget
  exact (Option.some.inj hget).symm

theorem below_split (ht : t ∈ s.below corpus linkage) : ∃ before after,
    s.below corpus linkage = before ++ t.below corpus linkage ++ after := by
  induction s using Seat.induction corpus linkage with
  | h s ih =>
    rw [below_eq] at ht
    rcases List.mem_cons.mp ht with rfl | ht
    · exact ⟨[], [], (List.append_nil _).symm⟩
    · obtain ⟨p, hp, ht⟩ := List.mem_flatMap.mp ht
      obtain ⟨before, after, hsplit⟩ := ih p hp ht
      obtain ⟨left, right, hparts⟩ := List.append_of_mem hp
      refine ⟨s :: (left.flatMap fun q => q.2.below corpus linkage) ++ before,
        after ++ right.flatMap fun q => q.2.below corpus linkage, ?_⟩
      rw [below_eq, hparts, List.flatMap_append, List.flatMap_cons, hsplit]
      simp only [List.cons_append, List.append_assoc]

/-- the seats below a seat follow it without a gap -/
theorem prefix_below (ht : t ∈ s.below corpus linkage) :
    t.below corpus linkage <+: (s.below corpus linkage).drop (t.address - s.address) := by
  obtain ⟨before, after, hsplit⟩ := below_split ht
  have hget : (s.below corpus linkage)[before.length]? = some t := by
    rw [hsplit, below_eq corpus linkage t]
    simp
  have hlen : t.address - s.address = before.length := by
    rw [address_of_getElem? hget, Nat.add_sub_cancel_left]
  rw [hsplit, hlen, List.append_assoc, List.drop_left]
  exact List.prefix_append _ _

theorem prefix_preOrder {n : Node} (ht : t ∈ (Seat.root n).below corpus linkage) :
    t.node.preOrder corpus <+: (n.preOrder corpus).drop (t.address - 1) := by
  have hmap := (prefix_below ht).map (·.node)
  rwa [List.map_drop, map_node_below, map_node_below] at hmap

/-! ## links to later cells -/

theorem le_nextStatement {free : Address} {ps : List (Place × Node)}
    (h : nextStatement corpus free ps ≠ .nothing) : free ≤ nextStatement corpus free ps := by
  induction ps generalizing free with
  | nil => exact absurd rfl h
  | cons p ps ih =>
    obtain ⟨place, c⟩ := p
    cases place with
    | statement => exact Nat.le_refl free
    | arg name primary => exact Nat.le_trans (Nat.le_add_right _ _) (ih h)

/-- the next link of a part leads behind the part and all below it -/
theorem lt_next_seatParts {owner free : Address} {last : Option Address}
    {ps : List (Place × Node)} : ∀ p ∈ seatParts corpus linkage owner free last ps,
      p.2.next.getD .nothing ≠ .nothing → p.2.address < p.2.next.getD .nothing := by
  induction ps generalizing free last with
  | nil => exact fun p hp => absurd hp List.not_mem_nil
  | cons p ps ih =>
    obtain ⟨place, c⟩ := p
    refine List.forall_mem_cons.mpr ⟨fun hne => ?_, ih⟩
    cases place with
    | arg name primary => exact absurd rfl hne
    | statement =>
      have hpos := c.cellCount_pos corpus
      exact Nat.lt_of_lt_of_le (Nat.lt_add_of_pos_right hpos) (le_nextStatement hne)

/-- the statements of a block begin one behind the other -/
theorem map_address_statements {owner free : Address} {last : Option Address}
    {rest : List (Place × Node)} (hrest : statementsOf rest = []) (body : List Node) :
    (statementsOf (seatParts corpus linkage owner free last
      (body.map (fun c => (Place.statement, c)) ++ rest))).map (·.address) =
        Node.starts corpus free body := by
  induction body generalizing free last with
  | nil =>
    have hnone : statementsOf (seatParts corpus linkage owner free last rest) = [] := by
      refine List.eq_nil_iff_forall_not_mem.mpr fun t ht => ?_
      have hmem := List.mem_map_of_mem (f := fun p => (p.1, p.2.node)) (mem_statementsOf.mp ht)
      rw [seatParts_node, ← mem_statementsOf, hrest] at hmem
      cases hmem
    show (statementsOf (seatParts corpus linkage owner free last rest)).map _ = []
    rw [hnone, List.map_nil]
  | cons c body ih =>
    rw [List.map_cons, List.cons_append, seatParts, statementsOf_statement, List.map_cons, ih,
      Node.starts, length_preOrder]

end

end Seat

section
variable {corpus : Corpus} {linkage : ParentLinkage} {n : Node} {s : Seat} {shape : KindShape}

theorem Seat.lt_body (hshape : corpus.shapeOf? s.node.kind = some shape)
    (hne : (s.cell corpus linkage).body ≠ .nothing) : s.address < (s.cell corpus linkage).body := by
  cases hb : shape.isBlock with
  | true =>
    rw [Seat.body_cell_block hshape hb] at hne ⊢
    exact Seat.le_nextStatement hne
  | false =>
    obtain ⟨a, ha⟩ : ∃ a, (s.draft corpus linkage).body = some a := by
      cases hbody : (s.draft corpus linkage).body with
      | some a => exact ⟨a, rfl⟩
      | none => exact absurd (show Option.getD _ _ = _ by rw [hbody]; rfl) hne
    obtain ⟨name, _, harg⟩ := (Seat.body_draft_leaf hshape hb).mp ha
    obtain ⟨p, hp, _, rfl⟩ := (Seat.arg?_cell_nested_iff hshape).mp harg
    have hcell : (s.cell corpus linkage).body = p.2.address := by
      show Option.getD _ _ = _
      rw [ha]
      rfl
    rw [hcell]
    exact Seat.lt_address_of_mem_parts hp

theorem Seat.lt_next (hs : s ∈ (Seat.root n).below corpus linkage)
    (hne : (s.cell corpus linkage).next ≠ .nothing) : s.address < (s.cell corpus linkage).next := by
  rw [Seat.next_cell] at hne ⊢
  rcases Seat.eq_or_mem_parts hs with rfl | ⟨u, _, place, hp⟩
  · exact absurd rfl hne
  · exact Seat.lt_next_seatParts _ hp hne

theorem Seat.lt_arg (hshape : corpus.shapeOf? s.node.kind = some shape) {name : String}
    {b : Address} (harg : (s.cell corpus linkage).arg? name = some (.nested b)) : s.address < b := by
  obtain ⟨p, hp, _, rfl⟩ := (Seat.arg?_cell_nested_iff hshape).mp harg
  exact Seat.lt_address_of_mem_parts hp

/-! ## ranges of cells -/

theorem Node.exists_seat_of_reaches (hk : n.Known corpus linkage)
    (hs : s ∈ (Seat.root n).below corpus linkage) {b : Address}
    (hb : (n.heap corpus linkage).Reaches corpus s.address b) :
    ∃ t ∈ s.below corpus linkage, t.address = b := by
  induction hb with
  | self => exact ⟨s, Seat.mem_below_self s, rfl⟩
  | child _ hchild ih =>
    obtain ⟨t, ht, rfl⟩ := ih
    obtain ⟨u, hu, heq, p, hp, rfl, _⟩ := Node.child_heap hk hchild
    obtain rfl := Seat.eq_of_address hu (Seat.below_trans hs ht) heq
    exact ⟨p.2, Seat.below_trans ht (Seat.mem_below_of_mem_parts hp (Seat.mem_below_self _)), rfl⟩

/-- the cells below a cell are those of one range of addresses -/
theorem Node.reaches_heap_iff (hk : n.Known corpus linkage)
    (hs : s ∈ (Seat.root n).below corpus linkage) {b : Address} :
    (n.heap corpus linkage).Reaches corpus s.address b ↔
      s.address ≤ b ∧ b < s.address + (s.node.preOrder corpus).length := by
  rw [Seat.length_preOrder]
  constructor
  · intro hb
    obtain ⟨t, ht, rfl⟩ := Node.exists_seat_of_reaches hk hs hb
    exact Seat.address_mem_below ht
  · intro ⟨hlo, hhi⟩
    obtain ⟨t, ht, rfl⟩ := Seat.exists_mem_below linkage hlo hhi
    exact Seat.reaches hk s hs t ht

end

/-! ## the cells of a listing -/

/-- the cell at an address and the node that is listed at this place -/
structure Heap.ListedCell (h : Heap) (corpus : Corpus) (n m : Node) (a : Address) (c : Cell) :
    Prop where
  kind : c.kind.name = m.kind
  scalars : ∀ name v, c.arg? name = some (.scalar v) ↔ ∃ shape spec,
    corpus.shape? c.kind = some shape ∧ shape.arg? name = some spec ∧
      m.arg? name = some (.scalar v) ∧ spec.type.accepts v = true
  /-- the subtree is listed in one piece, and its cells are those that are reached -/
  subtree : m.preOrder corpus <+: (n.preOrder corpus).drop (a - 1)
  reaches : ∀ b, h.Reaches corpus a b ↔ a ≤ b ∧ b < a + (m.preOrder corpus).length
  body : c.body ≠ .nothing → a < c.body
  next : c.next ≠ .nothing → a < c.next
  args : ∀ name b, c.arg? name = some (.nested b) → a < b
  parent : c.parent < a
  /-- the chain of a block leads through its statements, which begin one behind the other -/
  statements : ∀ shape, corpus.shape? c.kind = some shape → shape.isBlock = true → ∃ cells,
    (h.chain c.body).complete = .ok cells ∧ cells.map Prod.fst = Node.starts corpus (a + 1) m.body ∧
      List.Forall₂ (fun e s => h.cells[e.1]? = some e.2 ∧
        s.preOrder corpus <+: (n.preOrder corpus).drop (e.1 - 1)) cells m.body

/-- behind the sentinel the cells show the nodes of a tree in pre-order -/
structure Heap.InPreOrder (h : Heap) (corpus : Corpus) (n : Node) : Prop where
  size : h.size = (n.preOrder corpus).length + 1
  sentinel : h.cells[0]? = some .sentinel
  cells : ∀ (i : Nat) (m : Node), (n.preOrder corpus)[i]? = some m →
    ∃ c, h.cells[i + 1]? = some c ∧ h.ListedCell corpus n m (i + 1) c

section
variable {corpus : Corpus} {linkage : ParentLinkage} {n m : Node} {s : Seat} {shape : KindShape}

variable (linkage) in
/-- the seat of a listed node -/
theorem Node.exists_seat_of_preOrder {i : Nat} (hm : (n.preOrder corpus)[i]? = some m) :
    ∃ s ∈ (Seat.root n).below corpus linkage, s.address = i + 1 ∧ s.node = m := by
  have hmap := Seat.map_node_below corpus linkage (Seat.root n)
  rw [← show ((Seat.root n).below corpus linkage).map (·.node) = n.preOrder corpus from hmap,
    List.getElem?_map, Option.map_eq_some_iff] at hm
  obtain ⟨s, hs, rfl⟩ := hm
  exact ⟨s, List.mem_of_getElem? hs, (Seat.address_of_getElem? hs).trans (Nat.add_comm 1 i), rfl⟩

theorem Seat.statements_heap (hs : s ∈ (Seat.root n).below corpus linkage)
    (hshape : corpus.shapeOf? s.node.kind = some shape) (hb : shape.isBlock = true) : ∃ cells,
      ((n.heap corpus linkage).chain (s.cell corpus linkage).body).complete = .ok cells ∧
      cells.map Prod.fst = Node.starts corpus (s.address + 1) s.node.body ∧
      List.Forall₂ (fun e c => (n.heap corpus linkage).cells[e.1]? = some e.2 ∧
        c.preOrder corpus <+: (n.preOrder corpus).drop (e.1 - 1)) cells s.node.body := by
  obtain ⟨kinds, hkinds⟩ := KindShape.isBlock_iff.mp hb
  have hargs : statementsOf (shape.ordinaryArgs.filterMap s.node.argPart?) = [] := by
    refine List.eq_nil_iff_forall_not_mem.mpr fun c hc => ?_
    obtain ⟨spec, _, hpart⟩ := List.mem_filterMap.mp (mem_statementsOf.mp hc)
    cases (Node.argPart?_eq_some_iff.mp hpart).2.1
  refine ⟨_, Heap.complete_chain_iff.mpr (Node.follows_heap hshape hb hs), ?_, ?_⟩
  · rw [List.map_map, Seat.parts_eq hshape, Node.parts, hkinds]
    exact Seat.map_address_statements hargs s.node.body
  · rw [← map_node_statementsOf linkage hshape hkinds, List.forall₂_map_left_iff,
      List.forall₂_map_right_iff, List.forall₂_same]
    intro t ht
    have ht := Seat.part_mem_below hs (mem_statementsOf.mp ht)
    exact ⟨Node.getElem?_heap ht, Seat.prefix_preOrder ht⟩

/-- the cell of a seat is that of the listed node -/
theorem Seat.listedCell_heap (hk : n.Known corpus linkage)
    (hs : s ∈ (Seat.root n).below corpus linkage) :
    (n.heap corpus linkage).ListedCell corpus n s.node s.address (s.cell corpus linkage) := by
  obtain ⟨shape, hshape⟩ := hk s hs
  have hkind : corpus.shape? (s.cell corpus linkage).kind = some shape := by
    rw [Seat.kind_cell hshape]
    exact Corpus.shape?_of_shapeOf? hshape
  refine ⟨?_, fun name v => ?_, Seat.prefix_preOrder hs, fun b => Node.reaches_heap_iff hk hs,
    Seat.lt_body hshape, Seat.lt_next hs, fun name b => Seat.lt_arg hshape, ?_, ?_⟩
  · rw [Seat.kind_cell hshape]
    exact (Corpus.shapeOf?_eq_some_iff.mp hshape).2
  · rw [Seat.arg?_cell_scalar_iff hshape]
    constructor
    · intro ⟨spec, hspec⟩
      exact ⟨shape, spec, hkind, hspec⟩
    · intro ⟨shape', spec, hshape', hspec⟩
      obtain rfl := Option.some.inj (hkind.symm.trans hshape')
      exact ⟨spec, hspec⟩
  · rw [Seat.parent_cell]
    exact Seat.parent_lt_address hs
  · intro shape' hshape' hb
    obtain rfl := Option.some.inj (hkind.symm.trans hshape')
    exact Seat.statements_heap hs hshape hb

/-- the heap of a tree of registered kinds is its listing -/
theorem Node.inPreOrder_heap (hk : n.Known corpus linkage) :
    (n.heap corpus linkage).InPreOrder corpus n where
  size := by rw [Node.size_heap, Seat.length_preOrder]
  sentinel := Node.getElem?_heap_nothing
  cells i m hm := by
    obtain ⟨s, hs, ha, rfl⟩ := Node.exists_seat_of_preOrder linkage hm
    rw [← ha]
    exact ⟨_, Node.getElem?_heap hs, Seat.listedCell_heap hk hs⟩

/-! ## reading the subtrees -/

/-- every node of a valid tree is the root of one -/
theorem Seat.valid_of_mem_below {levels : Nat} {allowed : Option (List Kind)}
    (hn : s.node.Ordered) (hv : s.node.Valid corpus levels allowed) :
    ∀ t ∈ s.below corpus linkage, t.node.Ordered ∧ t.node.Valid corpus levels none := by
  induction levels generalizing s allowed with
  | zero => cases hv
  | succ levels ih =>
    obtain ⟨shape, hshape, _, hfits⟩ := hv
    intro t ht
    rw [below_eq] at ht
    rcases List.mem_cons.mp ht with rfl | ht
    · exact ⟨hn, shape, hshape, admits_none _, hfits⟩
    · obtain ⟨p, hp, ht⟩ := List.mem_flatMap.mp ht
      obtain ⟨kinds, hvalid⟩ :=
        hfits.parts (Corpus.shape?_of_shapeOf? hshape) _ (mem_parts hshape hp)
      obtain ⟨hordered, hvalid⟩ := ih (ordered_of_mem_parts hn hp) hvalid t ht
      exact ⟨hordered, hvalid.of_depth_le (Nat.le_succ_of_le (hvalid.depth_le hordered))⟩

/-- **The heap of a tree is its nodes in pre-order.** Each cell lies at the place of its node, holds the
kind and the accepted scalars of the node, and points to later cells only, but for its parent; each
subtree has one range of addresses. If the tree is valid, the cells are its nodes, and the subtree of
each node is read from the address of its cell. -/
theorem Node.flatten_pre_order {policy : Policy} {h : Heap} {root : Address}
    (hf : n.flatten corpus policy = .ok (h, root)) : root = .root ∧ h.InPreOrder corpus n ∧
      (n.Ordered → n.check corpus policy = .ok () → (n.preOrder corpus).length = n.count ∧
        ∀ (i : Nat) (m : Node), (n.preOrder corpus)[i]? = some m →
          h.rebuild corpus policy (i + 1) = .ok m) := by
  have hk : n.Known corpus policy.linkage := known_of_flatten hf
  obtain ⟨rfl, rfl⟩ := Prod.mk.inj (flatten_eq_ok.mp hf).2
  refine ⟨rfl, inPreOrder_heap hk, fun hn hcheck => ?_⟩
  have hv : n.Valid corpus policy.maxDepth none := check_eq_ok.mp hcheck
  refine ⟨(Seat.length_preOrder n).trans (cellCount_eq_count hn hv), fun i m hm => ?_⟩
  obtain ⟨s, hs, ha, rfl⟩ := exists_seat_of_preOrder policy.linkage hm
  obtain ⟨hordered, hvalid⟩ := Seat.valid_of_mem_below (s := Seat.root n) hn hv s hs
  rw [← ha]
  exact Heap.rebuildBelow_heap hs hordered hvalid

theorem Sample.greeting_pre_order : ∃ h,
    Sample.greeting.flatten Corpus.builtIn .default = .ok (h, .root) ∧
      h.InPreOrder Corpus.builtIn Sample.greeting ∧ Sample.greeting.count = 8 ∧
      (Sample.greeting.preOrder Corpus.builtIn).map (·.kind) = ["sequence", "take_photo",
        "send_message", "channel", "_if", "execute", "nothing", "scope_declaration"] ∧
      ∃ m, (Sample.greeting.preOrder Corpus.builtIn)[4]? = some m ∧ m.kind = "_if" ∧
        h.rebuild Corpus.builtIn .default 5 = .ok m := by
  have hflat : Sample.greeting.flatten Corpus.builtIn .default =
    .ok (Sample.greeting.heap Corpus.builtIn .structural, .root) := Node.flatten_eq_ok.mpr ⟨rfl, rfl⟩
  have hkinds : (Sample.greeting.preOrder Corpus.builtIn).map (·.kind) = ["sequence", "take_photo",
    "send_message", "channel", "_if", "execute", "nothing", "scope_declaration"] := by decide +kernel
  obtain ⟨_, horder, hread⟩ := Node.flatten_pre_order hflat
  obtain ⟨hcount, hread⟩ := hread Sample.greeting_ordered rfl
  rw [← List.length_map (·.kind), hkinds] at hcount
  have hfifth := congrArg (·[4]?) hkinds
  simp only [List.getElem?_map] at hfifth
  obtain ⟨m, hm, hkind⟩ := Option.map_eq_some_iff.mp hfifth
  exact ⟨_, hflat, horder, hcount.symm, hkinds, m, hm, hkind, hread 4 m hm⟩

end

end ScriptHeap
