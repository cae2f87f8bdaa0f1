import ScriptHeap.Corpus.BuiltIn
import ScriptHeap.Proofs.Layout
import ScriptHeap.Proofs.Rebuilt
import ScriptHeap.Sample
/-!
# From a tree to its heap and back

* `Node.flattenFault?_of_valid`   a valid tree has a heap;
* `Seat.cell_shows`    the cell of a seat shows the node, if the node fits its shape;
* `Heap.rebuildBelow_heap`   the heap of a valid tree gives back each of its nodes;
* `Node.check_eq_ok_iff_round_trip`   the valid trees are the ones that come back unchanged.
-/

namespace ScriptHeap

/-! ## valid trees have heaps -/

section
variable {corpus : Corpus} {n : Node} {shape : KindShape} {S : List Kind → Node → Prop}

/-- every part of a node that fits its shape is what its place asks for -/
theorem Node.Fits.parts (hf : n.Fits S shape) {kind : Kind} (hs : corpus.shape? kind = some shape) :
    ∀ p ∈ n.parts shape, ∃ kinds, S kinds p.2 := by
  intro ⟨place, c⟩ hp
  cases place with
  | statement =>
    obtain ⟨kinds, _, hc⟩ := hf.body c (Node.statement_mem_parts_iff.mp hp).2
    exact ⟨kinds, hc⟩
  | arg name primary =>
    obtain ⟨⟨spec, _, hspec, _⟩, hc, _⟩ := (Node.arg_mem_parts_iff hs).mp hp
    have hfit := hf.args name
    rw [hspec, hc] at hfit
    cases hfit with
    | nested _ h => exact ⟨_, h⟩

theorem Node.flattenFault?_of_valid {limit levels : Nat} {allowed : Option (List Kind)}
    (hv : n.Valid corpus levels allowed) : n.flattenFault? corpus limit levels = none := by
  induction levels generalizing n allowed with
  | zero => cases hv
  | succ levels ih =>
    obtain ⟨shape, hs, _, hf⟩ := hv
    rw [Node.flattenFault?, hs]
    show (n.parts shape).findSome? _ = none
    rw [List.findSome?_eq_none_iff]
    intro p hp
    obtain ⟨kinds, hc⟩ := hf.parts (Corpus.shape?_of_shapeOf? hs) p hp
    exact ih hc

end

/-! ## the cell of a seat -/

namespace Seat

section
variable {corpus : Corpus} {linkage : ParentLinkage} {s : Seat} {shape : KindShape}
  (hs : corpus.shapeOf? s.node.kind = some shape)
include hs

variable {S : List Kind → Node → Prop} {R : List Kind → Address → Node → Prop}

theorem argShows_cell (hf : s.node.Fits S shape)
    (hSR : ∀ kinds, ∀ p ∈ s.parts corpus linkage, S kinds p.2.node →
      R kinds p.2.address p.2.node) (name : String) :
    ArgShows R (shape.arg? name) ((s.cell corpus linkage).arg? name) (s.node.arg? name) := by
  have hshape := Corpus.shape?_of_shapeOf? hs
  have hfit := hf.args name
  cases hspec : shape.arg? name with
  | none =>
    rw [hspec] at hfit
    rw [arg?_cell_none hs hspec]
    generalize s.node.arg? name = v at hfit
    cases hfit
    exact .absent
  | some spec =>
    rw [hspec] at hfit
    cases harg : s.node.arg? name with
    | none =>
      rw [harg] at hfit
      cases hfit
    | some v =>
      rw [harg] at hfit
      cases hfit with
      | @scalar _ v hacc =>
        rw [(arg?_cell_scalar_iff hs).mpr ⟨spec, hspec, harg, hacc⟩]
        exact .scalar hacc
      | @nested _ kinds c ht hc =>
        have hpart : (.arg name (decide (shape.body = .primary name)), c) ∈ s.node.parts shape :=
          (Node.arg_mem_parts_iff hshape).mpr
            ⟨⟨spec, kinds, hspec, ht⟩, harg, decide_eq_true_iff⟩
        obtain ⟨t, ht', rfl⟩ := exists_mem_parts linkage hs hpart
        rw [(arg?_cell_nested_iff hs).mpr ⟨_, ht', ⟨_, rfl⟩, rfl⟩]
        have hlt := lt_address_of_mem_parts ht'
        exact .nested ht (Nat.ne_of_gt (Nat.zero_lt_of_lt hlt)) (hSR kinds _ ht' hc)

theorem bodyShows_cell {n : Node} (hbelow : s ∈ (Seat.root n).below corpus linkage)
    (hf : s.node.Fits S shape)
    (hSR : ∀ kinds, ∀ p ∈ s.parts corpus linkage, S kinds p.2.node →
      R kinds p.2.address p.2.node) :
    BodyShows (n.heap corpus linkage) R (s.cell corpus linkage) shape.body s.node.body := by
  cases hrule : shape.body with
  | block kinds =>
    have hb : shape.isBlock = true := KindShape.isBlock_iff.mpr ⟨kinds, hrule⟩
    refine .block (Node.follows_heap hs hb hbelow) ?_
    rw [← map_node_statementsOf linkage hs hrule, List.forall₂_map_left_iff,
      List.forall₂_map_right_iff, List.forall₂_same]
    intro t ht
    have hpart := mem_statementsOf.mp ht
    have hbody := (Node.statement_mem_parts_iff.mp (mem_parts hs hpart)).2
    obtain ⟨kinds', hk, hS⟩ := hf.body t.node hbody
    rw [hrule] at hk
    cases hk
    exact hSR kinds _ hpart hS
  | primary name =>
    rw [hf.body_eq_nil (KindShape.isBlock_of_primary hrule)]
    obtain ⟨spec, kinds, hspec, ht⟩ := Corpus.exists_primary (Corpus.shape?_of_shapeOf? hs) hrule
    have hshow := argShows_cell hs hf hSR name
    rw [hspec] at hshow
    obtain ⟨x, y, hx, hy⟩ := hshow.of_some
    rw [hx, hy] at hshow
    cases hshow with
    | scalar hacc =>
      rw [ht, ArgType.accepts_node] at hacc
      cases hacc
    | nested _ _ _ =>
      refine .primary ?_
      rw [body_cell_primary hs hrule, hx]
      rfl
  | none =>
    rw [hf.body_eq_nil (KindShape.isBlock_of_none hrule)]
    exact .none (body_cell_none hs hrule)

/-- the cell of a seat shows the node, if the node fits its shape -/
theorem cell_shows {n : Node} (hbelow : s ∈ (Seat.root n).below corpus linkage)
    (hsorted : Entries.Sorted s.node.args) (hf : s.node.Fits S shape)
    (hSR : ∀ kinds, ∀ p ∈ s.parts corpus linkage, S kinds p.2.node →
      R kinds p.2.address p.2.node) :
    (s.cell corpus linkage).Shows (n.heap corpus linkage) R shape s.node where
  kind := by
    rw [kind_cell hs]
    exact (Corpus.shapeOf?_eq_some_iff.mp hs).2.symm
  sorted := hsorted
  args := argShows_cell hs hf hSR
  body := bodyShows_cell hs hbelow hf hSR

end

end Seat

/-! ## trees in order -/

namespace Node

theorem ordered_ofKind (kind : String) : (ofKind kind).Ordered :=
  ⟨Entries.sorted_nil, fun _ hc => (by cases hc)⟩

theorem Ordered.withArg {n : Node} (hn : n.Ordered) (name : String) {value : Arg Node}
    (hv : ∀ c, value = .nested c → c.Ordered) : (n.withArg name value).Ordered := by
  obtain ⟨hsorted, hchildren⟩ := hn
  refine ⟨Entries.sorted_insert name value hsorted, fun c hc => ?_⟩
  rcases List.mem_append.mp hc with hc | hc
  · obtain ⟨other, he⟩ := mem_argNodes.mp hc
    rcases Entries.mem_insert he with heq | he
    · exact hv c (Prod.mk.inj heq).2.symm
    · exact hchildren c (List.mem_append_left _ (mem_argNodes.mpr ⟨other, he⟩))
  · exact hchildren c (List.mem_append_right _ hc)

theorem Ordered.withStatement {n c : Node} (hn : n.Ordered) (hc : c.Ordered) :
    (n.withStatement c).Ordered := by
  obtain ⟨hsorted, hchildren⟩ := hn
  refine ⟨hsorted, fun d hd => ?_⟩
  rcases List.mem_append.mp hd with hd | hd
  · exact hchildren d (List.mem_append_left _ hd)
  · rcases List.mem_append.mp hd with hd | hd
    · exact hchildren d (List.mem_append_right _ hd)
    · rwa [List.mem_singleton.mp hd]

theorem Ordered.str {n : Node} (hn : n.Ordered) (name value : String) :
    (Sample.str n name value).Ordered := hn.withArg name nofun

theorem Ordered.int {n : Node} (hn : n.Ordered) (name : String) (value : Int64) :
    (Sample.int n name value).Ordered := hn.withArg name nofun

theorem Ordered.sub {n c : Node} (hn : n.Ordered) (name : String) (hc : c.Ordered) :
    (Sample.sub n name c).Ordered := hn.withArg name fun _ h => (by cases h; exact hc)

end Node

theorem Sample.greeting_ordered : Sample.greeting.Ordered := by
  have message := (((Node.ordered_ofKind "send_message").str "message" "Hello, world!").str
    "message_type" "success").withStatement
      ((Node.ordered_ofKind "channel").str "channel_name" "toast")
  have test := (((Node.ordered_ofKind "_if").str "lhs" "x").str "op" "is").int "rhs" 0
  have branches := (test.sub "_then" ((Node.ordered_ofKind "execute").int "sequence_id" 1)).sub
    "_else" (Node.ordered_ofKind "nothing")
  have head := ((Node.ordered_ofKind "sequence").int "version" 20180209).sub "locals"
    (Node.ordered_ofKind "scope_declaration")
  exact ((head.withStatement (Node.ordered_ofKind "take_photo")).withStatement message).withStatement
    branches

/-! ## back from the heap -/

section
variable {corpus : Corpus} {n : Node}

theorem Seat.ordered_of_mem_parts {linkage : ParentLinkage} {s : Seat} (hn : s.node.Ordered)
    {p : Place × Seat} (hp : p ∈ s.parts corpus linkage) : p.2.node.Ordered := by
  have hkept := mem_keptParts_of_mem_parts corpus linkage hp
  unfold Node.keptParts at hkept
  split at hkept
  · obtain ⟨_, hchildren⟩ := hn
    exact hchildren _ (Node.mem_children_of_mem_parts hkept)
  · cases hkept

/-- the heap of a tree gives back every valid tree that it holds -/
theorem Heap.rebuildBelow_heap {linkage : ParentLinkage} {limit levels : Nat}
    {allowed : Option (List Kind)} {s : Seat} (hbelow : s ∈ (Seat.root n).below corpus linkage)
    (hn : s.node.Ordered) (hv : s.node.Valid corpus levels allowed) :
    (n.heap corpus linkage).rebuildBelow corpus limit levels allowed s.address = .ok s.node := by
  induction levels generalizing s allowed with
  | zero => cases hv
  | succ levels ih =>
    obtain ⟨shape, hs, hk, hf⟩ := hv
    have hkind : (s.cell corpus linkage).kind = shape.kind := Seat.kind_cell hs
    rw [rebuildBelow_succ]
    refine ⟨s.cell corpus linkage, shape, Node.getElem?_heap hbelow, ?_, ?_, ?_⟩
    · rw [hkind]
      exact Corpus.shape?_of_shapeOf? hs
    · rwa [hkind]
    · have hsorted : Entries.Sorted s.node.args := by
        obtain ⟨hsorted, _⟩ := hn
        exact hsorted
      refine Seat.cell_shows hs hbelow hsorted hf fun kinds p hp hp' => ?_
      exact ih (Seat.below_trans hbelow (Seat.mem_below_of_mem_parts hp (Seat.mem_below_self p.2)))
        (Seat.ordered_of_mem_parts hn hp) hp'

/-- a valid tree comes back from its heap -/
theorem Node.rebuild_flatten {policy : Policy} (hn : n.Ordered)
    (hv : n.Valid corpus policy.maxDepth none) :
    n.flatten corpus policy = .ok (n.heap corpus policy.linkage, .root) ∧
      (n.heap corpus policy.linkage).rebuild corpus policy .root = .ok n :=
  ⟨Node.flatten_eq_ok.mpr ⟨Node.flattenFault?_of_valid hv, rfl⟩,
    Heap.rebuildBelow_heap (Seat.mem_below_self (Seat.root n)) hn hv⟩

/-- **The valid trees are those that survive the way to a heap and back.** The arguments of a tree
are maps, so they are given in the order of their names. -/
theorem Node.check_eq_ok_iff_round_trip {policy : Policy} (hn : n.Ordered) :
    n.check corpus policy = .ok () ↔ ∃ h root, n.flatten corpus policy = .ok (h, root) ∧
      h.rebuild corpus policy root = .ok n := by
  rw [Node.check_eq_ok]
  constructor
  · intro hv
    obtain ⟨hflat, hback⟩ := Node.rebuild_flatten hn hv
    exact ⟨_, _, hflat, hback⟩
  · intro ⟨h, root, _, hback⟩
    exact Heap.valid_of_rebuildBelow hback

theorem Sample.greeting_comes_back : ∃ h root,
    Sample.greeting.flatten Corpus.builtIn .default = .ok (h, root) ∧
      h.rebuild Corpus.builtIn .default root = .ok Sample.greeting :=
  (Node.check_eq_ok_iff_round_trip Sample.greeting_ordered).mp rfl

end

end ScriptHeap
