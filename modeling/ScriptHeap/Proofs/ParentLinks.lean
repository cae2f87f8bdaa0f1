import ScriptHeap.Proofs.Rebuilt
import ScriptHeap.Proofs.TreeLinks
/-!
# Parent links

* `Heap.SameButParents`   two heaps whose cells are the same but for their parents;
* `Heap.SameButParents.rebuild_eq`   such heaps are read alike, since parents are not read;
* `Node.heap_sameButParents`   a tree has such heaps under any two linkages;
* `Seat.parent_structural`, `Seat.parent_arg`, `Seat.parent_previousSibling`   the parents of parts;
* `Heap.Relinked`      how the parents under the two linkages compare;
* `Node.flatten_linkage`   what a linkage decides, and that it decides nothing else.
-/

namespace ScriptHeap

/-! ## heaps that differ in parents -/

namespace Heap

/-- the parent link at an address, if there is a cell -/
def parent? (h : Heap) (a : Address) : Option Address := (h.cells[a]?).map Cell.parent

theorem parent?_eq_none {h : Heap} {a : Address} (ha : h.size ≤ a) : h.parent? a = none := by
  rw [parent?, Array.getElem?_eq_none ha]
  rfl

/-- the cells are the same but for their parents -/
structure SameButParents (h k : Heap) : Prop where
  size : h.size = k.size
  cells : ∀ (a : Address) (c d : Cell), h.cells[a]? = some c → k.cells[a]? = some d →
    d = { c with parent := d.parent }

theorem openArgs_withParent (c : Cell) (p : Address) (specs : List ArgSpec) :
    openArgs { c with parent := p } specs = openArgs c specs := by
  induction specs with
  | nil => rfl
  | cons spec specs ih =>
    rw [openArgs, openArgs, ih]
    rfl

namespace SameButParents

section
variable {h k : Heap} (hs : h.SameButParents k)
include hs

/-- a cell of one heap has its twin in the other -/
theorem exists_cell {a : Address} {c : Cell} (hc : h.cells[a]? = some c) :
    ∃ p, k.cells[a]? = some { c with parent := p } := by
  obtain ⟨d, hd⟩ := exists_getElem? (hs.size ▸ lt_size_of_getElem? hc)
  exact ⟨d.parent, hd.trans (congrArg some (hs.cells a c d hc hd))⟩

/-- the cell at an address, with its twin, or the same fault -/
theorem get_cases (a : Address) : (∃ fault, h.get a = .error fault ∧ k.get a = .error fault) ∨
    ∃ c p, h.get a = .ok c ∧ k.get a = .ok { c with parent := p } := by
  cases hc : h.cells[a]? with
  | none =>
    have hle : k.size ≤ a := hs.size ▸ Array.getElem?_eq_none_iff.mp hc
    refine .inl ⟨⟨a, .outOfRange h.size⟩, ?_, ?_⟩
    · rw [get, hc]
    · rw [get, Array.getElem?_eq_none hle, hs.size]
  | some c =>
    obtain ⟨p, hp⟩ := hs.exists_cell hc
    exact .inr ⟨c, p, get_eq_ok.mpr hc, get_eq_ok.mpr hp⟩

/-! ### reading -/

theorem chainFrom_eq (start : Address) (steps : Nat) (a : Address) :
    (h.chainFrom start steps a).fault? = (k.chainFrom start steps a).fault? ∧
      (h.chainFrom start steps a).cells.map Prod.fst
        = (k.chainFrom start steps a).cells.map Prod.fst := by
  induction steps generalizing a with
  | zero =>
    unfold chainFrom
    rw [hs.size]
    split <;> exact ⟨rfl, rfl⟩
  | succ steps ih =>
    unfold chainFrom
    split
    · exact ⟨rfl, rfl⟩
    · rcases hs.get_cases a with ⟨fault, hh, hk⟩ | ⟨c, p, hh, hk⟩
      · rw [hh, hk]
        exact ⟨rfl, rfl⟩
      · rw [hh, hk]
        obtain ⟨hfault, hcells⟩ := ih c.next
        exact ⟨hfault, congrArg (a :: ·) hcells⟩

theorem openBody_eq (a : Address) (c : Cell) (p : Address) (rule : BodyRule) :
    h.openBody a c rule = k.openBody a { c with parent := p } rule := by
  cases rule with
  | block kinds =>
    obtain ⟨hfault, hcells⟩ := hs.chainFrom_eq c.body h.size c.body
    have hmap : ∀ l : List (Address × Cell),
        l.map (fun e => Target.mk e.1 kinds) = (l.map Prod.fst).map fun b => Target.mk b kinds := by
      intro l
      rw [List.map_map]
      rfl
    show (h.chain c.body).complete.map _ = (k.chain c.body).complete.map _
    unfold chain Chain.complete
    rw [← hs.size, ← hfault]
    cases (h.chainFrom c.body h.size c.body).fault? with
    | some fault => rfl
    | none =>
      show Except.ok (List.map (fun e : Address × Cell => Target.mk e.1 kinds) _)
        = Except.ok (List.map (fun e : Address × Cell => Target.mk e.1 kinds) _)
      rw [hmap, hmap, hcells]
  | primary name => rfl
  | none => rfl

theorem openCell_eq (corpus : Corpus) (allowed : Option (List Kind)) (a : Address) :
    h.openCell corpus allowed a = k.openCell corpus allowed a := by
  unfold openCell
  rcases hs.get_cases a with ⟨fault, hh, hk⟩ | ⟨c, p, hh, hk⟩
  · rw [hh, hk]
    rfl
  · rw [hh, hk]
    show (openShape corpus c).mapError _ >>= _ = (openShape corpus c).mapError _ >>= _
    refine bind_congr fun shape => ?_
    rw [openArgs_withParent c p shape.args, ← hs.openBody_eq a c p shape.body]
    rfl

theorem rebuildBelow_eq (corpus : Corpus) (limit levels : Nat) (allowed : Option (List Kind))
    (a : Address) : h.rebuildBelow corpus limit levels allowed a
      = k.rebuildBelow corpus limit levels allowed a := by
  induction levels generalizing allowed a with
  | zero => rfl
  | succ levels ih =>
    rw [rebuildBelow_succ_eq, rebuildBelow_succ_eq, hs.openCell_eq]
    simp only [ih]

/-- parents are not read -/
theorem rebuild_eq (corpus : Corpus) (policy : Policy) (a : Address) :
    h.rebuild corpus policy a = k.rebuild corpus policy a :=
  hs.rebuildBelow_eq corpus _ _ none a

/-! ### children -/

theorem follows {a : Address} {l : List (Address × Cell)} (hl : h.Follows a l) :
    ∃ l', k.Follows a l' ∧ l'.map Prod.fst = l.map Prod.fst := by
  induction hl with
  | nothing => exact ⟨[], .nothing, rfl⟩
  | cell ha hc _ ih =>
    obtain ⟨p, hp⟩ := hs.exists_cell hc
    obtain ⟨l', hl', heq⟩ := ih
    exact ⟨_, .cell ha hp hl', congrArg (_ :: ·) heq⟩

/-- parents make no difference to what lies at a spot -/
theorem child {corpus : Corpus} {a b : Address} {spot : Spot} (hb : h.Child corpus a spot b) :
    k.Child corpus a spot b := by
  cases hb with
  | @statement c d shape l i _ hc hshape hblock hl hi =>
    obtain ⟨p, hp⟩ := hs.exists_cell hc
    obtain ⟨l', hl', heq⟩ := hs.follows hl
    have hi' : (l'.map Prod.fst)[i]? = some b := by
      rw [heq, List.getElem?_map, hi]
      rfl
    rw [List.getElem?_map, Option.map_eq_some_iff] at hi'
    obtain ⟨⟨_, d'⟩, hi', rfl⟩ := hi'
    exact .statement hp hshape hblock hl' hi'
  | @arg c name _ hc harg =>
    obtain ⟨p, hp⟩ := hs.exists_cell hc
    exact .arg hp harg

end

end SameButParents

end Heap

/-! ## the same tree under two linkages -/

namespace Seat

/-- the seat with no parent -/
def orphan (s : Seat) : Seat := { s with parent := .nothing }

section
variable {corpus : Corpus} {linkage linkage' : ParentLinkage} {s t : Seat}

theorem eq_of_orphan_eq (h : s.orphan = t.orphan) :
    s.node = t.node ∧ s.address = t.address ∧ s.next = t.next := by
  obtain ⟨hnode, haddress, _, hnext⟩ := Seat.mk.inj h
  exact ⟨hnode, haddress, hnext⟩

/-- the linkage decides the parents of the parts only -/
theorem orphan_seatParts {owner free : Address} {last last' : Option Address}
    {ps : List (Place × Node)} :
    (seatParts corpus linkage owner free last ps).map (fun p => (p.1, p.2.orphan))
      = (seatParts corpus linkage' owner free last' ps).map fun p => (p.1, p.2.orphan) := by
  induction ps generalizing free last last' with
  | nil => rfl
  | cons p ps ih =>
    obtain ⟨place, c⟩ := p
    rw [seatParts, seatParts, List.map_cons, List.map_cons, ih]
    rfl

variable (linkage') in
theorem orphan_parts (h : s.orphan = t.orphan) :
    (s.parts corpus linkage).map (fun p => (p.1, p.2.orphan))
      = (t.parts corpus linkage').map fun p => (p.1, p.2.orphan) := by
  obtain ⟨hnode, haddress, _⟩ := eq_of_orphan_eq h
  unfold parts
  rw [hnode, haddress]
  exact orphan_seatParts

/-- what is written of a part in the cell of its owner is not its parent -/
theorem filled_orphan (d : Draft) (ps : List (Place × Seat)) :
    d.filled (ps.map fun p => (p.1, p.2.orphan)) = d.filled ps := by
  unfold Draft.filled
  rw [List.foldl_map]
  rfl

theorem draft_eq_withParent (h : s.orphan = t.orphan) :
    t.draft corpus linkage' = (s.draft corpus linkage).withLink t.parent .parent := by
  obtain ⟨hnode, haddress, hnext⟩ := eq_of_orphan_eq h
  unfold draft
  rw [← hnode, ← haddress, ← hnext]
  cases corpus.shapeOf? s.node.kind with
  | none => rfl
  | some shape =>
    show Draft.filled _ _ = Draft.withLink (Draft.filled _ _) _ _
    have hne : LinkField.parent ≠ .body := nofun
    rw [← Draft.filled_withLink hne, ← filled_orphan _ (t.parts corpus linkage'),
      ← filled_orphan _ (s.parts corpus linkage), orphan_parts linkage' h]
    rfl

theorem cell_eq_withParent (h : s.orphan = t.orphan) :
    t.cell corpus linkage' = { s.cell corpus linkage with parent := t.parent } := by
  unfold cell
  rw [draft_eq_withParent h]
  rfl

variable (corpus linkage linkage') in
/-- every seat of a tree has its twin under the other linkage -/
theorem exists_orphan_eq (h : s.orphan = t.orphan) {u : Seat} (hu : u ∈ s.below corpus linkage) :
    ∃ v ∈ t.below corpus linkage', u.orphan = v.orphan := by
  induction s using Seat.induction corpus linkage generalizing t with
  | h s ih =>
    rw [below_eq] at hu
    rcases List.mem_cons.mp hu with rfl | hu
    · exact ⟨t, mem_below_self t, h⟩
    · obtain ⟨p, hp, hu⟩ := List.mem_flatMap.mp hu
      have hmem := List.mem_map_of_mem (f := fun p : Place × Seat => (p.1, p.2.orphan)) hp
      rw [orphan_parts linkage' h] at hmem
      obtain ⟨q, hq, heq⟩ := List.mem_map.mp hmem
      obtain ⟨v, hv, huv⟩ := ih p hp (Prod.mk.inj heq).2.symm hu
      exact ⟨v, mem_below_of_mem_parts hq hv, huv⟩

end

end Seat

/-- under any two linkages the heap of a tree is the same but for parents -/
theorem Node.heap_sameButParents (corpus : Corpus) (linkage linkage' : ParentLinkage) (n : Node) :
    (n.heap corpus linkage).SameButParents (n.heap corpus linkage') where
  size := by rw [Node.size_heap, Node.size_heap]
  cells a c d hc hd := by
    by_cases ha : a = 0
    · subst ha
      obtain rfl := Option.some.inj (Node.getElem?_heap_nothing.symm.trans hc)
      obtain rfl := Option.some.inj (Node.getElem?_heap_nothing.symm.trans hd)
      rfl
    · obtain ⟨s, hs, rfl, rfl⟩ := Node.exists_seat ha hc
      obtain ⟨t, ht, heq⟩ := Seat.exists_orphan_eq corpus linkage linkage' (t := Seat.root n) rfl hs
      obtain ⟨_, haddress, _⟩ := Seat.eq_of_orphan_eq heq
      rw [haddress, Node.getElem?_heap ht] at hd
      obtain rfl := Option.some.inj hd
      rw [Seat.parent_cell]
      exact Seat.cell_eq_withParent heq

/-! ## the parents that a linkage gives -/

/-- The parents in a heap with structural links and in one of the same tree with links to the
statement before. What lies at which spot is the same in both. -/
structure Heap.Relinked (h : Heap) (corpus : Corpus) (k : Heap) : Prop where
  /-- the sentinel and the root have no parent -/
  top : ∀ a : Address, a = .nothing ∨ a = .root →
    h.parent? a = some .nothing ∧ k.parent? a = some .nothing
  /-- a structural parent is the cell that holds the child -/
  structural : ∀ a spot b, h.Child corpus a spot b → h.parent? b = some a
  /-- so is the other, unless the child is a statement behind another -/
  first : ∀ a spot b, h.Child corpus a spot b → (∀ i, spot ≠ .statement (i + 1)) →
    k.parent? b = some a
  /-- the other parent of such a statement is the one before it -/
  later : ∀ a i b, h.Child corpus a (.statement (i + 1)) b →
    ∃ c, h.Child corpus a (.statement i) c ∧ k.parent? b = some c
  differ : ∀ b, h.parent? b ≠ k.parent? b ↔ ∃ a i, h.Child corpus a (.statement (i + 1)) b

namespace Seat

section
variable {corpus : Corpus} {linkage : ParentLinkage} {owner free : Address} {last : Option Address}
  {ps : List (Place × Node)}

theorem parent_structural :
    ∀ p ∈ seatParts corpus .structural owner free last ps, p.2.parent = owner := by
  induction ps generalizing free last with
  | nil => exact fun p hp => absurd hp List.not_mem_nil
  | cons p ps ih => exact List.forall_mem_cons.mpr ⟨rfl, ih⟩

theorem parent_arg : ∀ p ∈ seatParts corpus linkage owner free last ps, p.1 ≠ .statement →
    p.2.parent = owner := by
  induction ps generalizing free last with
  | nil => exact fun p hp => absurd hp List.not_mem_nil
  | cons p ps ih =>
    obtain ⟨place, c⟩ := p
    refine List.forall_mem_cons.mpr ⟨fun hne => ?_, ih⟩
    cases place with
    | statement => exact absurd rfl hne
    | arg name primary => cases linkage <;> rfl

/-- the parent of a statement is the one before it; that of the first is given -/
theorem parent_previousSibling {i : Nat} {t : Seat}
    (ht : (statementsOf (seatParts corpus .previousSibling owner free last ps))[i]? = some t) :
    (i = 0 ∧ t.parent = last.getD owner) ∨ ∃ j u, i = j + 1 ∧ t.parent = u.address ∧
      (statementsOf (seatParts corpus .previousSibling owner free last ps))[j]? = some u := by
  induction ps generalizing free last i with
  | nil => cases ht
  | cons p ps ih =>
    obtain ⟨place, c⟩ := p
    cases place with
    | arg name primary => exact ih ht
    | statement =>
      rw [seatParts, statementsOf_statement] at ht ⊢
      cases i with
      | zero =>
        cases ht
        refine .inl ⟨rfl, ?_⟩
        cases last <;> rfl
      | succ i =>
        rw [List.getElem?_cons_succ] at ht
        rcases ih ht with ⟨rfl, hparent⟩ | ⟨j, u, rfl, hparent, hu⟩
        · exact .inr ⟨0, _, rfl, hparent, rfl⟩
        · exact .inr ⟨j + 1, u, rfl, hparent, hu⟩

end

end Seat

namespace Node

section
variable {corpus : Corpus} {linkage : ParentLinkage} {n : Node} {a b : Address}

theorem parent?_heap {s : Seat} (hs : s ∈ (Seat.root n).below corpus linkage) :
    (n.heap corpus linkage).parent? s.address = some s.parent := by
  rw [Heap.parent?, getElem?_heap hs]
  exact congrArg some (Seat.parent_cell s)

theorem parent?_heap_root : (n.heap corpus linkage).parent? .root = some .nothing :=
  parent?_heap (Seat.mem_below_self (Seat.root n))

/-- a structural parent is the cell that holds the child -/
theorem parent?_structural (hk : n.Known corpus .structural) {spot : Spot}
    (hb : (n.heap corpus .structural).Child corpus a spot b) :
    (n.heap corpus .structural).parent? b = some a := by
  obtain ⟨s, hs, rfl, p, hp, rfl, _⟩ := child_heap hk hb
  rw [parent?_heap (Seat.part_mem_below hs hp), Seat.parent_structural p hp]

/-- the parent of a nested argument is the cell that holds it, under any linkage -/
theorem parent?_arg (hk : n.Known corpus linkage) {name : String}
    (hb : (n.heap corpus linkage).Child corpus a (.arg name) b) :
    (n.heap corpus linkage).parent? b = some a := by
  obtain ⟨s, hs, rfl, p, hp, rfl, hplace⟩ := child_heap hk hb
  have hne : p.1 ≠ .statement := by
    rcases hplace with ⟨_, hspot, _⟩ | ⟨_, _, _, hplace⟩
    · cases hspot
    · rw [hplace]
      exact nofun
  rw [parent?_heap (Seat.part_mem_below hs hp), Seat.parent_arg p hp hne]

/-- the statements of a cell are the seats of its statements, one by one -/
theorem statement_heap (hk : n.Known corpus linkage) {i : Nat}
    (hb : (n.heap corpus linkage).Child corpus a (.statement i) b) :
    ∃ s ∈ (Seat.root n).below corpus linkage, s.address = a ∧
      (∃ t, (statementsOf (s.parts corpus linkage))[i]? = some t ∧ t.address = b) ∧
      ∀ j u, (statementsOf (s.parts corpus linkage))[j]? = some u →
        (n.heap corpus linkage).Child corpus a (.statement j) u.address := by
  obtain ⟨s, hs, rfl, _⟩ := child_heap hk hb
  obtain ⟨shape, hshape⟩ := hk s hs
  have hget := getElem?_heap hs
  cases hb with
  | @statement c d shape' l _ _ hc hs' hblock hl hi =>
    obtain rfl := Option.some.inj (hget.symm.trans hc)
    have heq : shape' = shape := by
      rw [Seat.kind_cell hshape, Corpus.shape?_of_shapeOf? hshape] at hs'
      exact (Option.some.inj hs').symm
    subst heq
    obtain rfl := hl.unique (follows_heap hshape hblock hs)
    refine ⟨s, hs, rfl, ?_, fun j u hu => ?_⟩
    · rw [List.getElem?_map, Option.map_eq_some_iff] at hi
      obtain ⟨t, ht, heq⟩ := hi
      exact ⟨t, ht, (Prod.mk.inj heq).1⟩
    · refine .statement (d := u.cell corpus linkage) hc hs' hblock hl ?_
      rw [List.getElem?_map, hu]
      rfl

/-- under the linkage to the statement before, the parent of a statement is that one; the parent of
the first is the block -/
theorem parent?_previousSibling (hk : n.Known corpus .previousSibling) {i : Nat}
    (hb : (n.heap corpus .previousSibling).Child corpus a (.statement i) b) :
    (i = 0 ∧ (n.heap corpus .previousSibling).parent? b = some a) ∨
      ∃ j c, i = j + 1 ∧ (n.heap corpus .previousSibling).Child corpus a (.statement j) c ∧
        a < c ∧ (n.heap corpus .previousSibling).parent? b = some c := by
  obtain ⟨s, hs, rfl, ⟨t, ht, rfl⟩, hchild⟩ := statement_heap hk hb
  have hmem : ∀ {j : Nat} {u : Seat},
      (statementsOf (s.parts corpus .previousSibling))[j]? = some u →
        (Place.statement, u) ∈ s.parts corpus .previousSibling := fun hu =>
    mem_statementsOf.mp (List.mem_of_getElem? hu)
  have hparent := parent?_heap (Seat.part_mem_below hs (hmem ht))
  rcases Seat.parent_previousSibling ht with ⟨hi, ht⟩ | ⟨j, u, hi, ht, hu⟩
  · rw [ht] at hparent
    exact .inl ⟨hi, hparent⟩
  · rw [ht] at hparent
    exact .inr ⟨j, u.address, hi, hchild j u hu, Seat.lt_address_of_mem_parts (hmem hu), hparent⟩

/-- all parents of a tree under the two linkages -/
theorem relinked_heap (hk : ∀ linkage, n.Known corpus linkage) :
    (n.heap corpus .structural).Relinked corpus (n.heap corpus .previousSibling) := by
  have hsame := n.heap_sameButParents corpus .structural .previousSibling
  have hsame' := n.heap_sameButParents corpus .previousSibling .structural
  have htop : ∀ a : Address, a = .nothing ∨ a = .root →
      (n.heap corpus .structural).parent? a = some .nothing ∧
        (n.heap corpus .previousSibling).parent? a = some .nothing := by
    rintro a (rfl | rfl)
    · exact ⟨rfl, rfl⟩
    · exact ⟨parent?_heap_root, parent?_heap_root⟩
  have hfirst : ∀ a spot b, (n.heap corpus .structural).Child corpus a spot b →
      (∀ i, spot ≠ .statement (i + 1)) →
        (n.heap corpus .previousSibling).parent? b = some a := by
    intro a spot b hb hne
    cases spot with
    | arg name => exact parent?_arg (hk _) (hsame.child hb)
    | statement i =>
      rcases parent?_previousSibling (hk _) (hsame.child hb) with ⟨_, hparent⟩ | ⟨j, _, rfl, _⟩
      · exact hparent
      · exact absurd rfl (hne j)
  have hlater : ∀ a i b, (n.heap corpus .structural).Child corpus a (.statement (i + 1)) b →
      ∃ c, (n.heap corpus .structural).Child corpus a (.statement i) c ∧ a < c ∧
        (n.heap corpus .previousSibling).parent? b = some c := by
    intro a i b hb
    rcases parent?_previousSibling (hk _) (hsame.child hb) with ⟨hi, _⟩ | ⟨j, c, hi, hc, hparent⟩
    · cases hi
    · cases hi
      exact ⟨c, hsame'.child hc, hparent⟩
  refine ⟨htop, fun a spot b => parent?_structural (hk _), hfirst, fun a i b hb => ?_,
    fun b => ⟨fun hne => ?_, fun ⟨a, i, hb⟩ => ?_⟩⟩
  · obtain ⟨c, hc, _, hparent⟩ := hlater a i b hb
    exact ⟨c, hc, hparent⟩
  · -- a cell beside the sentinel and the root lies at a spot, and most spots give it the same parent
    have hb : b ≠ .nothing := fun h => hne (by rw [(htop b (.inl h)).1, (htop b (.inl h)).2])
    have hroot : b ≠ .root := fun h => hne (by rw [(htop b (.inr h)).1, (htop b (.inr h)).2])
    have hlt : b < (n.heap corpus .structural).size := by
      by_contra hge
      have hge' := Nat.le_of_not_lt hge
      exact hne (by rw [Heap.parent?_eq_none hge', Heap.parent?_eq_none (hsame.size ▸ hge')])
    rcases ((heap_rooted (hk _)).reached b hb hlt).eq_or_child with h | ⟨a, spot, hchild⟩
    · exact absurd h hroot
    · by_contra hnone
      refine hne ?_
      rw [parent?_structural (hk _) hchild, hfirst a spot b hchild]
      rintro i rfl
      exact hnone ⟨a, i, hchild⟩
  · obtain ⟨c, _, hlt, hparent⟩ := hlater a i b hb
    rw [parent?_structural (hk _) hb, hparent]
    exact fun heq => Nat.ne_of_lt hlt (Option.some.inj heq)

end

/-- **The linkage decides the parents of statements and nothing else.** Whatever the tree, it is
flattened under both linkages, or fails under both with one fault. The two heaps are the same but for
parents, which differ at the statements behind others, and both are read alike, from every address
and under every policy. -/
theorem flatten_linkage (corpus : Corpus) (policy : Policy) (n : Node) :
    (∃ fault, ∀ linkage, n.flatten corpus (policy.withLinkage linkage) = .error fault) ∨
    ∃ h k : Heap, n.flatten corpus (policy.withLinkage .structural) = .ok (h, .root) ∧
      n.flatten corpus (policy.withLinkage .previousSibling) = .ok (k, .root) ∧
      h.SameButParents k ∧ h.Rooted corpus ∧ h.Relinked corpus k ∧
      ∀ corpus' policy' a, h.rebuild corpus' policy' a = k.rebuild corpus' policy' a := by
  cases hf : n.flattenFault? corpus policy.maxDepth policy.maxDepth with
  | some fault =>
    refine .inl ⟨fault, fun linkage => ?_⟩
    rw [flatten_eq]
    show unlessFault (n.flattenFault? corpus policy.maxDepth policy.maxDepth) _ = _
    rw [hf]
    rfl
  | none =>
    have hflat : ∀ linkage, n.flatten corpus (policy.withLinkage linkage)
        = .ok (n.heap corpus linkage, .root) := fun linkage => flatten_eq_ok.mpr ⟨hf, rfl⟩
    have hknown : ∀ linkage, n.Known corpus linkage := fun linkage =>
      known_of_flatten (hflat linkage)
    have hsame := n.heap_sameButParents corpus .structural .previousSibling
    exact .inr ⟨_, _, hflat _, hflat _, hsame, heap_rooted (hknown _), relinked_heap hknown,
      hsame.rebuild_eq⟩

end Node

example : (Sample.greeting.flatten Corpus.builtIn (Policy.default.withLinkage .structural)).map
    (fun r => r.1.cells.toList.map Cell.parent) = .ok [0, 0, 1, 1, 3, 1, 5, 5, 1] := by
  decide +kernel

example : (Sample.greeting.flatten Corpus.builtIn
    (Policy.default.withLinkage .previousSibling)).map (fun r => r.1.cells.toList.map Cell.parent)
      = .ok [0, 0, 1, 2, 3, 3, 5, 5, 1] := by
  decide +kernel

end ScriptHeap
