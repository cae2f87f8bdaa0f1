import ScriptHeap.Proofs.CheckedRebuild
/-!
# Two heaps of one tree

* `Heap.Alike`         the same tree is read at a cell of each heap;
* `Heap.LinkTo`        where a link leads: to what lies below a cell at a spot, or to 0;
* `Heap.Twins`         two heaps, one tree each, from which the same tree is read;
* `Heap.Paired`        the same spots lead to a cell of each heap; in twins every cell has one partner.
-/

namespace ScriptHeap

namespace Heap

/-! ## cells that show the same tree -/

/-- the same tree is read at a cell of each heap -/
def Alike (h h' : Heap) (corpus : Corpus) (a a' : Address) : Prop :=
  ∃ n, h.Reads corpus a n ∧ h'.Reads corpus a' n

section
variable {h h' : Heap} {corpus : Corpus} {a a' b : Address} {spot : Spot}

theorem Alike.symm (ha : h.Alike h' corpus a a') : h'.Alike h corpus a' a := by
  obtain ⟨n, hr, hr'⟩ := ha
  exact ⟨n, hr', hr⟩

/-- both cells show the node, so they have one kind -/
theorem Alike.cells (ha : h.Alike h' corpus a a') : ∃ c c' shape n, h.cells[a]? = some c ∧
    h'.cells[a']? = some c' ∧ c'.kind = c.kind ∧ corpus.shape? c.kind = some shape ∧
    c.Shows h (fun _ b m => h.Reads corpus b m) shape n ∧
    c'.Shows h' (fun _ b m => h'.Reads corpus b m) shape n := by
  obtain ⟨n, hr, hr'⟩ := ha
  obtain ⟨c, shape, hc, hs, hshow⟩ := hr.shows
  obtain ⟨c', shape', hc', hs', hshow'⟩ := hr'.shows
  have hkind : c'.kind = c.kind := Kind.name_injective (hshow'.kind.symm.trans hshow.kind)
  rw [hkind] at hs'
  obtain rfl := Option.some.inj (hs.symm.trans hs')
  exact ⟨c, c', shape, n, hc, hc', hkind, hs, hshow, hshow'⟩

/-- what lies below the one cell has its like below the other, at the same spot -/
theorem Alike.child (ha : h.Alike h' corpus a a') (hb : h.Child corpus a spot b) :
    ∃ b', h'.Child corpus a' spot b' ∧ h.Alike h' corpus b b' := by
  obtain ⟨c, c', shape, n, hc, hc', hkind, hs, hshow, hshow'⟩ := ha.cells
  cases hb with
  | @statement d e shape₁ l i _ hd hs₁ hblock hl hi =>
    obtain rfl := Option.some.inj (hc.symm.trans hd)
    obtain rfl := Option.some.inj (hs.symm.trans hs₁)
    obtain ⟨kinds, hrule⟩ := KindShape.isBlock_iff.mp hblock
    obtain ⟨l₁, hl₁, hrel⟩ := hshow.body.of_block hrule
    obtain ⟨l', hl', hrel'⟩ := hshow'.body.of_block hrule
    obtain rfl := hl.unique hl₁
    obtain ⟨m, hm, hread⟩ := exists_getElem?_of_forall₂ hrel.flip hi
    obtain ⟨⟨b', e'⟩, hi', hread'⟩ := exists_getElem?_of_forall₂ hrel' hm
    rw [← hkind] at hs
    exact ⟨b', .statement hc' hs hblock hl' hi', m, hread, hread'⟩
  | @arg d name _ hd harg =>
    obtain rfl := Option.some.inj (hc.symm.trans hd)
    have hargs := hshow.args name
    have hargs' := hshow'.args name
    rw [harg] at hargs
    generalize n.arg? name = v, shape.arg? name = spec at hargs hargs'
    generalize hu : c'.arg? name = u at hargs'
    cases hargs with
    | nested _ _ hread =>
      cases hargs' with
      | nested _ _ hread' => exact ⟨_, .arg hc' hu, _, hread, hread'⟩

end

/-! ## what a link leads to -/

/-- an address is what lies below a cell at a spot, or 0 if nothing does -/
def LinkTo (h : Heap) (corpus : Corpus) (a : Address) (spot : Spot) (b : Address) : Prop :=
  h.Child corpus a spot b ∨ b = .nothing ∧ ∀ b', ¬ h.Child corpus a spot b'

section
variable {h : Heap} {corpus : Corpus} {a b : Address} {c : Cell} {i : Nat}

/-- a chain leads to its statements, and then to 0 -/
theorem linkTo_statement {shape : KindShape} {l : List (Address × Cell)}
    (hc : h.cells[a]? = some c) (hs : corpus.shape? c.kind = some shape)
    (hblock : shape.isBlock = true) (hl : h.Follows c.body l) :
    h.LinkTo corpus a (.statement i) (((l[i]?).map Prod.fst).getD .nothing) := by
  cases hi : l[i]? with
  | some e => exact .inl (.statement hc hs hblock hl hi)
  | none =>
    refine .inr ⟨rfl, fun b' hb' => ?_⟩
    cases hb' with
    | statement hc' _ _ hl' hi' =>
      obtain rfl := Option.some.inj (hc.symm.trans hc')
      obtain rfl := hl.unique hl'
      rw [hi] at hi'
      cases hi'

theorem Follows.linkTo_body {shape : KindShape} {l : List (Address × Cell)}
    (hl : h.Follows c.body l) (hc : h.cells[a]? = some c) (hs : corpus.shape? c.kind = some shape)
    (hblock : shape.isBlock = true) : h.LinkTo corpus a (.statement 0) c.body := by
  rw [hl.head]
  exact linkTo_statement hc hs hblock hl

theorem Child.linkTo_next (ha : h.Child corpus b (.statement i) a) (hc : h.cells[a]? = some c) :
    h.LinkTo corpus b (.statement (i + 1)) c.next := by
  cases ha with
  | statement hd hs hblock hl hi =>
    have hmem := (hl.mem (List.mem_of_getElem? hi)).2
    obtain rfl := Option.some.inj (hc.symm.trans hmem)
    rw [hl.next_getElem? hi]
    exact linkTo_statement hd hs hblock hl

end

/-! ## two heaps of one tree -/

/-- each heap is one tree below cell 1, and the same tree is read from both -/
structure Twins (h h' : Heap) (corpus : Corpus) : Prop where
  linked : h.Linked corpus
  linked' : h'.Linked corpus
  size : Address.root < h.size
  size' : Address.root < h'.size
  alike : h.Alike h' corpus .root .root

/-- the same spots lead from cell 1 to a cell of each heap -/
inductive Paired (h h' : Heap) (corpus : Corpus) : Address → Address → Prop
  | root : Paired h h' corpus .root .root
  | child {a a' b b' : Address} {spot : Spot} (ha : Paired h h' corpus a a')
    (hb : h.Child corpus a spot b) (hb' : h'.Child corpus a' spot b') : Paired h h' corpus b b'

section
variable {h h' : Heap} {corpus : Corpus} {a a' b b' : Address} {spot : Spot}

theorem Twins.symm (ht : Twins h h' corpus) : Twins h' h corpus :=
  ⟨ht.linked', ht.linked, ht.size', ht.size, ht.alike.symm⟩

theorem Paired.symm (hp : Paired h h' corpus a a') : Paired h' h corpus a' a := by
  induction hp with
  | root => exact .root
  | child _ hb hb' ih => exact .child ih hb' hb

theorem Paired.inside (hp : Paired h h' corpus a a') (ht : Twins h h' corpus) :
    a ≠ .nothing ∧ a < h.size := by
  cases hp with
  | root => exact ⟨Nat.one_ne_zero, ht.size⟩
  | child _ hb _ => exact ht.linked.inside hb

theorem Paired.alike (hp : Paired h h' corpus a a') (ht : Twins h h' corpus) :
    h.Alike h' corpus a a' := by
  induction hp with
  | root => exact ht.alike
  | child _ hb hb' ih =>
    obtain ⟨b'', hb'', halike⟩ := ih.child hb
    rw [hb'.target_unique hb'']
    exact halike

/-- a cell is reached in one way only, so it is paired with one cell only -/
theorem Paired.unique (ht : Twins h h' corpus) (hp : Paired h h' corpus a b)
    (hq : Paired h h' corpus a b') : b = b' := by
  have hr := ht.linked.rooted ht.size
  induction hp generalizing b' with
  | root =>
    cases hq with
    | root => rfl
    | child _ hb _ => exact absurd hb (hr.root _ _)
  | child _ hb hb' ih =>
    cases hq with
    | root => exact absurd hb (hr.root _ _)
    | child hq hd hd' =>
      obtain ⟨rfl, rfl⟩ := hr.unique hb hd
      obtain rfl := ih hq
      exact hb'.target_unique hd'

theorem Twins.exists_paired (ht : Twins h h' corpus) (ha : a ≠ .nothing) (hlt : a < h.size) :
    ∃ a', Paired h h' corpus a a' := by
  have hreach := (ht.linked.rooted ht.size).reached a ha hlt
  clear ha hlt
  induction hreach with
  | self => exact ⟨.root, .root⟩
  | child _ hb ih =>
    obtain ⟨a', hp⟩ := ih
    obtain ⟨b', hb', _⟩ := (hp.alike ht).child hb
    exact ⟨b', .child hp hb hb'⟩

end

end Heap

end ScriptHeap
