import Mathlib.Data.Set.Card
import Mathlib.Order.Interval.Finset.Nat
import ScriptHeap.Proofs.FlattenedCheck
import ScriptHeap.Proofs.Twins
/-!
# Heaps up to the choice of addresses

* `Heap.Renames`       a map of addresses carries a heap to another, parent links aside;
* `Heap.renumber`      the map of the pairing;
* `Heap.Twins.renames` the pairing carries a heap to its twin;
* `Heap.rebuild_of_check`   a heap that passed the check is read at every cell, and its tree is
                       flattened to a heap that differs in the choice of addresses only.
-/

namespace ScriptHeap

namespace Heap

/-- a map of addresses carries every cell of a heap to a cell of another, with the same kind, the
same scalars and the mapped links; the parent links are left out -/
structure Renames (h : Heap) (f : Address → Address) (h' : Heap) : Prop where
  bijOn : Set.BijOn f {a | a < h.size} {a | a < h'.size}
  nothing : f .nothing = .nothing
  root : f .root = .root
  cells : ∀ (a : Address) (c : Cell), h.cells[a]? = some c → ∃ c', h'.cells[f a]? = some c' ∧
    c'.kind = c.kind ∧ c'.next = f c.next ∧ c'.body = f c.body ∧
    ∀ name, c'.arg? name = (c.arg? name).map (Arg.map f)

theorem Renames.size_eq {h h' : Heap} {f : Address → Address} (hr : h.Renames f h') :
    h'.size = h.size := by
  have hbij : Set.BijOn f (Finset.range h.size : Set Nat) (Finset.range h'.size : Set Nat) := by
    rw [Finset.coe_range, Finset.coe_range]
    exact hr.bijOn
  have hcard := hbij.finsetCard_eq f
  rw [Finset.card_range, Finset.card_range] at hcard
  exact hcard.symm

/-! ## the renaming -/

open Classical in
/-- the cell that a cell is paired with, or 0 if there is none -/
noncomputable def renumber (h h' : Heap) (corpus : Corpus) (a : Address) : Address :=
  if hp : ∃ a', Paired h h' corpus a a' then hp.choose else .nothing

section
variable {h h' : Heap} {corpus : Corpus} {a a' b b' : Address} {c c' : Cell} {spot : Spot}

theorem Paired.renumber_eq (hp : Paired h h' corpus a a') (ht : Twins h h' corpus) :
    renumber h h' corpus a = a' := by
  have hex : ∃ a', Paired h h' corpus a a' := ⟨a', hp⟩
  unfold renumber
  rw [dif_pos hex]
  exact hex.choose_spec.unique ht hp

theorem Twins.renumber_nothing (ht : Twins h h' corpus) :
    renumber h h' corpus .nothing = .nothing := by
  have hnone : ¬ ∃ a', Paired h h' corpus .nothing a' := by
    intro ⟨a', hp⟩
    exact (hp.inside ht).1 rfl
  unfold renumber
  rw [dif_neg hnone]

theorem Twins.mapsTo_renumber (ht : Twins h h' corpus) :
    Set.MapsTo (renumber h h' corpus) {a | a < h.size} {a | a < h'.size} := by
  intro a ha
  by_cases hzero : a = .nothing
  · rw [hzero, ht.renumber_nothing]
    exact Nat.lt_of_succ_lt ht.size'
  · obtain ⟨a', hp⟩ := ht.exists_paired hzero ha
    rw [hp.renumber_eq ht]
    exact (hp.symm.inside ht.symm).2

/-- only 0 goes to 0, and no two cells are paired with one -/
theorem Twins.injOn_renumber (ht : Twins h h' corpus) :
    Set.InjOn (renumber h h' corpus) {a | a < h.size} := by
  intro a ha b hb heq
  by_cases hzero : a = .nothing
  · by_cases hzero' : b = .nothing
    · rw [hzero, hzero']
    · obtain ⟨b', hq⟩ := ht.exists_paired hzero' hb
      rw [hzero, ht.renumber_nothing, hq.renumber_eq ht] at heq
      exact absurd heq.symm (hq.symm.inside ht.symm).1
  · obtain ⟨a', hp⟩ := ht.exists_paired hzero ha
    by_cases hzero' : b = .nothing
    · rw [hzero', ht.renumber_nothing, hp.renumber_eq ht] at heq
      exact absurd heq (hp.symm.inside ht.symm).1
    · obtain ⟨b', hq⟩ := ht.exists_paired hzero' hb
      rw [hp.renumber_eq ht, hq.renumber_eq ht] at heq
      rw [← heq] at hq
      exact hp.symm.unique ht.symm hq.symm

theorem Twins.surjOn_renumber (ht : Twins h h' corpus) :
    Set.SurjOn (renumber h h' corpus) {a | a < h.size} {a | a < h'.size} := by
  intro a' ha'
  by_cases hzero : a' = .nothing
  · rw [hzero]
    exact ⟨.nothing, Nat.lt_of_succ_lt ht.size, ht.renumber_nothing⟩
  · obtain ⟨a, hp⟩ := ht.symm.exists_paired hzero ha'
    exact ⟨a, (hp.symm.inside ht).2, hp.symm.renumber_eq ht⟩

/-! ## links under the renaming -/

theorem Twins.renumber_linkTo (ht : Twins h h' corpus) (hp : Paired h h' corpus a a')
    (hb : h.LinkTo corpus a spot b) (hb' : h'.LinkTo corpus a' spot b') :
    renumber h h' corpus b = b' := by
  rcases hb with hb | ⟨rfl, hnone⟩
  · obtain ⟨b'', hb'', _⟩ := (hp.alike ht).child hb
    rcases hb' with hb' | ⟨_, hnone'⟩
    · exact (Paired.child hp hb hb').renumber_eq ht
    · exact absurd hb'' (hnone' b'')
  · rcases hb' with hb' | ⟨rfl, _⟩
    · obtain ⟨b'', hb'', _⟩ := (hp.alike ht).symm.child hb'
      exact absurd hb'' (hnone b'')
    · exact ht.renumber_nothing

/-- a cell at an argument is on no chain, so its next link is to nothing -/
theorem Linked.next_of_arg (hl : h.Linked corpus) (hsize : Address.root < h.size) {name : String}
    (hb : h.Child corpus a (.arg name) b) (hc : h.cells[b]? = some c) : c.next = .nothing := by
  refine hl.next b c hc fun a' i hb' => ?_
  obtain ⟨_, hspot⟩ := (hl.rooted hsize).unique hb hb'
  cases hspot

theorem Linked.next_root (hl : h.Linked corpus) (hsize : Address.root < h.size)
    (hc : h.cells[Address.root]? = some c) : c.next = .nothing :=
  hl.next .root c hc fun a' _ hb' => (hl.rooted hsize).root a' _ hb'

/-- next links follow the pairing: two cells of a pair are at the same spot -/
theorem Twins.renumber_next (ht : Twins h h' corpus) (hp : Paired h h' corpus a a')
    (hc : h.cells[a]? = some c) (hc' : h'.cells[a']? = some c') :
    renumber h h' corpus c.next = c'.next := by
  cases hp with
  | root =>
    rw [ht.linked.next_root ht.size hc, ht.linked'.next_root ht.size' hc']
    exact ht.renumber_nothing
  | @child _ _ _ _ spot hp hb hb' =>
    cases spot with
    | statement i => exact ht.renumber_linkTo hp (hb.linkTo_next hc) (hb'.linkTo_next hc')
    | arg name =>
      rw [ht.linked.next_of_arg ht.size hb hc, ht.linked'.next_of_arg ht.size' hb' hc']
      exact ht.renumber_nothing

theorem Twins.renumber_body (ht : Twins h h' corpus) (hp : Paired h h' corpus a a')
    (hc : h.cells[a]? = some c) (hc' : h'.cells[a']? = some c') (hkind : c'.kind = c.kind)
    {shape : KindShape} (hs : corpus.shape? c.kind = some shape)
    {R R' : List Kind → Address → Node → Prop} {body : List Node}
    (hb : BodyShows h R c shape.body body) (hb' : BodyShows h' R' c' shape.body body) :
    renumber h h' corpus c.body = c'.body := by
  have hs' : corpus.shape? c'.kind = some shape := by rwa [hkind]
  cases hrule : shape.body with
  | block kinds =>
    have hblock := KindShape.isBlock_iff.mpr ⟨kinds, hrule⟩
    obtain ⟨l, hl, _⟩ := hb.of_block hrule
    obtain ⟨l', hl', _⟩ := hb'.of_block hrule
    exact ht.renumber_linkTo hp (hl.linkTo_body hc hs hblock) (hl'.linkTo_body hc' hs' hblock)
  | primary name =>
    rw [hrule] at hb hb'
    cases hb with
    | primary harg =>
      cases hb' with
      | primary harg' => exact ht.renumber_linkTo hp (.inl (.arg hc harg)) (.inl (.arg hc' harg'))
  | none =>
    rw [hrule] at hb hb'
    cases hb with
    | none hnone =>
      cases hb' with
      | none hnone' =>
        rw [hnone, hnone']
        exact ht.renumber_nothing

theorem Twins.renumber_arg (ht : Twins h h' corpus) (hp : Paired h h' corpus a a')
    (hc : h.cells[a]? = some c) (hc' : h'.cells[a']? = some c') {spec : Option ArgSpec}
    {name : String} {value : Option (Arg Node)} {R R' : List Kind → Address → Node → Prop}
    (harg : ArgShows R spec (c.arg? name) value) (harg' : ArgShows R' spec (c'.arg? name) value) :
    c'.arg? name = (c.arg? name).map (Arg.map (renumber h h' corpus)) := by
  generalize hu : c.arg? name = u at harg
  generalize hu' : c'.arg? name = u' at harg'
  cases harg with
  | absent =>
    cases harg'
    rfl
  | scalar _ =>
    cases harg'
    rfl
  | nested _ _ _ =>
    cases harg' with
    | @nested _ _ b' _ _ _ _ =>
      have heq := ht.renumber_linkTo hp (.inl (.arg hc hu)) (.inl (.arg hc' hu'))
      show some (Arg.nested b') = some (Arg.nested _)
      rw [heq]

/-- the pairing carries the one heap to the other -/
theorem Twins.renames (ht : Twins h h' corpus) : h.Renames (renumber h h' corpus) h' where
  bijOn := ⟨ht.mapsTo_renumber, ht.injOn_renumber, ht.surjOn_renumber⟩
  nothing := ht.renumber_nothing
  root := Paired.root.renumber_eq ht
  cells a c hc := by
    by_cases hzero : a = .nothing
    · subst hzero
      obtain rfl := Option.some.inj (ht.linked.sentinel.symm.trans hc)
      rw [ht.renumber_nothing]
      exact ⟨.sentinel, ht.linked'.sentinel, rfl, ht.renumber_nothing.symm,
        ht.renumber_nothing.symm, fun _ => rfl⟩
    · obtain ⟨a', hp⟩ := ht.exists_paired hzero (lt_size_of_getElem? hc)
      obtain ⟨d, c', shape, n, hd, hc', hkind, hs, hshow, hshow'⟩ := (hp.alike ht).cells
      obtain rfl := Option.some.inj (hc.symm.trans hd)
      rw [hp.renumber_eq ht]
      refine ⟨c', hc', hkind, (ht.renumber_next hp hc hc').symm, ?_, fun name => ?_⟩
      · exact (ht.renumber_body hp hc hc' hkind hs hshow.body hshow'.body).symm
      · exact ht.renumber_arg hp hc hc' (hshow.args name) (hshow'.args name)

end

/-! ## checked heaps -/

section
variable {h : Heap} {corpus : Corpus} {policy : Policy} {n : Node}

/-- every cell of a well-formed heap is read, at the depth that the number of cells gives -/
theorem exists_rebuild (hw : h.WellFormed corpus) (hsize : Address.root < h.size)
    (hdepth : h.size - 1 ≤ policy.maxDepth) {a : Address} (ha : a ≠ .nothing) (hlt : a < h.size) :
    ∃ n, h.rebuild corpus policy a = .ok n := by
  obtain ⟨k, hdown⟩ := ((hw.rooted hsize).reached a ha hlt).exists_down
  obtain ⟨c, hc⟩ := exists_getElem? hlt
  exact exists_rebuildBelow hw hsize hdown (Nat.le_add_right_of_le hdepth) hc (admits_none _)

/-- a well-formed heap and the heap of its tree are twins -/
theorem twins_heap (hw : h.WellFormed corpus) (hsize : Address.root < h.size)
    (hr : h.rebuild corpus policy .root = .ok n) :
    Twins h (n.heap corpus policy.linkage) corpus where
  linked := hw.linked
  linked' := (Node.heap_wellFormed (valid_of_rebuildBelow hr)).linked
  size := hsize
  size' := by
    rw [Node.size_heap]
    exact Nat.succ_lt_succ (Node.cellCount_pos corpus n)
  alike := by
    have hback := (Node.rebuild_flatten (ordered_of_rebuildBelow hr) (valid_of_rebuildBelow hr)).2
    exact ⟨n, ⟨_, _, _, hr⟩, ⟨_, _, _, hback⟩⟩

/-- **A heap that passed the check is read at every cell.** The tree at cell 1 is valid, has a node
for each cell beside the sentinel, and is flattened to the heap up to the choice of addresses. -/
theorem rebuild_of_check (hok : h.check corpus = .ok ()) (hsize : Address.root < h.size)
    (hdepth : h.size - 1 ≤ policy.maxDepth) :
    (∀ a : Address, a ≠ .nothing → a < h.size → ∃ n, h.rebuild corpus policy a = .ok n) ∧
    ∃ t, h.rebuild corpus policy .root = .ok t ∧ t.check corpus policy = .ok () ∧
      t.count = h.size - 1 ∧ ∃ h' f, t.flatten corpus policy = .ok (h', .root) ∧
        h.Renames f h' := by
  have hw := wellFormed_of_check hok
  have hall : ∀ a : Address, a ≠ .nothing → a < h.size → ∃ n, h.rebuild corpus policy a = .ok n :=
    fun a ha hlt => exists_rebuild hw hsize hdepth ha hlt
  obtain ⟨t, ht⟩ := hall .root Nat.one_ne_zero hsize
  have hv : t.Valid corpus policy.maxDepth none := valid_of_rebuildBelow ht
  have hn : t.Ordered := ordered_of_rebuildBelow ht
  have hrenames := (twins_heap hw hsize ht).renames
  have hcount : t.count = h.size - 1 := by
    rw [← hrenames.size_eq, Node.size_heap, Node.cellCount_eq_count hn hv]
    rfl
  exact ⟨hall, t, ht, Node.check_eq_ok.mpr hv, hcount, _, _, (Node.rebuild_flatten hn hv).1,
    hrenames⟩

end

end Heap

/-- a sequence with an argument at 2 and two statements, of which the first stands last -/
def Sample.shuffled : Heap where
  cells := #[.sentinel,
    ⟨.sequence, .nothing, .nothing, 4, ⟨[("locals", .nested 2), ("version", .scalar (.integer 1))],
      by decide⟩⟩,
    { Cell.ofKind .scopeDeclaration with parent := 1 },
    { Cell.ofKind .takePhoto with parent := 1 },
    { Cell.ofKind .takePhoto with parent := 1, next := 3 }]

theorem Sample.shuffled_comes_back : ∃ t,
    Sample.shuffled.rebuild Corpus.builtIn .default .root = .ok t ∧ t.count = 4 ∧
      ∃ h' f, t.flatten Corpus.builtIn .default = .ok (h', .root) ∧
        Sample.shuffled.Renames f h' := by
  have hok : Sample.shuffled.check Corpus.builtIn = .ok () := by decide +kernel
  have hsize : Address.root < Sample.shuffled.size := by decide
  have hdepth : Sample.shuffled.size - 1 ≤ Policy.default.maxDepth := by decide
  obtain ⟨_, t, ht, _, hcount, hflat⟩ := Heap.rebuild_of_check hok hsize hdepth
  exact ⟨t, ht, hcount, hflat⟩

end ScriptHeap
