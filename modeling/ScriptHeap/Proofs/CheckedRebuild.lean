import ScriptHeap.Proofs.Rebuilt
import ScriptHeap.Proofs.WellFormed
/-!
# Reading a heap that passed the check

* `Heap.Down`          how many steps a cell is below cell 1; each cell has one depth, less than the
                       number of cells;
* `Heap.exists_rebuildBelow`   every cell of a well-formed heap is read as a tree, if the levels left
                       and the depth of the cell together reach the number of cells;
* `Heap.Reads`         the tree that is read at a cell, however many levels were left.
-/

namespace ScriptHeap

namespace Heap

/-! ## depth -/

/-- a cell is so many steps below cell 1 -/
inductive Down (h : Heap) (corpus : Corpus) : Nat → Address → Prop
  | root : Down h corpus 0 .root
  | child {k : Nat} {a b : Address} {spot : Spot} (ha : Down h corpus k a)
    (hb : h.Child corpus a spot b) : Down h corpus (k + 1) b

section
variable {h : Heap} {corpus : Corpus} {a b : Address} {k j : Nat}

theorem Reaches.exists_down (hb : h.Reaches corpus .root b) : ∃ k, h.Down corpus k b := by
  induction hb with
  | self => exact ⟨0, .root⟩
  | child _ hc ih =>
    obtain ⟨k, hk⟩ := ih
    exact ⟨k + 1, .child hk hc⟩

theorem Down.unique (hr : h.Rooted corpus) (hk : h.Down corpus k a) (hj : h.Down corpus j a) :
    k = j := by
  induction hk generalizing j with
  | root =>
    cases hj with
    | root => rfl
    | child _ hc => exact absurd hc (hr.root _ _)
  | child _ hc ih =>
    cases hj with
    | root => exact absurd hc (hr.root _ _)
    | child hj hc' =>
      obtain ⟨rfl, _⟩ := hr.unique hc hc'
      rw [ih hj]

theorem Down.inside (hl : h.Linked corpus) (hsize : Address.root < h.size)
    (hk : h.Down corpus k a) : a ≠ .nothing ∧ a < h.size := by
  cases hk with
  | root => exact ⟨Nat.one_ne_zero, hsize⟩
  | child _ hc => exact hl.inside hc

/-- the cells on the way down are different, since their depths are -/
theorem Down.exists_path (hl : h.Linked corpus) (hsize : Address.root < h.size)
    (hk : h.Down corpus k a) : ∃ l : List Address, l.length = k + 1 ∧ l.Nodup ∧
      ∀ x ∈ l, ∃ j ≤ k, h.Down corpus j x := by
  induction hk with
  | root => exact ⟨[.root], rfl, List.nodup_singleton _, fun x hx =>
      ⟨0, Nat.le_refl 0, List.mem_singleton.mp hx ▸ .root⟩⟩
  | @child k a b spot hk hc ih =>
    obtain ⟨l, hlen, hnodup, hall⟩ := ih
    have hb : h.Down corpus (k + 1) b := .child hk hc
    refine ⟨b :: l, congrArg (· + 1) hlen, List.nodup_cons.mpr ⟨fun hmem => ?_, hnodup⟩, ?_⟩
    · obtain ⟨j, hj, hdown⟩ := hall b hmem
      have heq := hb.unique (hl.rooted hsize) hdown
      omega
    · refine List.forall_mem_cons.mpr ⟨⟨k + 1, Nat.le_refl _, hb⟩, fun x hx => ?_⟩
      obtain ⟨j, hj, hdown⟩ := hall x hx
      exact ⟨j, Nat.le_succ_of_le hj, hdown⟩

theorem Down.lt_size (hl : h.Linked corpus) (hsize : Address.root < h.size)
    (hk : h.Down corpus k a) : k < h.size - 1 := by
  obtain ⟨l, hlen, hnodup, hall⟩ := hk.exists_path hl hsize
  have hle := length_le_of_nodup (n := h.size) hnodup fun x hx => by
    obtain ⟨j, _, hdown⟩ := hall x hx
    exact hdown.inside hl hsize
  omega

end

/-! ## every cell is read -/

section
variable {h : Heap} {corpus : Corpus} {limit : Nat}

/-- the reading of a cell succeeds when that of the cells below it does -/
theorem exists_rebuildBelow_succ {levels : Nat} {allowed : Option (List Kind)} {a : Address}
    {c : Cell} {shape : KindShape} (hc : h.cells[a]? = some c)
    (hs : corpus.shape? c.kind = some shape) (hsound : h.CellSound shape c)
    (hchain : h.ChainSound corpus c) (hk : Admits allowed c.kind)
    (ih : ∀ spot b d kinds, h.Child corpus a spot b → h.cells[b]? = some d → d.kind ∈ kinds →
      ∃ n, h.rebuildBelow corpus limit levels (some kinds) b = .ok n) :
    ∃ n, h.rebuildBelow corpus limit (levels + 1) allowed a = .ok n := by
  have hargs : ∀ spec ∈ shape.args, ∃ e : String × Arg Node, e.1 = spec.name ∧
      ArgShows (fun kinds b m => h.rebuildBelow corpus limit levels (some kinds) b = .ok m)
        (some spec) (c.arg? spec.name) (some e.2) := by
    intro spec hspec
    cases ht : spec.type.isNode with
    | false =>
      obtain ⟨s, hv, hacc⟩ := hsound.scalars spec hspec ht
      rw [hv]
      exact ⟨(spec.name, .scalar s), rfl, .scalar hacc⟩
    | true =>
      obtain ⟨kinds, hkinds⟩ := ArgType.isNode_iff.mp ht
      obtain ⟨b, d, hv, hb, hd, hkind⟩ := hsound.nodes spec hspec kinds hkinds
      obtain ⟨n, hn⟩ := ih _ b d kinds (.arg hc hv) hd hkind
      rw [hv]
      exact ⟨(spec.name, .nested n), rfl, .nested hkinds hb hn⟩
  have hbody : ∃ body, BodyShows h
      (fun kinds b m => h.rebuildBelow corpus limit levels (some kinds) b = .ok m)
      c shape.body body := by
    cases hrule : shape.body with
    | none => exact ⟨[], .none (hsound.leaf hrule)⟩
    | primary name => exact ⟨[], .primary (hsound.primary name hrule)⟩
    | block kinds =>
      obtain ⟨l, hl, hkinds⟩ := hchain shape kinds hs hrule
      have hblock := KindShape.isBlock_iff.mpr ⟨kinds, hrule⟩
      have hall : ∀ e ∈ l, ∃ n, h.rebuildBelow corpus limit levels (some kinds) e.1 = .ok n := by
        intro e he
        obtain ⟨i, hi⟩ := List.mem_iff_getElem?.mp he
        exact ih (.statement i) e.1 e.2 kinds (.statement hc hs hblock hl hi) (hl.mem he).2
          (hkinds e he)
      obtain ⟨body, hrel⟩ := exists_forall₂ hall
      exact ⟨body, .block hl hrel⟩
  obtain ⟨args, hfa⟩ := exists_forall₂ hargs
  obtain ⟨body, hbody⟩ := hbody
  exact ⟨_, rebuildBelow_succ_args.mpr
    ⟨c, shape, hc, hs, hk, hsound.linked.declared, args, body, hfa, hbody, rfl⟩⟩

theorem exists_rebuildBelow (hw : h.WellFormed corpus) (hsize : Address.root < h.size)
    {levels k : Nat} {allowed : Option (List Kind)} {a : Address} {c : Cell}
    (hdown : h.Down corpus k a) (hlevels : h.size - 1 ≤ levels + k) (hc : h.cells[a]? = some c)
    (hk : Admits allowed c.kind) : ∃ n, h.rebuildBelow corpus limit levels allowed a = .ok n := by
  induction levels generalizing k allowed a c with
  | zero =>
    have hlt := hdown.lt_size hw.linked hsize
    omega
  | succ levels ih =>
    have ha := (hdown.inside hw.linked hsize).1
    obtain ⟨shape, hs, hsound⟩ := hw.cells a c ha hc
    refine exists_rebuildBelow_succ hc hs hsound (hw.chains a c hc) hk
      fun spot b d kinds hb hd hkind => ?_
    exact ih (.child hdown hb) (by omega) hd (admits_some.mpr hkind)

end

/-! ## the tree at a cell -/

/-- a tree is read at a cell, with some levels left and some kinds admitted -/
def Reads (h : Heap) (corpus : Corpus) (a : Address) (n : Node) : Prop :=
  ∃ limit levels allowed, h.rebuildBelow corpus limit levels allowed a = .ok n

section
variable {h : Heap} {corpus : Corpus} {a : Address} {n : Node}

theorem Reads.shows (hr : h.Reads corpus a n) : ∃ c shape, h.cells[a]? = some c ∧
    corpus.shape? c.kind = some shape ∧ c.Shows h (fun _ b m => h.Reads corpus b m) shape n := by
  obtain ⟨limit, levels, allowed, hok⟩ := hr
  cases levels with
  | zero => cases hok
  | succ levels =>
    obtain ⟨c, shape, hc, hs, _, hshow⟩ := rebuildBelow_succ.mp hok
    exact ⟨c, shape, hc, hs, hshow.imp fun kinds b m hm => ⟨limit, levels, some kinds, hm⟩⟩

end

end Heap

end ScriptHeap
