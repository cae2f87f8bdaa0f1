import ScriptHeap.Proofs.Twins
/-!
# Pointers

* `Pointer`            a link of a cell other than the parent link, or an argument;
* `Cell.pointer?`, `Heap.pointer?`   where a pointer leads;
* `Heap.Points`        a pointer leads to a cell on its own account: the body of a cell without
                       statements only repeats an argument, so it does not count;
* `Heap.Realizes`      the pointer that puts a cell below another at a spot;
* `Heap.WellFormed.points_unique`, `Heap.WellFormed.exists_points`   in a well-formed heap one
                       pointer leads to each cell, and none to cell 1;
* `Heap.SameBut`       two heaps of the same kinds that agree in all pointers but one;
* `Heap.WellFormed.pointer_eq`   if both are well-formed, they agree in that one too.
-/

namespace ScriptHeap

/-- a link of a cell other than the parent link, or an argument -/
inductive Pointer where
  | next
  | body
  | arg (name : String)
deriving DecidableEq

/-- where a pointer of a cell leads; an argument that is a scalar is no pointer -/
def Cell.pointer? (c : Cell) : Pointer → Option Address
  | .next => some c.next
  | .body => some c.body
  | .arg name => (c.arg? name).bind Arg.nested?

theorem Cell.pointer?_arg_iff {c : Cell} {name : String} {b : Address} :
    c.pointer? (.arg name) = some b ↔ c.arg? name = some (.nested b) := by
  show (c.arg? name).bind Arg.nested? = some b ↔ _
  rcases c.arg? name with _ | (s | d) <;> simp [Arg.nested?]

namespace Heap

def pointer? (h : Heap) (a : Address) (p : Pointer) : Option Address :=
  h.cells[a]?.bind fun c => c.pointer? p

/-- the shape of the cell at an address -/
def shapeAt? (h : Heap) (corpus : Corpus) (a : Address) : Option KindShape :=
  h.cells[a]?.bind fun c => corpus.shape? c.kind

/-- a pointer stands for itself, unless it is the body of a cell without statements -/
def Stands (h : Heap) (corpus : Corpus) (a : Address) (p : Pointer) : Prop :=
  p = .body → ∃ shape, h.shapeAt? corpus a = some shape ∧ shape.isBlock = true

/-- a pointer that stands for itself leads to a cell -/
structure Points (h : Heap) (corpus : Corpus) (a : Address) (p : Pointer) (b : Address) : Prop where
  leads : h.pointer? a p = some b
  ne_nothing : b ≠ .nothing
  stands : h.Stands corpus a p

section
variable {h : Heap} {corpus : Corpus} {a a' b : Address} {p p' : Pointer} {spot : Spot} {c : Cell}

theorem pointer?_eq (hc : h.cells[a]? = some c) (p : Pointer) : h.pointer? a p = c.pointer? p := by
  show h.cells[a]?.bind _ = _
  rw [hc]
  rfl

theorem exists_cell_of_pointer? (hp : h.pointer? a p = some b) :
    ∃ c, h.cells[a]? = some c ∧ c.pointer? p = some b := Option.bind_eq_some_iff.mp hp

theorem shapeAt?_eq (hc : h.cells[a]? = some c) : h.shapeAt? corpus a = corpus.shape? c.kind := by
  show h.cells[a]?.bind _ = _
  rw [hc]
  rfl

/-! ## pointers and spots -/

/-- what a pointer leads to lies at a spot: the body of a block at its first statement, the next link
of a statement at the one after it -/
inductive Realizes (h : Heap) (corpus : Corpus) : Address → Pointer → Address → Spot → Prop
  | next {a a' : Address} {i : Nat} (ha : h.Child corpus a' (.statement i) a) :
    Realizes h corpus a .next a' (.statement (i + 1))
  | body {a : Address} : Realizes h corpus a .body a (.statement 0)
  | arg {a : Address} {name : String} : Realizes h corpus a (.arg name) a (.arg name)

theorem Realizes.unique {e : Address} (hp : h.Realizes corpus a p e spot)
    (hp' : h.Realizes corpus a' p' e spot) : a = a' ∧ p = p' := by
  cases hp with
  | next ha =>
    cases hp' with
    | next ha' => exact ⟨ha.target_unique ha', rfl⟩
  | body =>
    cases hp' with
    | body => exact ⟨rfl, rfl⟩
  | arg =>
    cases hp' with
    | arg => exact ⟨rfl, rfl⟩

/-- what lies at a spot is what the pointer leads to -/
theorem Child.exists_realizes (hb : h.Child corpus a spot b) (hne : b ≠ .nothing) :
    ∃ x p, h.Realizes corpus x p a spot ∧ h.Points corpus x p b := by
  cases hb with
  | @statement c d shape l i _ hc hs hblock hl hi =>
    cases i with
    | zero =>
      have hhead : c.body = b := by
        rw [hl.head, hi]
        rfl
      have hshape : h.shapeAt? corpus a = some shape := by rw [shapeAt?_eq hc, hs]
      refine ⟨a, .body, .body, ?_, hne, fun _ => ⟨shape, hshape, hblock⟩⟩
      rw [pointer?_eq hc, ← hhead]
      rfl
    | succ i =>
      -- the statement before it is the one whose next link leads here
      have hlt : i < l.length := Nat.lt_of_succ_lt (List.getElem?_eq_some_iff.mp hi).1
      obtain ⟨⟨x, e⟩, hx⟩ : ∃ e, l[i]? = some e := ⟨_, List.getElem?_eq_getElem hlt⟩
      have hcell := (hl.mem (List.mem_of_getElem? hx)).2
      have hnext : e.next = b := by
        rw [hl.next_getElem? hx, hi]
        rfl
      refine ⟨x, .next, .next (.statement hc hs hblock hl hx), ?_, hne, nofun⟩
      rw [pointer?_eq hcell, ← hnext]
      rfl
  | @arg c name _ hc harg =>
    refine ⟨a, .arg name, .arg, ?_, hne, nofun⟩
    rw [pointer?_eq hc, Cell.pointer?_arg_iff, harg]

/-- in a well-formed heap a pointer leads to what lies at its spot -/
theorem WellFormed.exists_child (hw : h.WellFormed corpus) (hp : h.Points corpus a p b) :
    ∃ x spot, h.Realizes corpus a p x spot ∧ h.Child corpus x spot b := by
  obtain ⟨hlead, hne, hstands⟩ := hp
  obtain ⟨c, hc, hb⟩ := exists_cell_of_pointer? hlead
  cases p with
  | next =>
    obtain rfl : c.next = b := Option.some.inj hb
    -- a cell with a next link is a statement
    obtain ⟨x, i, ha⟩ : ∃ x i, h.Child corpus x (.statement i) a := by
      by_contra hnone
      apply hne
      apply hw.next a c hc
      intro x i ha
      exact hnone ⟨x, i, ha⟩
    refine ⟨x, .statement (i + 1), .next ha, ?_⟩
    rcases ha.linkTo_next hc with hchild | ⟨hzero, _⟩
    · exact hchild
    · exact absurd hzero hne
  | body =>
    obtain rfl : c.body = b := Option.some.inj hb
    obtain ⟨shape, hshape, hblock⟩ := hstands rfl
    rw [shapeAt?_eq hc] at hshape
    obtain ⟨l, hl⟩ := (hw.chains a c hc).ends shape hshape hblock
    refine ⟨a, .statement 0, .body, ?_⟩
    rcases hl.linkTo_body hc hshape hblock with hchild | ⟨hzero, _⟩
    · exact hchild
    · exact absurd hzero hne
  | arg name => exact ⟨a, .arg name, .arg, .arg hc (Cell.pointer?_arg_iff.mp hb)⟩

/-! ## one pointer for each cell -/

theorem WellFormed.inside (hw : h.WellFormed corpus) (hp : h.Points corpus a p b) :
    b < h.size ∧ b ≠ .root := by
  obtain ⟨x, spot, _, hb⟩ := hw.exists_child hp
  have hlt := (hw.linked.inside hb).2
  refine ⟨hlt, ?_⟩
  rintro rfl
  exact (hw.tree hlt).1 x spot hb

theorem WellFormed.points_unique (hw : h.WellFormed corpus) (hp : h.Points corpus a p b)
    (hp' : h.Points corpus a' p' b) : a = a' ∧ p = p' := by
  obtain ⟨x, spot, hreal, hb⟩ := hw.exists_child hp
  obtain ⟨x', spot', hreal', hb'⟩ := hw.exists_child hp'
  obtain ⟨hne, hlt⟩ := hw.linked.inside hb
  have hsize : Address.root < h.size := Nat.lt_of_le_of_lt (Nat.one_le_iff_ne_zero.mpr hne) hlt
  obtain ⟨rfl, rfl⟩ := (hw.rooted hsize).unique hb hb'
  exact hreal.unique hreal'

theorem WellFormed.exists_points (hw : h.WellFormed corpus) (hne : b ≠ .nothing)
    (hroot : b ≠ .root) (hlt : b < h.size) : ∃ a p, h.Points corpus a p b := by
  have hsize : Address.root < h.size := Nat.lt_of_le_of_lt (Nat.one_le_iff_ne_zero.mpr hne) hlt
  obtain ⟨⟨x, spot⟩, hb, _⟩ := (hw.tree hsize).2.1 b hne hroot hlt
  obtain ⟨a, p, _, hp⟩ := hb.exists_realizes hne
  exact ⟨a, p, hp⟩

end

/-! ## heaps that agree in all pointers but one -/

/-- two heaps with cells of the same kinds that agree in all pointers but one -/
structure SameBut (h h' : Heap) (a : Address) (p : Pointer) : Prop where
  kind : ∀ x : Address, h.cells[x]?.map Cell.kind = h'.cells[x]?.map Cell.kind
  pointer : ∀ x q, (x, q) ≠ (a, p) → h.pointer? x q = h'.pointer? x q

section
variable {h h' : Heap} {corpus : Corpus} {a b b' : Address} {p : Pointer}

theorem SameBut.symm (hs : h.SameBut h' a p) : h'.SameBut h a p :=
  ⟨fun x => (hs.kind x).symm, fun x q hne => (hs.pointer x q hne).symm⟩

theorem SameBut.shapeAt?_eq (hs : h.SameBut h' a p) (x : Address) :
    h.shapeAt? corpus x = h'.shapeAt? corpus x := by
  have hkind : ∀ k : Heap, k.shapeAt? corpus x = (k.cells[x]?.map Cell.kind).bind corpus.shape? := by
    intro k
    show k.cells[x]?.bind _ = _
    rw [Option.bind_map]
    rfl
  rw [hkind, hkind, hs.kind]

theorem SameBut.stands (hs : h.SameBut h' a p) {x : Address} {q : Pointer}
    (hq : h.Stands corpus x q) : h'.Stands corpus x q := by
  intro heq
  obtain ⟨shape, hshape, hblock⟩ := hq heq
  rw [hs.shapeAt?_eq] at hshape
  exact ⟨shape, hshape, hblock⟩

theorem SameBut.lt_size (hs : h.SameBut h' a p) {x : Address} (hx : x < h.size) : x < h'.size := by
  obtain ⟨c, hc⟩ := exists_getElem? hx
  have hkind := hs.kind x
  rw [hc] at hkind
  obtain ⟨c', hc', _⟩ := Option.map_eq_some_iff.mp hkind.symm
  exact lt_size_of_getElem? hc'

/-- the cell that the pointer leads to in the one heap needs a pointer in the other, and there is no
other that could lead to it -/
theorem WellFormed.target_eq (hw : h.WellFormed corpus) (hw' : h'.WellFormed corpus)
    (hs : h.SameBut h' a p) (hp : h.Points corpus a p b) : h'.pointer? a p = some b := by
  obtain ⟨hlt, hroot⟩ := hw.inside hp
  obtain ⟨x, q, hq⟩ := hw'.exists_points hp.ne_nothing hroot (hs.lt_size hlt)
  by_cases heq : (x, q) = (a, p)
  · cases heq
    exact hq.leads
  · have hlead : h.pointer? x q = some b := by rw [hs.pointer x q heq, hq.leads]
    have hpoints : h.Points corpus x q b := ⟨hlead, hq.ne_nothing, hs.symm.stands hq.stands⟩
    obtain ⟨rfl, rfl⟩ := hw.points_unique hpoints hp
    exact absurd rfl heq

/-- the body of a cell without statements is told by its arguments -/
theorem WellFormed.body_eq (hw : h.WellFormed corpus) (hw' : h'.WellFormed corpus)
    (hs : h.SameBut h' a .body) (hb : h.pointer? a .body = some b)
    (hb' : h'.pointer? a .body = some b') (hleaf : ¬ h.Stands corpus a .body) : b = b' := by
  obtain ⟨c, hc, hcb⟩ := exists_cell_of_pointer? hb
  obtain ⟨c', hc', hcb'⟩ := exists_cell_of_pointer? hb'
  obtain rfl : c.body = b := Option.some.inj hcb
  obtain rfl : c'.body = b' := Option.some.inj hcb'
  by_cases ha : a = .nothing
  · subst ha
    obtain rfl := Option.some.inj (hw.sentinel.symm.trans hc)
    obtain rfl := Option.some.inj (hw'.sentinel.symm.trans hc')
    rfl
  · obtain ⟨shape, hshape, hsound⟩ := hw.cells a c ha hc
    obtain ⟨shape', hshape', hsound'⟩ := hw'.cells a c' ha hc'
    have heq : h.shapeAt? corpus a = h'.shapeAt? corpus a := hs.shapeAt?_eq a
    rw [Heap.shapeAt?_eq hc, Heap.shapeAt?_eq hc', hshape, hshape'] at heq
    obtain rfl := Option.some.inj heq
    cases hrule : shape.body with
    | none => rw [hsound.leaf hrule, hsound'.leaf hrule]
    | primary name =>
      have harg := hs.pointer a (.arg name) nofun
      rw [pointer?_eq hc, pointer?_eq hc', Cell.pointer?_arg_iff.mpr (hsound.primary name hrule),
        Cell.pointer?_arg_iff.mpr (hsound'.primary name hrule)] at harg
      exact Option.some.inj harg
    | block kinds =>
      have hstands : h.Stands corpus a .body := fun _ =>
        ⟨shape, (Heap.shapeAt?_eq hc).trans hshape, KindShape.isBlock_iff.mpr ⟨kinds, hrule⟩⟩
      exact absurd hstands hleaf

/-- well-formed heaps that agree in all pointers but one agree in that one too -/
theorem WellFormed.pointer_eq (hw : h.WellFormed corpus) (hw' : h'.WellFormed corpus)
    (hs : h.SameBut h' a p) (hb : h.pointer? a p = some b) (hb' : h'.pointer? a p = some b') :
    b = b' := by
  by_cases hstands : h.Stands corpus a p
  · by_cases hne : b = .nothing
    · by_cases hne' : b' = .nothing
      · rw [hne, hne']
      · have heq := hw'.target_eq hw hs.symm ⟨hb', hne', hs.stands hstands⟩
        exact Option.some.inj (hb.symm.trans heq)
    · have heq := hw.target_eq hw' hs ⟨hb, hne, hstands⟩
      exact Option.some.inj (heq.symm.trans hb')
  · cases p with
    | body => exact hw.body_eq hw' hs hb hb' hstands
    | next => exact absurd nofun hstands
    | arg name => exact absurd nofun hstands

end

end Heap

end ScriptHeap
