import Mathlib.Data.List.Nodup
import ScriptHeap.Heap.Check
import ScriptHeap.Proofs.Chain
import ScriptHeap.Proofs.LookUp
/-!
# The cells below a cell

* `Spot`, `Heap.Child`   a cell is below another at a spot: as a statement of it or in an argument;
* `Heap.Reaches`       a cell is below another, some steps down;
* `Heap.Rooted`        no cell is below two spots, and all cells are reached from the root;
* `Heap.spots`         all spots of a cell with what lies there, as the walk finds them;
* `Heap.edges`         the same for several cells; what lies at them repeats exactly when a cell is
                       below two spots.
-/

namespace ScriptHeap

/-- where a cell is named in the cell above it -/
inductive Spot where
  | statement (i : Nat)
  | arg (name : String)

/-- the walk tells statements from targets of arguments -/
def Spot.isStatement : Spot → Bool
  | statement _ => true
  | arg _ => false

namespace Heap

/-! ## the relation -/

/-- a cell is on the chain of a block, or the target of an argument of any cell -/
inductive Child (h : Heap) (corpus : Corpus) (a : Address) : Spot → Address → Prop
  | statement {c d : Cell} {shape : KindShape} {l : List (Address × Cell)} {i : Nat} {b : Address}
    (hc : h.cells[a]? = some c) (hs : corpus.shape? c.kind = some shape)
    (hb : shape.isBlock = true) (hl : h.Follows c.body l) (hi : l[i]? = some (b, d)) :
    Child h corpus a (.statement i) b
  | arg {c : Cell} {name : String} {b : Address} (hc : h.cells[a]? = some c)
    (harg : c.arg? name = some (.nested b)) : Child h corpus a (.arg name) b

/-- a cell is reached from another, along children -/
inductive Reaches (h : Heap) (corpus : Corpus) (a : Address) : Address → Prop
  | self : Reaches h corpus a a
  | child {b c : Address} {spot : Spot} (hb : Reaches h corpus a b) (hc : h.Child corpus b spot c) :
    Reaches h corpus a c

/-- the cells form a tree below cell 1 -/
structure Rooted (h : Heap) (corpus : Corpus) : Prop where
  root : ∀ a spot, ¬ h.Child corpus a spot .root
  unique : ∀ {a a' b : Address} {spot spot' : Spot}, h.Child corpus a spot b →
    h.Child corpus a' spot' b → a = a' ∧ spot = spot'
  reached : ∀ b : Address, b ≠ .nothing → b < h.size → h.Reaches corpus .root b

section
variable {h : Heap} {corpus : Corpus} {a b b' : Address} {spot : Spot}

theorem Child.target_unique (hb : h.Child corpus a spot b) (hb' : h.Child corpus a spot b') :
    b = b' := by
  cases hb with
  | statement hc hs hblock hl hi =>
    cases hb' with
    | statement hc' hs' hblock' hl' hi' =>
      obtain rfl := Option.some.inj (hc.symm.trans hc')
      obtain rfl := hl.unique hl'
      exact congrArg Prod.fst (Option.some.inj (hi.symm.trans hi'))
  | arg hc harg =>
    cases hb' with
    | arg hc' harg' =>
      obtain rfl := Option.some.inj (hc.symm.trans hc')
      exact Arg.nested.inj (Option.some.inj (harg.symm.trans harg'))

theorem Child.lt_size (hb : h.Child corpus a spot b) : a < h.size := by
  cases hb with
  | statement hc _ _ _ _ => exact lt_size_of_getElem? hc
  | arg hc _ => exact lt_size_of_getElem? hc

/-- nothing lies below the sentinel -/
theorem Child.ne_nothing (hsentinel : h.cells[0]? = some .sentinel)
    (hb : h.Child corpus a spot b) : a ≠ .nothing := by
  rintro rfl
  cases hb with
  | statement hc _ _ hl hi =>
    obtain rfl := Option.some.inj (hsentinel.symm.trans hc)
    have hnil : _ = [] := hl.unique Follows.nothing
    rw [hnil] at hi
    cases hi
  | arg hc harg =>
    obtain rfl := Option.some.inj (hsentinel.symm.trans hc)
    cases harg

theorem Reaches.trans {c : Address} (hb : h.Reaches corpus a b) (hc : h.Reaches corpus b c) :
    h.Reaches corpus a c := by
  induction hc with
  | self => exact hb
  | child _ hd ih => exact .child ih hd

/-- a cell that is reached is the start, or somebody's child -/
theorem Reaches.eq_or_child (hb : h.Reaches corpus a b) :
    b = a ∨ ∃ c spot, h.Child corpus c spot b := by
  cases hb with
  | self => exact .inl rfl
  | child _ hc => exact .inr ⟨_, _, hc⟩

end

/-! ## the spots of a cell -/

/-- the statements of a cell as far as its chain goes -/
def statementCells (h : Heap) (corpus : Corpus) (c : Cell) : List (Address × Cell) :=
  if ((corpus.shape? c.kind).bind KindShape.blockKinds?).isSome then (h.chain c.body).cells else []

/-- the spots of a cell in the order of the walk -/
def spots (h : Heap) (corpus : Corpus) (a : Address) : List (Spot × Reach) :=
  match h.cells[a]? with
  | none => []
  | some c =>
    ((h.statementCells corpus c).zipIdx.map fun e => (.statement e.2, ⟨e.1.1, true⟩)) ++
      c.addressArgs.map fun e => (.arg e.1, ⟨e.2, false⟩)

/-- the chain of a cell ends, if it has one -/
def ChainEnds (h : Heap) (corpus : Corpus) (c : Cell) : Prop :=
  ∀ shape, corpus.shape? c.kind = some shape → shape.isBlock = true → ∃ l, h.Follows c.body l

section
variable {h : Heap} {corpus : Corpus} {a : Address} {c : Cell}

theorem statementCells_of_block {shape : KindShape} (hs : corpus.shape? c.kind = some shape)
    (hb : shape.isBlock = true) : h.statementCells corpus c = (h.chain c.body).cells := by
  rw [statementCells, hs]
  exact if_pos hb

theorem statementCells_of_leaf {shape : KindShape} (hs : corpus.shape? c.kind = some shape)
    (hb : shape.isBlock = false) : h.statementCells corpus c = [] := by
  rw [statementCells, hs]
  exact if_neg (Bool.eq_false_iff.mp hb)

theorem mem_addressArgs {name : String} {b : Address} :
    (name, b) ∈ c.addressArgs ↔ c.arg? name = some (.nested b) :=
  Entries.mem_nested (Entries.nodup_names c.args.sorted)

theorem spots_nodup (h : Heap) (corpus : Corpus) (a : Address) :
    ((h.spots corpus a).map Prod.fst).Nodup := by
  unfold spots
  split
  · exact List.nodup_nil
  · next c hc =>
    rw [List.map_append, List.map_map, List.map_map, List.nodup_append]
    refine ⟨?_, ?_, ?_⟩
    · have hindex : (h.statementCells corpus c).zipIdx.map Prod.snd
          = List.range' 0 (h.statementCells corpus c).length := List.zipIdx_map_snd ..
      have hrange : ((h.statementCells corpus c).zipIdx.map Prod.snd).Nodup := by
        rw [hindex]
        exact List.nodup_range'
      have hspots := hrange.map (f := Spot.statement) fun _ _ h => Spot.statement.inj h
      rwa [List.map_map] at hspots
    · have hnames : (c.addressArgs.map Prod.fst).Nodup :=
        Entries.nodup_nested (Entries.nodup_names c.args.sorted)
      have hspots := hnames.map (f := Spot.arg) fun _ _ h => Spot.arg.inj h
      rwa [List.map_map] at hspots
    · intro x hx y hy heq
      obtain ⟨_, _, rfl⟩ := List.mem_map.mp hx
      obtain ⟨_, _, rfl⟩ := List.mem_map.mp hy
      cases heq

/-- the spots are those of the relation, if the chain of the cell ends -/
theorem mem_spots (hc : h.cells[a]? = some c) (hends : h.ChainEnds corpus c) {spot : Spot}
    {r : Reach} : (spot, r) ∈ h.spots corpus a ↔
      h.Child corpus a spot r.address ∧ r.statement = spot.isStatement := by
  have hcells : ∀ (i : Nat) (b : Address) (d : Cell), (h.statementCells corpus c)[i]? = some (b, d) ↔
      ∃ shape l, corpus.shape? c.kind = some shape ∧ shape.isBlock = true ∧ h.Follows c.body l ∧
        l[i]? = some (b, d) := by
    intro i b d
    constructor
    · intro hi
      cases hs : corpus.shape? c.kind with
      | none =>
        rw [statementCells, hs] at hi
        cases hi
      | some shape =>
        cases hb : shape.isBlock with
        | false =>
          rw [statementCells_of_leaf hs hb] at hi
          cases hi
        | true =>
          obtain ⟨l, hl⟩ := hends shape hs hb
          rw [statementCells_of_block hs hb, chain_cells_of_follows hl] at hi
          exact ⟨shape, l, rfl, hb, hl, hi⟩
    · intro ⟨shape, l, hs, hb, hl, hi⟩
      rw [statementCells_of_block hs hb, chain_cells_of_follows hl]
      exact hi
  unfold spots
  rw [hc]
  show _ ∈ _ ++ _ ↔ _
  rw [List.mem_append, List.mem_map, List.mem_map]
  constructor
  · rintro (⟨⟨⟨b, d⟩, i⟩, he, heq⟩ | ⟨⟨name, b⟩, he, heq⟩)
    · cases heq
      obtain ⟨shape, l, hs, hb, hl, hi⟩ := (hcells i b d).mp (List.mk_mem_zipIdx_iff_getElem?.mp he)
      exact ⟨.statement hc hs hb hl hi, rfl⟩
    · cases heq
      exact ⟨.arg hc (mem_addressArgs.mp he), rfl⟩
  · obtain ⟨b, flag⟩ := r
    rintro ⟨hchild, rfl⟩
    cases hchild with
    | @statement c' d shape l i _ hc' hs hb hl hi =>
      obtain rfl := Option.some.inj (hc.symm.trans hc')
      have he := (hcells i b d).mpr ⟨shape, l, hs, hb, hl, hi⟩
      exact .inl ⟨((b, d), i), List.mk_mem_zipIdx_iff_getElem?.mpr he, rfl⟩
    | @arg c' name _ hc' harg =>
      obtain rfl := Option.some.inj (hc.symm.trans hc')
      exact .inr ⟨(name, b), mem_addressArgs.mpr harg, rfl⟩

end

/-! ## several cells -/

/-- the spots of cells, with the cells and what lies at the spots -/
def edges (h : Heap) (corpus : Corpus) (as : List Address) : List ((Address × Spot) × Address) :=
  as.flatMap fun a => (h.spots corpus a).map fun e => ((a, e.1), e.2.address)

section
variable {h : Heap} {corpus : Corpus} {as : List Address}

theorem mem_edges (hends : ∀ a ∈ as, ∃ c, h.cells[a]? = some c ∧ h.ChainEnds corpus c)
    {a b : Address} {spot : Spot} :
    ((a, spot), b) ∈ h.edges corpus as ↔ a ∈ as ∧ h.Child corpus a spot b := by
  unfold edges
  rw [List.mem_flatMap]
  constructor
  · intro ⟨a', ha, he⟩
    obtain ⟨⟨spot', r⟩, hspot, heq⟩ := List.mem_map.mp he
    cases heq
    obtain ⟨c, hc, hend⟩ := hends _ ha
    exact ⟨ha, ((mem_spots hc hend).mp hspot).1⟩
  · intro ⟨ha, hchild⟩
    obtain ⟨c, hc, hend⟩ := hends a ha
    have hspot : (spot, ⟨b, spot.isStatement⟩) ∈ h.spots corpus a :=
      (mem_spots hc hend).mpr ⟨hchild, rfl⟩
    exact ⟨a, ha, List.mem_map.mpr ⟨_, hspot, rfl⟩⟩

theorem edges_nodup (hn : as.Nodup) : (h.edges corpus as).Nodup := by
  refine List.Nodup.of_map Prod.fst ?_
  unfold edges
  rw [List.map_flatMap, List.nodup_flatMap]
  constructor
  · intro a _
    have hspots := (h.spots_nodup corpus a).map (f := fun spot => (a, spot))
      fun _ _ h => (Prod.mk.inj h).2
    rw [List.map_map] at hspots ⊢
    exact hspots
  · refine hn.imp fun {a a'} hne => ?_
    intro x hx hx'
    obtain ⟨e, he, rfl⟩ := List.mem_map.mp hx
    obtain ⟨e', he', heq⟩ := List.mem_map.mp hx'
    obtain ⟨d, _, rfl⟩ := List.mem_map.mp he
    obtain ⟨d', _, rfl⟩ := List.mem_map.mp he'
    exact hne (Prod.mk.inj heq).1.symm

/-- nothing lies at two spots of the cells exactly when no address is listed twice -/
theorem targets_nodup_iff (hn : as.Nodup)
    (hends : ∀ a ∈ as, ∃ c, h.cells[a]? = some c ∧ h.ChainEnds corpus c) :
    ((h.edges corpus as).map Prod.snd).Nodup ↔ ∀ a ∈ as, ∀ a' ∈ as, ∀ spot spot' b,
      h.Child corpus a spot b → h.Child corpus a' spot' b → a = a' ∧ spot = spot' := by
  rw [List.nodup_map_iff_inj_on (edges_nodup hn)]
  constructor
  · intro hinj a ha a' ha' spot spot' b hb hb'
    have heq := hinj _ ((mem_edges hends).mpr ⟨ha, hb⟩) _ ((mem_edges hends).mpr ⟨ha', hb'⟩) rfl
    cases heq
    exact ⟨rfl, rfl⟩
  · rintro hunique ⟨⟨a, spot⟩, b⟩ he ⟨⟨a', spot'⟩, b'⟩ he' rfl
    obtain ⟨ha, hb⟩ := (mem_edges hends).mp he
    obtain ⟨ha', hb'⟩ := (mem_edges hends).mp he'
    obtain ⟨rfl, rfl⟩ := hunique a ha a' ha' spot spot' b hb hb'
    rfl

end

end Heap

end ScriptHeap
