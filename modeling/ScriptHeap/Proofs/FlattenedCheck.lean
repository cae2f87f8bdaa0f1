import ScriptHeap.Proofs.RoundTrip
import ScriptHeap.Proofs.TreeLinks
import ScriptHeap.Proofs.WellFormed
/-!
# The check of a flattened tree

* `Node.lacking_of_check_heap`   of the heap of any tree, the check finds at most a lack;
* `Node.heap_wellFormed`   the heap of a valid tree is well-formed;
* `Node.cellCount_eq_count`   a valid tree has as many cells as nodes;
* `Node.check_flatten`   what the check says of a flattened tree.
-/

namespace ScriptHeap

section
variable {corpus : Corpus} {linkage : ParentLinkage} {n : Node}

/-- of the heap of any tree the check finds at most that an argument is missing or a kind is not
admitted -/
theorem Node.lacking_of_check_heap (hk : n.Known corpus linkage) {f : Corruption}
    (hf : (n.heap corpus linkage).check corpus = .error f) : Heap.Lacking f := by
  refine Heap.check_of_linked (Node.heap_linked hk) (fun a c ha hc => ?_) hf
  obtain ⟨s, hs, rfl, rfl⟩ := Node.exists_seat ha hc
  obtain ⟨shape, hshape⟩ := hk s hs
  refine ⟨shape, ?_, Node.cellLinked_heap hk hs hshape⟩
  rw [Seat.kind_cell hshape]
  exact Corpus.shape?_of_shapeOf? hshape

/-! ## valid trees -/

/-- a node is of one of these kinds -/
def Node.OfKinds (corpus : Corpus) (kinds : List Kind) (c : Node) : Prop :=
  ∃ shape, corpus.shapeOf? c.kind = some shape ∧ shape.kind ∈ kinds

/-- a cell of the heap is of one of these kinds, whatever node it shows -/
def Heap.CellOfKinds (h : Heap) (kinds : List Kind) (a : Address) (_ : Node) : Prop :=
  ∃ d, h.cells[a]? = some d ∧ d.kind ∈ kinds

theorem Node.Valid.ofKinds {levels : Nat} {kinds : List Kind}
    (hv : n.Valid corpus levels (some kinds)) : n.OfKinds corpus kinds := by
  cases levels with
  | zero => cases hv
  | succ levels =>
    obtain ⟨shape, hs, hk, _⟩ := hv
    exact ⟨shape, hs, admits_some.mp hk⟩

variable (linkage) in
/-- every node of a valid tree fits its shape -/
theorem Seat.fits_of_valid {levels : Nat} {allowed : Option (List Kind)} {s : Seat}
    (hv : s.node.Valid corpus levels allowed) : ∀ t ∈ s.below corpus linkage,
      ∃ shape, corpus.shapeOf? t.node.kind = some shape ∧
        t.node.Fits (Node.OfKinds corpus) shape := by
  induction levels generalizing s allowed with
  | zero => cases hv
  | succ levels ih =>
    obtain ⟨shape, hs, _, hf⟩ := hv
    intro t ht
    rw [below_eq] at ht
    rcases List.mem_cons.mp ht with rfl | ht
    · exact ⟨shape, hs, hf.imp fun _ _ _ h => h.ofKinds⟩
    · obtain ⟨p, hp, ht⟩ := List.mem_flatMap.mp ht
      obtain ⟨kinds, hc⟩ := hf.parts (Corpus.shape?_of_shapeOf? hs) _ (mem_parts hs hp)
      exact ih hc t ht

/-- a linked cell that shows a node with cells of the right kinds is sound -/
theorem Heap.CellLinked.sound {h : Heap} {shape : KindShape} {c : Cell}
    (hl : h.CellLinked shape c) (hn : (shape.args.map (·.name)).Nodup)
    (hargs : ∀ name, ArgShows h.CellOfKinds (shape.arg? name) (c.arg? name) (n.arg? name))
    (hbody : BodyShows h h.CellOfKinds c shape.body n.body) : h.CellSound shape c where
  parent := hl.parent
  next := hl.next
  body := hl.body
  names name := by
    have hshow := hargs name
    generalize shape.arg? name = u, c.arg? name = v, n.arg? name = w at hshow
    cases hshow with
    | absent => simp
    | scalar _ => simp
    | nested _ _ _ => simp
  scalars spec hspec ht := by
    have hshow := hargs spec.name
    rw [(KindShape.arg?_eq_some_iff hn).mpr ⟨hspec, rfl⟩] at hshow
    generalize c.arg? spec.name = v, n.arg? spec.name = w at hshow
    cases hshow with
    | @scalar _ s hacc => exact ⟨s, rfl, hacc⟩
    | nested hk _ _ =>
      rw [hk] at ht
      cases ht
  nodes spec hspec kinds ht := by
    have hshow := hargs spec.name
    rw [(KindShape.arg?_eq_some_iff hn).mpr ⟨hspec, rfl⟩] at hshow
    generalize c.arg? spec.name = v, n.arg? spec.name = w at hshow
    cases hshow with
    | scalar hacc =>
      rw [ht, ArgType.accepts_node] at hacc
      cases hacc
    | @nested _ kinds' b _ hk hb hd =>
      obtain rfl := ArgType.node.inj (ht.symm.trans hk)
      obtain ⟨d, hd, hkind⟩ := hd
      exact ⟨b, d, rfl, hb, hd, hkind⟩
  primary name hp := by
    rw [hp] at hbody
    generalize n.body = body at hbody
    cases hbody with
    | primary hp => exact hp
  leaf := hl.leaf

theorem Heap.chainSound_of_shows {h : Heap} {c : Cell} {shape : KindShape}
    (hs : corpus.shape? c.kind = some shape)
    (hbody : BodyShows h h.CellOfKinds c shape.body n.body) : h.ChainSound corpus c := by
  intro shape' kinds hs' hb
  obtain rfl := Option.some.inj (hs.symm.trans hs')
  rw [hb] at hbody
  generalize n.body = body at hbody
  cases hbody with
  | @block _ l _ hl hrel =>
    refine ⟨l, hl, fun e he => ?_⟩
    obtain ⟨_, _, d, hd, hkind⟩ := exists_mem_of_forall₂ hrel.flip he
    obtain rfl := Option.some.inj ((hl.mem he).2.symm.trans hd)
    exact hkind

/-- the heap of a valid tree is well-formed -/
theorem Node.heap_wellFormed {levels : Nat} {allowed : Option (List Kind)}
    (hv : n.Valid corpus levels allowed) : (n.heap corpus linkage).WellFormed corpus := by
  have hfits := Seat.fits_of_valid linkage (s := Seat.root n) hv
  have hk : n.Known corpus linkage := fun t ht => by
    obtain ⟨shape, hs, _⟩ := hfits t ht
    exact ⟨shape, hs⟩
  have hl := Node.heap_linked hk
  -- the cell of a part is of the kinds that its place asks for
  have hparts : ∀ s ∈ (Seat.root n).below corpus linkage, ∀ kinds,
      ∀ p ∈ s.parts corpus linkage, p.2.node.OfKinds corpus kinds →
        (n.heap corpus linkage).CellOfKinds kinds p.2.address p.2.node := by
    intro s hs kinds p hp ⟨shape, hshape, hkind⟩
    refine ⟨_, Node.getElem?_heap (Seat.part_mem_below hs hp), ?_⟩
    rw [Seat.kind_cell hshape]
    exact hkind
  have hcell : ∀ (a : Address) (c : Cell), a ≠ .nothing →
      (n.heap corpus linkage).cells[a]? = some c → ∃ shape, corpus.shape? c.kind = some shape ∧
        (n.heap corpus linkage).CellSound shape c ∧ (n.heap corpus linkage).ChainSound corpus c := by
    intro a c ha hc
    obtain ⟨s, hs, rfl, rfl⟩ := Node.exists_seat ha hc
    obtain ⟨shape, hshape, hf⟩ := hfits s hs
    have hregistered := Corpus.shape?_of_shapeOf? hshape
    have hargs := Seat.argShows_cell hshape hf (hparts s hs)
    have hbody := Seat.bodyShows_cell hshape hs hf (hparts s hs)
    have hkind : corpus.shape? (s.cell corpus linkage).kind = some shape := by
      rw [Seat.kind_cell hshape]
      exact hregistered
    exact ⟨shape, hkind, (Node.cellLinked_heap hk hs hshape).sound
      (Corpus.args_nodup hregistered) hargs hbody, Heap.chainSound_of_shows hkind hbody⟩
  refine ⟨hl.sentinel, fun a c ha hc => ?_, fun a c hc => ?_, fun hsize => ?_, hl.next⟩
  · obtain ⟨shape, hs, hsound, _⟩ := hcell a c ha hc
    exact ⟨shape, hs, hsound⟩
  · by_cases ha : a = .nothing
    · subst ha
      obtain rfl := Option.some.inj (hl.sentinel.symm.trans hc)
      exact Heap.chainSound_sentinel
    · obtain ⟨_, _, _, hsound⟩ := hcell a c ha hc
      exact hsound
  · have hrooted := hl.rooted hsize
    exact ⟨hrooted.root, fun _ hb hroot hlt => hrooted.existsUnique hb hroot hlt, hrooted.reached⟩

/-! ## the number of cells -/

/-- the parts in arguments, by name -/
def argsOf {α : Type} (ps : List (Place × α)) : List (String × α) :=
  ps.filterMap fun p =>
    match p.1 with
    | .arg name _ => some (name, p.2)
    | .statement => none

theorem mem_argsOf {α : Type} {ps : List (Place × α)} {name : String} {x : α} :
    (name, x) ∈ argsOf ps ↔ ∃ primary, (.arg name primary, x) ∈ ps := by
  unfold argsOf
  rw [List.mem_filterMap]
  constructor
  · intro ⟨⟨place, y⟩, hp, hx⟩
    cases place with
    | statement => cases hx
    | arg other primary =>
      cases hx
      exact ⟨primary, hp⟩
  · intro ⟨primary, hp⟩
    exact ⟨_, hp, rfl⟩

/-- parts are statements and arguments -/
theorem parts_perm {α : Type} (ps : List (Place × α)) :
    (ps.map Prod.snd).Perm (statementsOf ps ++ (argsOf ps).map Prod.snd) := by
  induction ps with
  | nil => exact .refl _
  | cons p ps ih =>
    obtain ⟨place, x⟩ := p
    cases place with
    | statement => exact ih.cons x
    | arg name primary => exact (ih.cons x).trans List.perm_middle.symm

theorem argsOf_nodup {α : Type} {ps : List (Place × α)}
    (hn : (ps.flatMap (·.1.slots)).Nodup) : ((argsOf ps).map Prod.fst).Nodup := by
  have hsub : (((argsOf ps).map Prod.fst).map Slot.arg).Sublist (ps.flatMap (·.1.slots)) := by
    clear hn
    induction ps with
    | nil => exact .slnil
    | cons p ps ih =>
      obtain ⟨place, x⟩ := p
      cases place with
      | statement => exact ih
      | arg name primary =>
        cases primary with
        | false => exact ih.cons_cons _
        | true => exact (ih.cons _).cons_cons _
  exact List.Nodup.of_map _ (hn.sublist hsub)

namespace Node

theorem map_snd_nested (n : Node) : (Entries.nested n.args).map Prod.snd = n.argNodes := by
  rw [Entries.nested, argNodes, List.map_filterMap]
  congr 1
  funext e
  rw [Option.map_map]
  exact Option.map_id_fun' ▸ rfl

section
variable {S : List Kind → Node → Prop} {shape : KindShape} {kind : Kind}

theorem statementsOf_parts_of_fits (hf : n.Fits S shape) :
    statementsOf (n.parts shape) = n.body := by
  cases hb : shape.isBlock with
  | true =>
    obtain ⟨kinds, hk⟩ := KindShape.isBlock_iff.mp hb
    exact statementsOf_parts hk
  | false =>
    rw [hf.body_eq_nil hb]
    refine List.eq_nil_iff_forall_not_mem.mpr fun c hc => ?_
    rw [mem_statementsOf, statement_mem_parts_iff, hb] at hc
    cases hc.1

/-- both lists have no name twice, so it is enough that they have the same members -/
theorem argsOf_parts_perm (hs : corpus.shape? kind = some shape) (hf : n.Fits S shape)
    (hn : Entries.Sorted n.args) : (argsOf (n.parts shape)).Perm (Entries.nested n.args) := by
  have hparts := List.Nodup.of_map _ (argsOf_nodup (n.slots_nodup (Corpus.args_nodup hs)))
  have hnested := List.Nodup.of_map _ (Entries.nodup_nested (Entries.nodup_names hn))
  refine (List.perm_ext_iff_of_nodup hparts hnested).mpr fun ⟨name, c⟩ => ?_
  rw [mem_argsOf, Entries.mem_nested (Entries.nodup_names hn)]
  constructor
  · intro ⟨primary, hp⟩
    exact ((arg_mem_parts_iff hs).mp hp).2.1
  · intro harg
    have hfit := hf.args name
    rw [show n.arg? name = some (.nested c) from harg] at hfit
    generalize hspec : shape.arg? name = spec? at hfit
    cases hfit with
    | nested ht _ =>
      exact ⟨decide (shape.body = .primary name), (arg_mem_parts_iff hs).mpr
        ⟨⟨_, _, hspec, ht⟩, harg, decide_eq_true_iff⟩⟩

/-- the parts of a node that fits its shape are the nodes below it -/
theorem parts_perm_children (hs : corpus.shape? kind = some shape) (hf : n.Fits S shape)
    (hn : Entries.Sorted n.args) : ((n.parts shape).map Prod.snd).Perm n.children := by
  have hargs := (argsOf_parts_perm hs hf hn).map Prod.snd
  have hall := parts_perm (n.parts shape)
  rw [statementsOf_parts_of_fits hf] at hall
  rw [map_snd_nested] at hargs
  exact (hall.trans (hargs.append_left n.body)).trans List.perm_append_comm

end

/-- a valid tree has as many cells as nodes -/
theorem cellCount_eq_count {levels : Nat} {allowed : Option (List Kind)} (hn : n.Ordered)
    (hv : n.Valid corpus levels allowed) : n.cellCount corpus = n.count := by
  induction levels generalizing n allowed with
  | zero => cases hv
  | succ levels ih =>
    obtain ⟨shape, hs, _, hf⟩ := hv
    obtain ⟨hsorted, hchildren⟩ := hn
    have hregistered := Corpus.shape?_of_shapeOf? hs
    have hkept : n.keptParts corpus = n.parts shape := by
      rw [keptParts, hs]
    have hcounts : (n.parts shape).map (fun p => p.2.cellCount corpus)
        = ((n.parts shape).map Prod.snd).map count := by
      rw [List.map_map]
      refine List.map_congr_left fun p hp => ?_
      obtain ⟨kinds, hc⟩ := hf.parts hregistered p hp
      exact ih (hchildren _ (mem_children_of_mem_parts hp)) hc
    have hperm := (parts_perm_children hregistered hf hsorted).map count
    rw [cellCount_eq, count_eq, hkept, hcounts, hperm.sum_nat]
    rfl

/-! ## the check after flattening -/

/-- **The check of a flattened tree** finds at most that an argument is missing or a kind is not
admitted; of a valid tree it finds nothing, and there is one cell for each node beside the sentinel -/
theorem check_flatten {policy : Policy} {h : Heap} {root : Address}
    (hf : n.flatten corpus policy = .ok (h, root)) :
    (∀ f, h.check corpus = .error f → (∃ name, f.reason = .missingArg name) ∨
      ∃ kind allowed, f.reason = .disallowedKind kind allowed) ∧
    (n.Ordered → n.check corpus policy = .ok () →
      h.check corpus = .ok () ∧ h.size = n.count + 1) := by
  have hk : n.Known corpus policy.linkage := known_of_flatten hf
  obtain ⟨rfl, _⟩ := Prod.mk.inj (flatten_eq_ok.mp hf).2
  refine ⟨fun f hc => lacking_of_check_heap hk hc, fun hn hv => ?_⟩
  rw [check_eq_ok] at hv
  refine ⟨Heap.check_of_wellFormed (heap_wellFormed hv), ?_⟩
  rw [size_heap, cellCount_eq_count hn hv]

end Node

end

/-- a small program gives a heap that passes, with a cell for each of its nodes -/
theorem Sample.greeting_heap_checked :
    (Sample.greeting.heap Corpus.builtIn .structural).check Corpus.builtIn = .ok () ∧
      (Sample.greeting.heap Corpus.builtIn .structural).size = Sample.greeting.count + 1 :=
  (Node.check_flatten (Node.flatten_eq_ok.mpr ⟨rfl, rfl⟩ :
    Sample.greeting.flatten Corpus.builtIn .default = .ok _)).2 Sample.greeting_ordered rfl

example : ((Node.ofKind "wait").flatten Corpus.builtIn .default).map
    (fun r => r.1.check Corpus.builtIn) = .ok (.error ⟨.root, .missingArg "milliseconds"⟩) := by cbv

end ScriptHeap
