import Mathlib.Data.List.Count
import ScriptHeap.Corpus.BuiltIn
import ScriptHeap.Proofs.CellFaults
import ScriptHeap.Proofs.ChainFaults
/-!
# What the walk finds

* `Heap.RealFault`     a fault of the walk tells the truth, whatever the order of the visits was;
* `Heap.RealFault.of_shared`, `Heap.RealFault.of_refused`, `Heap.RealFault.of_unmarked`   the ends of
                       a walk that are faults;
* `Heap.realFault_of_check`   a check that refuses a heap of sound cells tells the truth.
-/

namespace ScriptHeap

namespace Heap

/-- what a fault of the walk says of the cells that are reached from cell 1 -/
inductive RealFault (h : Heap) (corpus : Corpus) : Corruption → Prop
  /-- cell 1 is reached again -/
  | sharedRoot {a : Address} {spot : Spot} (ha : h.Reaches corpus .root a)
    (hroot : h.Child corpus a spot .root) : RealFault h corpus ⟨.root, .sharedCell⟩
  /-- the cell is reached at two spots -/
  | sharedCell {a a' b : Address} {spot spot' : Spot} (hne : (a, spot) ≠ (a', spot'))
    (ha : h.Reaches corpus .root a) (hb : h.Child corpus a spot b)
    (ha' : h.Reaches corpus .root a') (hb' : h.Child corpus a' spot' b) :
    RealFault h corpus ⟨b, .sharedCell⟩
  /-- cell 1 or the target of an argument has a next link -/
  | strayNext {b : Address} {d : Cell} (hb : b = .root ∨ ∃ a name, h.Reaches corpus .root a ∧
      h.Child corpus a (.arg name) b) (hd : h.cells[b]? = some d) (hnext : d.next ≠ .nothing) :
    RealFault h corpus ⟨b, .strayNext d.next⟩
  /-- the chain of a block goes on for ever; it is given up after as many steps as there are cells -/
  | unterminatedChain {a b : Address} {c : Cell} {shape : KindShape} (ha : h.Reaches corpus .root a)
    (hc : h.cells[a]? = some c) (hs : corpus.shape? c.kind = some shape)
    (hblock : shape.isBlock = true) (hchain : ∀ i, ∃ d, h.Onward c.body i d)
    (hb : h.Onward c.body h.size b) : RealFault h corpus ⟨b, .unterminatedChain c.body h.size⟩
  /-- a cell on the chain of a block is of a kind that the block does not admit -/
  | disallowedKind {a b : Address} {c d : Cell} {shape : KindShape} {kinds : List Kind} {i : Nat}
    (ha : h.Reaches corpus .root a) (hc : h.cells[a]? = some c)
    (hs : corpus.shape? c.kind = some shape) (hblock : shape.body = .block kinds)
    (hb : h.Onward c.body i b) (hd : h.cells[b]? = some d) (hk : d.kind ∉ kinds) :
    RealFault h corpus ⟨b, .disallowedKind d.kind kinds⟩
  /-- the cell is the first that is not reached; all that are reached are reached once, and all
  chains on the way end -/
  | orphan {b : Address} (hb : b ≠ .nothing) (hlt : b < h.size) (hfree : ¬ h.Reaches corpus .root b)
    (hleast : ∀ a < b, a ≠ .nothing → h.Reaches corpus .root a)
    (hroot : ∀ a spot, h.Reaches corpus .root a → ¬ h.Child corpus a spot .root)
    (honce : ∀ a, h.Reaches corpus .root a → a ≠ .root →
      ∃! e : Address × Spot, h.Reaches corpus .root e.1 ∧ h.Child corpus e.1 e.2 a)
    (hends : ∀ a, h.Reaches corpus .root a → ∃ c, h.cells[a]? = some c ∧ h.ChainEnds corpus c) :
    RealFault h corpus ⟨b, .orphan⟩

/-! ## repetitions and marks -/

theorem exists_ne_of_two_le_count {α β : Type} [DecidableEq β] {f : α → β} {l : List α} {y : β}
    (hl : l.Nodup) (hy : 2 ≤ (l.map f).count y) :
    ∃ x ∈ l, ∃ x' ∈ l, x ≠ x' ∧ f x = y ∧ f x' = y := by
  induction l with
  | nil => cases hy
  | cons z l ih =>
    obtain ⟨hz, hl⟩ := List.nodup_cons.mp hl
    rw [List.map_cons] at hy
    by_cases hfz : f z = y
    · rw [hfz, List.count_cons_self] at hy
      have hpos : 0 < (l.map f).count y := by omega
      obtain ⟨x, hx, hfx⟩ := List.mem_map.mp (List.count_pos_iff.mp hpos)
      exact ⟨z, List.mem_cons_self, x, List.mem_cons_of_mem _ hx, fun heq => hz (heq ▸ hx), hfz, hfx⟩
    · rw [List.count_cons_of_ne hfz] at hy
      obtain ⟨x, hx, x', hx', hne, hfx, hfx'⟩ := ih hl hy
      exact ⟨x, List.mem_cons_of_mem _ hx, x', List.mem_cons_of_mem _ hx', hne, hfx, hfx'⟩

theorem findIdx?_marks_eq_some {marks : Array Bool} {b : Nat}
    (hb : marks.findIdx? (· == false) = some b) :
    marks[b]? = some false ∧ ∀ a < b, marks[a]? ≠ some false := by
  obtain ⟨hlt, hfalse, hbefore⟩ := Array.findIdx?_eq_some_iff_getElem.mp hb
  refine ⟨?_, fun a ha hmark => ?_⟩
  · rw [Array.getElem?_eq_getElem hlt, beq_iff_eq.mp hfalse]
  · obtain ⟨_, hget⟩ := Array.getElem?_eq_some_iff.mp hmark
    exact hbefore a ha (beq_iff_eq.mpr hget)

/-! ## the ends of a walk -/

section
variable {h : Heap} {corpus : Corpus} {visited left rest : List Reach} {r : Reach} {f : Corruption}

theorem Visits.reached (hv : h.Visits corpus [⟨.root, false⟩] visited left) :
    ∀ q ∈ visited ++ left, h.Reaches corpus .root q.address :=
  hv.reaches fun _ hq => List.mem_singleton.mp hq ▸ .self

/-- the edges from the visited cells start at cells that are reached -/
theorem Visits.of_mem_edges (hv : h.Visits corpus [⟨.root, false⟩] visited left) {a b : Address}
    {spot : Spot} (he : ((a, spot), b) ∈ h.edges corpus (visited.map (·.address))) :
    h.Reaches corpus .root a ∧ h.Child corpus a spot b := by
  obtain ⟨ha, hb⟩ := (mem_edges hv.ends).mp he
  obtain ⟨q, hq, rfl⟩ := List.mem_map.mp ha
  exact ⟨hv.reached q (List.mem_append_left _ hq), hb⟩

/-- a cell that was visited and is still to be visited is counted twice among what is reached -/
theorem RealFault.of_shared (hv : h.Visits corpus [⟨.root, false⟩] visited (r :: rest))
    (hn : (visited.map (·.address)).Nodup) (hr : r.address ∈ visited.map (·.address)) :
    h.RealFault corpus ⟨r.address, .sharedCell⟩ := by
  have htwice : 2 ≤ ((visited ++ r :: rest).map (·.address)).count r.address := by
    rw [List.map_append, List.map_cons, List.count_append, List.count_cons_self]
    have hpos := List.count_pos_iff.mpr hr
    omega
  rw [hv.addresses_perm.count_eq] at htwice
  by_cases hroot : r.address = .root
  · rw [hroot, List.count_cons_self] at htwice
    have hpos : 0 < ((h.edges corpus (visited.map (·.address))).map Prod.snd).count .root := by
      omega
    obtain ⟨⟨⟨a, spot⟩, b⟩, he, hb⟩ := List.mem_map.mp (List.count_pos_iff.mp hpos)
    obtain rfl : b = .root := hb
    obtain ⟨ha, hchild⟩ := hv.of_mem_edges he
    rw [hroot]
    exact .sharedRoot ha hchild
  · rw [List.count_cons_of_ne (Ne.symm hroot)] at htwice
    obtain ⟨⟨⟨a, spot⟩, b⟩, he, ⟨⟨a', spot'⟩, b'⟩, he', hne, hb, hb'⟩ :=
      exists_ne_of_two_le_count (edges_nodup hn) htwice
    obtain rfl : b = r.address := hb
    obtain rfl : b' = r.address := hb'
    obtain ⟨ha, hchild⟩ := hv.of_mem_edges he
    obtain ⟨ha', hchild'⟩ := hv.of_mem_edges he'
    exact .sharedCell (fun heq => hne (congrArg (·, r.address) heq)) ha hchild ha' hchild'

/-- a visit that is refused -/
theorem RealFault.of_refused (hs : h.CellsSound corpus) (hsize : Address.root < h.size)
    (hv : h.Visits corpus [⟨.root, false⟩] visited (r :: rest))
    (hf : h.expand corpus r = .error f) : h.RealFault corpus f := by
  have hmem : r ∈ visited ++ r :: rest := List.mem_append_right _ List.mem_cons_self
  have hreach := hv.reached r hmem
  obtain ⟨c, hc⟩ := exists_getElem? (hv.address_inside hsize hs.inside hmem).2
  rcases expand_fault hc hf with ⟨hflag, hnext, rfl⟩ | ⟨shape, kinds, hshape, hblock, hfault⟩
  · refine .strayNext ?_ hc hnext
    rcases hv.eq_root_or_child hmem with heq | ⟨a, ha, spot, hb, hspot⟩
    · exact .inl (congrArg Reach.address heq)
    · cases spot with
      | statement i =>
        rw [hflag] at hspot
        cases hspot
      | arg name =>
        obtain ⟨q, hq, rfl⟩ := List.mem_map.mp ha
        exact .inr ⟨q.address, name, hv.reached q (List.mem_append_left _ hq), hb⟩
  · rcases hfault with ⟨b, d, hb, hk, rfl⟩ | hchain
    · obtain ⟨i, hi, hd⟩ := onward_of_mem_chainFrom hb
      exact .disallowedKind hreach hc hshape hblock hi hd hk
    · obtain ⟨hforever, b, hb, rfl⟩ :=
        chain_fault (fun _ _ hd => (hs.links_lt hd).1) (hs.links_lt hc).2 hchain
      exact .unterminatedChain hreach hc hshape (KindShape.isBlock_iff.mpr ⟨kinds, hblock⟩)
        hforever hb

/-- a cell that a walk to the end has left unmarked -/
theorem RealFault.of_unmarked (hv : h.Visits corpus [⟨.root, false⟩] visited [])
    (hn : (visited.map (·.address)).Nodup) {marks : Array Bool}
    (hmarks : ∀ a : Address, marks[a]? = some false ↔
      h.unseen[a]? = some false ∧ a ∉ visited.map (·.address)) {b : Address}
    (hb : marks.findIdx? (· == false) = some b) : h.RealFault corpus ⟨b, .orphan⟩ := by
  obtain ⟨hfalse, hbefore⟩ := findIdx?_marks_eq_some hb
  obtain ⟨hunseen, hfree⟩ := (hmarks b).mp hfalse
  obtain ⟨hne, hlt⟩ := unseen_eq_false_iff.mp hunseen
  have hvisited : ∀ a : Address, a ∈ visited.map (·.address) ↔ h.Reaches corpus .root a := by
    refine fun a => ⟨fun ha => ?_, hv.mem_of_reaches⟩
    obtain ⟨q, hq, rfl⟩ := List.mem_map.mp ha
    exact hv.reached q (List.mem_append_left _ hq)
  have hperm := hv.addresses_perm
  rw [List.append_nil] at hperm
  obtain ⟨hroot, htargets⟩ := List.nodup_cons.mp (hperm.nodup_iff.mp hn)
  have hunique := (targets_nodup_iff hn hv.ends).mp htargets
  refine .orphan hne hlt (fun hreach => hfree ((hvisited b).mpr hreach)) (fun a ha hne' => ?_)
    (fun a spot ha hchild => ?_) (fun a ha hnroot => ?_) fun a ha => hv.ends a ((hvisited a).mpr ha)
  · have hmark := hbefore a ha
    rw [Ne, hmarks, not_and, not_not] at hmark
    exact (hvisited a).mp (hmark (unseen_eq_false_iff.mpr ⟨hne', Nat.lt_trans ha hlt⟩))
  · have he := (mem_edges hv.ends).mpr ⟨(hvisited a).mpr ha, hchild⟩
    exact hroot (List.mem_map_of_mem (f := Prod.snd) he)
  · cases ha with
    | self => exact absurd rfl hnroot
    | @child c _ spot hc hchild =>
      refine ⟨(c, spot), ⟨hc, hchild⟩, fun ⟨c', spot'⟩ ⟨hc', hchild'⟩ => ?_⟩
      obtain ⟨rfl, rfl⟩ := hunique c ((hvisited c).mpr hc) c' ((hvisited c').mpr hc') spot spot' a
        hchild hchild'
      rfl

/-- what the walk finds among sound cells is real -/
theorem realFault_of_checkTree (hs : h.CellsSound corpus) (hf : h.checkTree corpus = .error f) :
    h.RealFault corpus f := by
  have hsize : Address.root < h.size := by
    refine Nat.lt_of_not_le fun hle => ?_
    rw [checkTree, if_pos hle] at hf
    cases hf
  rw [checkTree_eq hsize] at hf
  obtain ⟨visited, left, hv, hn, _, hends⟩ := walk_visits h corpus h.unseen [⟨.root, false⟩]
  rcases bind_eq_error.mp hf with hf | ⟨marks, hmarks, hf⟩
  · rw [hf] at hends
    cases hends with
    | @outside r rest hr =>
      have hinside := hv.address_inside hsize hs.inside (List.mem_append_right _ List.mem_cons_self)
      rw [size_unseen] at hr
      exact absurd hinside.2 (Nat.not_lt.mpr hr)
    | @shared r rest hr =>
      have hinside := hv.address_inside hsize hs.inside (List.mem_append_right _ List.mem_cons_self)
      rcases hr with hr | hr
      · exact absurd (unseen_eq_true hr) hinside.1
      · exact .of_shared hv hn hr
    | refused _ _ hf => exact .of_refused hs hsize hv hf
  · rw [hmarks] at hends
    split at hf
    · cases hf
    · next b hb =>
      cases hf
      cases hends with
      | empty hmarked => exact .of_unmarked hv hn hmarked hb

/-- **if all cells pass and the heap is refused, what is reported is real** -/
theorem realFault_of_check (hcells : h.checkCells corpus = .ok ())
    (hf : h.check corpus = .error f) : h.RealFault corpus f := by
  rw [check_eq_bind, hcells] at hf
  exact realFault_of_checkTree (checkCells_eq_ok.mp hcells) hf

end

end Heap

/-! ## an example -/

namespace Sample

/-- a conditional with one cell for both of its branches -/
def forked : Heap where
  cells := #[.sentinel,
    ⟨.conditional, .nothing, .nothing, .nothing, ⟨[("_else", .nested 2), ("_then", .nested 2),
      ("lhs", .scalar (.string "pin13")), ("op", .scalar (.string "<")), ("rhs", .scalar (.integer 9))],
      by decide⟩⟩,
    ⟨.execute, .root, .nothing, .nothing, ⟨[("sequence_id", .scalar (.integer 2))], by decide⟩⟩]

theorem forked_fault_real : forked.checkCells Corpus.builtIn = .ok () ∧
    forked.check Corpus.builtIn = .error ⟨2, .sharedCell⟩ ∧
    forked.RealFault Corpus.builtIn ⟨2, .sharedCell⟩ := by
  have hcells : forked.checkCells Corpus.builtIn = .ok () := by decide +kernel
  have hf : forked.check Corpus.builtIn = .error ⟨2, .sharedCell⟩ := by decide +kernel
  exact ⟨hcells, hf, Heap.realFault_of_check hcells hf⟩

end Sample

end ScriptHeap
