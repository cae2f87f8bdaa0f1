import ScriptHeap.Proofs.CellCheck
import ScriptHeap.Proofs.TreeCheck
/-!
# Well-formed heaps

* `Heap.WellFormed`    what the check of a heap is to say, without a walk: sound cells, chains that
                       end, one tree below cell 1, no next link outside a chain;
* `Heap.check_eq_ok_iff_wellFormed`   the check accepts exactly the well-formed heaps;
* `Heap.check_of_linked`   the check of a heap whose links are those of a tree finds at most a lack.
-/

namespace ScriptHeap

namespace Heap

/-- a heap as the check asks for it -/
structure WellFormed (h : Heap) (corpus : Corpus) : Prop where
  sentinel : h.cells[0]? = some .sentinel
  cells : ∀ (a : Address) (c : Cell), a ≠ .nothing → h.cells[a]? = some c →
    ∃ shape, corpus.shape? c.kind = some shape ∧ h.CellSound shape c
  /-- the chain of a block reaches 0 over kinds that the block admits -/
  chains : ∀ (a : Address) (c : Cell), h.cells[a]? = some c → h.ChainSound corpus c
  /-- cell 1 is nobody's child, every other cell is a child exactly once, and all are reached -/
  tree : Address.root < h.size → (∀ a spot, ¬ h.Child corpus a spot .root) ∧
    (∀ b : Address, b ≠ .nothing → b ≠ .root → b < h.size →
      ∃! e : Address × Spot, h.Child corpus e.1 e.2 b) ∧
    ∀ b : Address, b ≠ .nothing → b < h.size → h.Reaches corpus .root b
  /-- a cell on no chain has no next link -/
  next : ∀ (a : Address) (c : Cell), h.cells[a]? = some c →
    (∀ a' i, ¬ h.Child corpus a' (.statement i) a) → c.next = .nothing

/-! ## the check in parts -/

section
variable {h : Heap} {corpus : Corpus}

theorem mem_drop_toList {a : Address} {c : Cell} :
    (a, c) ∈ h.toList.drop 1 ↔ a ≠ .nothing ∧ h.cells[a]? = some c := by
  have hget : ∀ i : Nat, h.toList[i]? = (h.cells[i]?).map fun c => (i, c) := by
    intro i
    rw [toList, List.getElem?_map, List.getElem?_zipIdx, Array.getElem?_toList, Option.map_map]
    simp [Function.comp_def]
  rw [List.mem_iff_getElem?]
  simp only [List.getElem?_drop, hget, Option.map_eq_some_iff]
  constructor
  · intro ⟨i, d, hd, heq⟩
    obtain ⟨rfl, rfl⟩ := Prod.mk.inj heq
    exact ⟨Nat.ne_of_gt (Nat.add_pos_left Nat.one_pos i), hd⟩
  · intro ⟨ha, hc⟩
    obtain ⟨i, rfl⟩ := Nat.exists_eq_add_of_le (Nat.one_le_iff_ne_zero.mpr ha)
    exact ⟨i, c, hc, rfl⟩

theorem check_eq (hs : h.cells[0]? = some .sentinel) : h.check corpus
    = (h.toList.drop 1).forM (fun (a, c) => h.checkCell corpus a c) >>= fun _ =>
      h.checkTree corpus := by
  have hfirst : Cell.sentinel.isSentinel = true := beq_self_eq_true Cell.sentinel
  have hget : h.get .nothing = .ok .sentinel := get_eq_ok.mpr hs
  rw [check, hget]
  show (pure Cell.sentinel >>= fun first => if first.isSentinel = true then _ else _) = _
  rw [pure_bind, if_pos hfirst]

theorem sentinel_of_check (hok : h.check corpus = .ok ()) : h.cells[0]? = some .sentinel := by
  obtain ⟨first, hget, hok⟩ := bind_eq_ok.mp hok
  split at hok
  · next hfirst =>
    obtain rfl : first = .sentinel := beq_iff_eq.mp hfirst
    exact get_eq_ok.mp hget
  · cases hok

/-- every cell but the sentinel passes -/
theorem forM_checkCell_eq_ok :
    (h.toList.drop 1).forM (fun (a, c) => h.checkCell corpus a c) = .ok () ↔
      ∀ (a : Address) (c : Cell), a ≠ .nothing → h.cells[a]? = some c →
        h.checkCell corpus a c = .ok () := by
  rw [forM_eq_ok]
  constructor
  · intro hall a c ha hc
    exact hall (a, c) (mem_drop_toList.mpr ⟨ha, hc⟩)
  · intro hall ⟨a, c⟩ hmem
    obtain ⟨ha, hc⟩ := mem_drop_toList.mp hmem
    exact hall a c ha hc

theorem check_eq_ok : h.check corpus = .ok () ↔ h.cells[0]? = some .sentinel ∧
    (∀ (a : Address) (c : Cell), a ≠ .nothing → h.cells[a]? = some c →
      h.checkCell corpus a c = .ok ()) ∧ h.checkTree corpus = .ok () := by
  constructor
  · intro hok
    have hs := sentinel_of_check hok
    rw [check_eq hs] at hok
    obtain ⟨_, hall, htree⟩ := bind_eq_ok.mp hok
    exact ⟨hs, forM_checkCell_eq_ok.mp hall, htree⟩
  · intro ⟨hs, hall, htree⟩
    rw [check_eq hs]
    exact bind_eq_ok.mpr ⟨(), forM_checkCell_eq_ok.mpr hall, htree⟩

/-- in a heap with a sentinel and cells of the right links, children are within the heap -/
theorem child_inside (hs : h.cells[0]? = some .sentinel)
    (hcells : ∀ (a : Address) (c : Cell), a ≠ .nothing → h.cells[a]? = some c →
      ∃ shape, corpus.shape? c.kind = some shape ∧ h.CellLinked shape c)
    {a b : Address} {spot : Spot} (hb : h.Child corpus a spot b) : b ≠ .nothing ∧ b < h.size := by
  have ha := hb.ne_nothing hs
  cases hb with
  | statement hc _ _ hl hi =>
    obtain ⟨hne, hget⟩ := hl.mem (List.mem_of_getElem? hi)
    exact ⟨hne, lt_size_of_getElem? hget⟩
  | @arg c name _ hc harg =>
    obtain ⟨shape, hshape, hlinked⟩ := hcells a c ha hc
    cases hspec : shape.arg? name with
    | none =>
      rw [hlinked.declared name hspec] at harg
      cases harg
    | some spec =>
      obtain ⟨hmem, rfl⟩ := KindShape.mem_args_of_arg? hspec
      exact (hlinked.args spec hmem _ harg).2

end

/-! ## sound cells are linked -/

section
variable {h : Heap} {corpus : Corpus} {shape : KindShape} {c : Cell}

theorem CellSound.linked (hs : h.CellSound shape c) : h.CellLinked shape c where
  parent := hs.parent
  next := hs.next
  body := hs.body
  declared _ hname := hs.declared hname
  args spec hspec v hv := by
    cases ht : spec.type.isNode with
    | false =>
      obtain ⟨s, heq, hacc⟩ := hs.scalars spec hspec ht
      obtain rfl := Option.some.inj (hv.symm.trans heq)
      exact hacc
    | true =>
      obtain ⟨kinds, hk⟩ := ArgType.isNode_iff.mp ht
      obtain ⟨b, d, heq, hb, hd, _⟩ := hs.nodes spec hspec kinds hk
      obtain rfl := Option.some.inj (hv.symm.trans heq)
      exact ⟨ht, hb, lt_size_of_getElem? hd⟩
  primary name hp := by
    rw [hs.primary name hp]
    rfl
  leaf := hs.leaf

theorem WellFormed.rooted (hw : h.WellFormed corpus) (hsize : Address.root < h.size) :
    h.Rooted corpus := by
  obtain ⟨hroot, honce, hreached⟩ := hw.tree hsize
  have hinside := @child_inside h corpus hw.sentinel fun a c ha hc => by
    obtain ⟨shape, hs, hsound⟩ := hw.cells a c ha hc
    exact ⟨shape, hs, hsound.linked⟩
  refine ⟨hroot, fun {a a' b spot spot'} hb hb' => ?_, hreached⟩
  obtain ⟨hne, hlt⟩ := hinside hb
  have hnroot : b ≠ .root := fun heq => hroot a spot (heq ▸ hb)
  have heq : (a, spot) = (a', spot') := (honce b hne hnroot hlt).unique hb hb'
  exact Prod.mk.inj heq

theorem WellFormed.linked (hw : h.WellFormed corpus) : h.Linked corpus where
  sentinel := hw.sentinel
  inside := child_inside hw.sentinel fun a c ha hc => by
    obtain ⟨shape, hs, hsound⟩ := hw.cells a c ha hc
    exact ⟨shape, hs, hsound.linked⟩
  ends a c _ hc := (hw.chains a c hc).ends
  next := hw.next
  rooted := hw.rooted

end

/-! ## what the check says -/

section
variable {h : Heap} {corpus : Corpus}

/-- in one tree every cell but cell 1 is a child exactly once -/
theorem Rooted.existsUnique (hr : h.Rooted corpus) {b : Address} (hb : b ≠ .nothing)
    (hroot : b ≠ .root) (hlt : b < h.size) : ∃! e : Address × Spot, h.Child corpus e.1 e.2 b := by
  rcases (hr.reached b hb hlt).eq_or_child with heq | ⟨a, spot, hchild⟩
  · exact absurd heq hroot
  · refine ⟨(a, spot), hchild, fun ⟨a', spot'⟩ hchild' => ?_⟩
    obtain ⟨rfl, rfl⟩ := hr.unique hchild' hchild
    rfl

theorem chainSound_sentinel : h.ChainSound corpus .sentinel :=
  fun _ _ _ _ => ⟨[], .nothing, fun _ he => absurd he List.not_mem_nil⟩

theorem wellFormed_of_check (hok : h.check corpus = .ok ()) : h.WellFormed corpus := by
  obtain ⟨hs, hcells, htree⟩ := check_eq_ok.mp hok
  have hsound : ∀ (a : Address) (c : Cell), a ≠ .nothing → h.cells[a]? = some c →
      ∃ shape, corpus.shape? c.kind = some shape ∧ h.CellSound shape c :=
    fun a c ha hc => checkCell_eq_ok.mp (hcells a c ha hc)
  by_cases hsize : Address.root < h.size
  · obtain ⟨visited, ht⟩ := exists_tour hsize htree
    have hrooted := ht.rooted hs
    refine ⟨hs, hsound, fun a c hc => ?_, fun _ => ⟨hrooted.root,
      fun _ hb hroot hlt => hrooted.existsUnique hb hroot hlt, hrooted.reached⟩,
      fun a c hc hfree => ?_⟩
    · by_cases ha : a = .nothing
      · subst ha
        obtain rfl := Option.some.inj (hs.symm.trans hc)
        exact chainSound_sentinel
      · exact ht.sound ha hc
    · by_cases ha : a = .nothing
      · subst ha
        obtain rfl := Option.some.inj (hs.symm.trans hc)
        rfl
      · exact ht.next ha hc hfree
  · have hle : h.size ≤ Address.root := Nat.le_of_not_lt hsize
    have hnothing : ∀ (a : Address) (c : Cell), h.cells[a]? = some c → a = .nothing := by
      intro a c hc
      have hlt : a < 1 := Nat.lt_of_lt_of_le (lt_size_of_getElem? hc) hle
      exact Nat.lt_one_iff.mp hlt
    have honly : ∀ (a : Address) (c : Cell), h.cells[a]? = some c → c = .sentinel := by
      intro a c hc
      obtain rfl := hnothing a c hc
      exact Option.some.inj (hc.symm.trans hs)
    refine ⟨hs, hsound, fun a c hc => ?_, fun h => absurd h hsize, fun a c hc _ => ?_⟩
    · rw [honly a c hc]
      exact chainSound_sentinel
    · rw [honly a c hc]
      rfl

theorem check_of_wellFormed (hw : h.WellFormed corpus) : h.check corpus = .ok () := by
  refine check_eq_ok.mpr ⟨hw.sentinel, fun a c ha hc => checkCell_eq_ok.mpr (hw.cells a c ha hc), ?_⟩
  rcases checkTree_of_linked hw.linked with htree | ⟨_, _, _, a, c, ha, hc, hunsound⟩
  · exact htree
  · exact absurd (hw.chains a c hc) hunsound

/-- **The check accepts exactly the well-formed heaps** -/
theorem check_eq_ok_iff_wellFormed : h.check corpus = .ok () ↔ h.WellFormed corpus :=
  ⟨wellFormed_of_check, check_of_wellFormed⟩

/-- the check of a linked heap finds at most a lack -/
theorem check_of_linked (hl : h.Linked corpus)
    (hcells : ∀ (a : Address) (c : Cell), a ≠ .nothing → h.cells[a]? = some c →
      ∃ shape, corpus.shape? c.kind = some shape ∧ h.CellLinked shape c) {f : Corruption}
    (hf : h.check corpus = .error f) : Lacking f := by
  rw [check_eq hl.sentinel] at hf
  rcases bind_eq_error.mp hf with hf | ⟨_, _, hf⟩
  · obtain ⟨⟨a, c⟩, hmem, hf⟩ := forM_eq_error hf
    obtain ⟨ha, hc⟩ := mem_drop_toList.mp hmem
    obtain ⟨shape, hs, hlinked⟩ := hcells a c ha hc
    exact checkCell_of_linked hs hlinked hf
  · rcases checkTree_of_linked hl with htree | ⟨g, htree, hlacking, _⟩
    · rw [htree] at hf
      cases hf
    · rw [htree] at hf
      cases hf
      exact hlacking

end

end Heap

end ScriptHeap
