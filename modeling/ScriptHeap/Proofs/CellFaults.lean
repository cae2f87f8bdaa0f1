import ScriptHeap.Proofs.WellFormed
/-!
# The check of all cells

* `Heap.checkCells`    the part of the check before the walk: the sentinel, then every cell;
* `Heap.CellsSound`, `Heap.checkCells_eq_ok`   what it asks for;
* `Heap.CellsSound.inside`   then what is below a cell lies within the heap, and so do all links;
* `CorruptReason.ofCell`, `Heap.reason_of_checkCells`   what it may find.
-/

namespace ScriptHeap

/-- a reason to refuse a cell by itself -/
def CorruptReason.ofCell : CorruptReason → Bool
  | unregisteredKind _ => true
  | danglingLink _ _ => true
  | unknownArg _ => true
  | missingArg _ => true
  | argTypeMismatch _ _ => true
  | danglingArg _ _ => true
  | sentinelArg _ => true
  | disallowedKind _ _ => true
  | primaryMismatch _ _ => true
  | unexpectedBody _ => true
  | _ => false

namespace Heap

/-- the sentinel as it should be, then every other cell -/
def checkCells (h : Heap) (corpus : Corpus) : Except Corruption Unit := do
  let first ← h.get .nothing
  if first.isSentinel then (h.toList.drop 1).forM fun (a, c) => h.checkCell corpus a c
  else .error ⟨.nothing, .sentinelModified⟩

/-- the sentinel is as it should be, and every other cell is sound -/
structure CellsSound (h : Heap) (corpus : Corpus) : Prop where
  sentinel : h.cells[0]? = some .sentinel
  cells : ∀ (a : Address) (c : Cell), a ≠ .nothing → h.cells[a]? = some c →
    ∃ shape, corpus.shape? c.kind = some shape ∧ h.CellSound shape c

section
variable {h : Heap} {corpus : Corpus}

/-- the check is that of the cells, then that of the tree -/
theorem check_eq_bind : h.check corpus = h.checkCells corpus >>= fun _ => h.checkTree corpus := by
  unfold check checkCells
  rw [bind_assoc]
  refine bind_congr fun first => ?_
  split <;> rfl

theorem checkCells_eq_ok : h.checkCells corpus = .ok () ↔ h.CellsSound corpus := by
  constructor
  · intro hok
    obtain ⟨first, hget, hok⟩ := bind_eq_ok.mp hok
    split at hok
    · next hfirst =>
      obtain rfl : first = .sentinel := beq_iff_eq.mp hfirst
      exact ⟨get_eq_ok.mp hget,
        fun a c ha hc => checkCell_eq_ok.mp (forM_checkCell_eq_ok.mp hok a c ha hc)⟩
    · cases hok
  · intro hsound
    have hfirst : Cell.sentinel.isSentinel = true := beq_self_eq_true Cell.sentinel
    refine bind_eq_ok.mpr ⟨.sentinel, get_eq_ok.mpr hsound.sentinel, ?_⟩
    rw [if_pos hfirst, forM_checkCell_eq_ok]
    exact fun a c ha hc => checkCell_eq_ok.mpr (hsound.cells a c ha hc)

/-! ## what sound cells say of links -/

theorem CellsSound.inside (hs : h.CellsSound corpus) {a b : Address} {spot : Spot}
    (hb : h.Child corpus a spot b) : b ≠ .nothing ∧ b < h.size :=
  child_inside hs.sentinel (fun a c ha hc =>
    let ⟨shape, hshape, hsound⟩ := hs.cells a c ha hc
    ⟨shape, hshape, hsound.linked⟩) hb

theorem CellsSound.links_lt (hs : h.CellsSound corpus) {a : Address} {c : Cell}
    (hc : h.cells[a]? = some c) : c.next < h.size ∧ c.body < h.size := by
  by_cases ha : a = .nothing
  · subst ha
    obtain rfl := Option.some.inj (hs.sentinel.symm.trans hc)
    exact ⟨lt_size_of_getElem? hc, lt_size_of_getElem? hc⟩
  · obtain ⟨shape, _, hsound⟩ := hs.cells a c ha hc
    exact ⟨hsound.next, hsound.body⟩

/-! ## what may be wrong with a cell -/

section
variable {a : Address} {c : Cell} {f : Corruption}

/-- the target of an argument is looked up within the heap only -/
theorem ofCell_of_checkTarget {name : String} {kinds : List Kind} {b : Address}
    (hf : h.checkTarget a name kinds b = .error f) : f.reason.ofCell = true := by
  unfold checkTarget at hf
  split at hf
  · cases hf
    rfl
  · next hlt =>
    split at hf
    · cases hf
      rfl
    · rcases bind_eq_error.mp hf with hget | ⟨d, _, hk⟩
      · exact absurd (get_eq_error hget).1 hlt
      · split at hk
        · cases hk
        · cases hk
          rfl

theorem ofCell_of_checkArg {spec : ArgSpec} (hf : h.checkArg a c spec = .error f) :
    f.reason.ofCell = true := by
  unfold checkArg at hf
  split at hf
  · cases hf
    rfl
  · exact ofCell_of_checkTarget hf
  · cases hf
    rfl
  · split at hf
    · cases hf
    · cases hf
      rfl

theorem ofCell_of_checkCell (hf : h.checkCell corpus a c = .error f) : f.reason.ofCell = true := by
  cases hs : corpus.shape? c.kind with
  | none =>
    rw [checkCell, hs] at hf
    cases hf
    rfl
  | some shape =>
    rw [checkCell_eq hs] at hf
    rcases bind_eq_error.mp hf with hf | ⟨_, _, hf⟩
    · unfold checkLinks at hf
      split at hf
      · cases hf
      · cases hf
        rfl
    rcases bind_eq_error.mp hf with hf | ⟨_, _, hf⟩
    · unfold checkNames at hf
      split at hf
      · cases hf
      · cases hf
        rfl
    rcases bind_eq_error.mp hf with hf | ⟨_, _, hf⟩
    · obtain ⟨spec, _, hf⟩ := forM_eq_error hf
      exact ofCell_of_checkArg hf
    · unfold checkBody at hf
      split at hf
      · cases hf
      all_goals
        split at hf
        · cases hf
        · cases hf
          rfl

/-- an address is out of range only where there is no sentinel -/
theorem reason_of_checkCells (hf : h.checkCells corpus = .error f) :
    (h.size = 0 ∧ f = ⟨.nothing, .outOfRange 0⟩) ∨ f = ⟨.nothing, .sentinelModified⟩ ∨
      f.reason.ofCell = true := by
  rcases bind_eq_error.mp hf with hget | ⟨first, _, hf⟩
  · obtain ⟨hsize, rfl⟩ := get_eq_error hget
    have hzero : h.size = 0 := Nat.le_zero.mp hsize
    exact .inl ⟨hzero, by rw [hzero]⟩
  · split at hf
    · obtain ⟨⟨a, c⟩, _, hf⟩ := forM_eq_error hf
      exact .inr (.inr (ofCell_of_checkCell hf))
    · cases hf
      exact .inr (.inl rfl)

end

end

end Heap

end ScriptHeap
