import ScriptHeap.Proofs.Links
import ScriptHeap.Proofs.RebuildLoop
import ScriptHeap.Sample
/-!
# Reading cyclic heaps

* `Heap.Met`           a cell that the reading opens, with the kinds that its place admits;
* `Heap.Endless`       a cell above a cell that is below itself;
* `Heap.rebuildBelow_of_endless`   the reading of such a cell exceeds every depth limit, if nothing
                       else is wrong;
* `Heap.rebuild_loop_ends`   the loop ends on every heap, cyclic or not, and as the reading does.
-/

namespace ScriptHeap

namespace Heap

/-! ## what the reading meets -/

/-- a cell that is met on the way from a root, and the kinds that its place admits -/
inductive Met (h : Heap) (corpus : Corpus) (root : Address) : Option (List Kind) → Address → Prop
  | root : Met h corpus root none root
  | pending {allowed : Option (List Kind)} {a : Address} {o : OpenedCell} {p : Pending}
    (ha : Met h corpus root allowed a) (ho : h.openCell corpus allowed a = .ok o)
    (hp : p ∈ o.pending) : Met h corpus root (some p.target.allowed) p.target.address

section
variable {h : Heap} {corpus : Corpus} {limit levels : Nat} {allowed : Option (List Kind)}
  {root a b : Address} {spot : Spot} {o : OpenedCell}

theorem opens_of_openArgs {c : Cell} {specs : List ArgSpec} {args : List (String × Arg Target)}
    (h : openArgs c specs = .ok args) :
    ∀ spec ∈ specs, ∃ v, Opens c spec v ∧ (spec.name, v) ∈ args := by
  induction specs generalizing args with
  | nil => exact fun _ hspec => absurd hspec List.not_mem_nil
  | cons spec specs ih =>
    obtain ⟨v, rest, hv, hrest, rfl⟩ := openArgs_cons_eq_ok.mp h
    refine List.forall_mem_cons.mpr ⟨⟨v, hv, List.mem_cons_self⟩, fun spec' hspec' => ?_⟩
    obtain ⟨w, hw, hmem⟩ := ih hrest spec' hspec'
    exact ⟨w, hw, List.mem_cons_of_mem _ hmem⟩

/-- whatever is below a cell is read with it -/
theorem Child.exists_pending (hb : h.Child corpus a spot b)
    (ho : h.openCell corpus allowed a = .ok o) : ∃ p ∈ o.pending, p.target.address = b := by
  obtain ⟨c, shape, hc, hs, _, hnames, args, statements, hargs, hbody, rfl⟩ := openCell_eq_ok.mp ho
  cases hb with
  | @statement c' d shape' l i _ hc' hs' hblock hl hi =>
    obtain rfl := Option.some.inj (hc.symm.trans hc')
    obtain rfl := Option.some.inj (hs.symm.trans hs')
    obtain ⟨kinds, hrule⟩ := KindShape.isBlock_iff.mp hblock
    rw [hrule, openBody, complete_chain_iff.mpr hl] at hbody
    cases hbody
    refine ⟨⟨⟨b, kinds⟩, none⟩, List.mem_append_right _ (List.mem_map_of_mem ?_), rfl⟩
    exact List.mem_map.mpr ⟨(b, d), List.mem_of_getElem? hi, rfl⟩
  | @arg c' name _ hc' harg =>
    obtain rfl := Option.some.inj (hc.symm.trans hc')
    cases hspec : shape.arg? name with
    | none =>
      rw [hnames name hspec] at harg
      cases harg
    | some spec =>
      obtain ⟨hmem, rfl⟩ := KindShape.mem_args_of_arg? hspec
      obtain ⟨v, hv, hmem⟩ := opens_of_openArgs hargs spec hmem
      cases hv with
      | scalar hv _ =>
        rw [hv] at harg
        cases harg
      | @nested b' kinds hv _ _ =>
        rw [hv] at harg
        cases harg
        refine ⟨⟨⟨b, kinds⟩, some spec.name⟩, List.mem_append_left _ ?_, rfl⟩
        refine List.mem_map.mpr ⟨(spec.name, ⟨b, kinds⟩), ?_, rfl⟩
        exact List.mem_filterMap.mpr ⟨_, hmem, rfl⟩

/-- if all cells that are met open, nothing but the depth can be wrong -/
theorem fault_eq_depthExceeded
    (hopen : ∀ allowed a, h.Met corpus root allowed a → ∃ o, h.openCell corpus allowed a = .ok o)
    (ha : h.Met corpus root allowed a) {fault : RebuildFault}
    (hr : h.rebuildBelow corpus limit levels allowed a = .error fault) :
    fault = .depthExceeded limit := by
  induction levels generalizing allowed a with
  | zero =>
    cases hr
    rfl
  | succ levels ih =>
    obtain ⟨o, ho⟩ := hopen allowed a ha
    rw [rebuildBelow_of_openCell ho] at hr
    obtain ⟨p, hp, n, hread⟩ := foldlM_eq_error hr
    exact ih (.pending ha ho hp) (map_eq_error.mp hread)

/-! ## cells below themselves -/

/-- from a cell one comes down to a cell that is below itself -/
def Endless (h : Heap) (corpus : Corpus) (a : Address) : Prop :=
  ∃ b spot c, h.Reaches corpus a b ∧ h.Child corpus b spot c ∧ h.Reaches corpus c b

theorem Reaches.eq_or_below (hb : h.Reaches corpus a b) :
    b = a ∨ ∃ spot c, h.Child corpus a spot c ∧ h.Reaches corpus c b := by
  induction hb with
  | self => exact .inl rfl
  | child _ hc ih =>
    rcases ih with rfl | ⟨spot, d, hd, hdb⟩
    · exact .inr ⟨_, _, hc, .self⟩
    · exact .inr ⟨spot, d, hd, .child hdb hc⟩

/-- below such a cell is another one, and so on -/
theorem Endless.exists_child (ha : h.Endless corpus a) :
    ∃ spot c, h.Child corpus a spot c ∧ h.Endless corpus c := by
  obtain ⟨b, spot, c, hb, hc, hcb⟩ := ha
  rcases hb.eq_or_below with rfl | ⟨spot', d, hd, hdb⟩
  · exact ⟨spot, c, hc, b, spot, c, hcb, hc, hcb⟩
  · exact ⟨spot', d, hd, b, spot, c, hdb, hc, hcb⟩

/-- a tree of any depth is too small for what is below such a cell -/
theorem rebuildBelow_of_endless
    (hopen : ∀ allowed a, h.Met corpus root allowed a → ∃ o, h.openCell corpus allowed a = .ok o)
    (ha : h.Met corpus root allowed a) (hend : h.Endless corpus a) :
    h.rebuildBelow corpus limit levels allowed a = .error (.depthExceeded limit) := by
  cases hr : h.rebuildBelow corpus limit levels allowed a with
  | error fault => rw [fault_eq_depthExceeded hopen ha hr]
  | ok n =>
    exfalso
    induction levels generalizing allowed a n with
    | zero => cases hr
    | succ levels ih =>
      obtain ⟨o, ho⟩ := hopen allowed a ha
      obtain ⟨spot, c, hc, hendc⟩ := hend.exists_child
      obtain ⟨p, hp, rfl⟩ := hc.exists_pending ho
      rw [rebuildBelow_of_openCell ho] at hr
      obtain ⟨n', _, hread⟩ := foldlM_eq_ok hr p hp
      obtain ⟨child, hchild, _⟩ := map_eq_ok.mp hread
      exact ih (.pending ha ho hp) hendc child hchild

/-- **the loop ends on every heap, and as the reading does; if every cell that is met opens, and one of
them is below itself, the result is that the depth limit is exceeded, whatever the limit is** -/
theorem rebuild_loop_ends (h : Heap) (corpus : Corpus) (policy : Policy) (root : Address) :
    (∀ out, Loop.Ends (h.readRound corpus policy.maxDepth) (h.readStart corpus policy.maxDepth root) out
      ↔ out = h.rebuild corpus policy root) ∧
    ((∀ allowed a, h.Met corpus root allowed a → ∃ o, h.openCell corpus allowed a = .ok o) →
      h.Endless corpus root → h.rebuild corpus policy root = .error (.depthExceeded policy.maxDepth)) :=
  ⟨fun _ => (ends_rebuildBelow policy.maxDepth_pos root).iff,
    fun hopen hend => rebuildBelow_of_endless hopen .root hend⟩

end

end Heap

/-! ## an example -/

namespace Sample

/-- a sequence that is its own statement -/
def coiled : Heap where
  cells := #[.sentinel, { Cell.ofKind .sequence with body := 1 }]

theorem coiled_opens {allowed : Option (List Kind)} {a : Address}
    (ha : coiled.Met nestingCorpus .root allowed a) : a = .root ∧
      (allowed = none ∨ allowed = some [.sequence]) := by
  induction ha with
  | root => exact ⟨rfl, .inl rfl⟩
  | @pending allowed a o p _ ho hp ih =>
    have hopened : coiled.openCell nestingCorpus allowed a
        = .ok ⟨.sequence, [], [⟨.root, [.sequence]⟩]⟩ := by
      obtain ⟨rfl, rfl | rfl⟩ := ih <;> rfl
    obtain rfl := Except.ok.inj (ho.symm.trans hopened)
    obtain rfl := List.mem_singleton.mp hp
    exact ⟨rfl, .inr rfl⟩

theorem coiled_exceeds_depth :
    (∀ allowed a, coiled.Met nestingCorpus .root allowed a →
      ∃ o, coiled.openCell nestingCorpus allowed a = .ok o) ∧
    coiled.Endless nestingCorpus .root ∧
    coiled.rebuild nestingCorpus .default .root = .error (.depthExceeded 128) := by
  have hopen : ∀ allowed a, coiled.Met nestingCorpus .root allowed a →
      ∃ o, coiled.openCell nestingCorpus allowed a = .ok o := by
    intro allowed a ha
    obtain ⟨rfl, rfl | rfl⟩ := coiled_opens ha <;> exact ⟨_, rfl⟩
  have hfollows : coiled.Follows .root [(.root, { Cell.ofKind .sequence with body := 1 })] :=
    .cell Nat.one_ne_zero rfl .nothing
  have hchild : coiled.Child nestingCorpus .root (.statement 0) .root :=
    .statement rfl rfl rfl hfollows rfl
  have hend : coiled.Endless nestingCorpus .root := ⟨.root, _, .root, .self, hchild, .self⟩
  exact ⟨hopen, hend, (Heap.rebuild_loop_ends coiled nestingCorpus .default .root).2 hopen hend⟩

end Sample

end ScriptHeap
