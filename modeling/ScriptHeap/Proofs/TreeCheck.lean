import ScriptHeap.Proofs.Walk
/-!
# The check that the cells form a tree

* `Heap.Linked`        the links of a heap are those of one tree below cell 1;
* `Heap.exists_tour`   the check accepts only heaps with a walk that visits every cell;
* `Heap.Tour.rooted`, `Heap.Tour.next`   such a heap is one tree, and only statements are chained;
* `Heap.checkTree_of_linked`   the check of a linked heap succeeds, or finds a statement of a kind that
                       its block does not admit.
-/

namespace ScriptHeap

namespace Heap

/-! ## linked heaps -/

/-- the links of a heap are those of one tree; nothing is said of the kinds -/
structure Linked (h : Heap) (corpus : Corpus) : Prop where
  sentinel : h.cells[0]? = some .sentinel
  inside : ∀ {a b : Address} {spot : Spot}, h.Child corpus a spot b → b ≠ .nothing ∧ b < h.size
  ends : ∀ (a : Address) (c : Cell), a ≠ .nothing → h.cells[a]? = some c → h.ChainEnds corpus c
  next : ∀ (a : Address) (c : Cell), h.cells[a]? = some c →
    (∀ a' i, ¬ h.Child corpus a' (.statement i) a) → c.next = .nothing
  rooted : Address.root < h.size → h.Rooted corpus

/-- a walk from cell 1 visits every cell once -/
structure Tour (h : Heap) (corpus : Corpus) (visited : List Reach) : Prop where
  visits : h.Visits corpus [⟨.root, false⟩] visited []
  nodup : (visited.map (·.address)).Nodup
  mem_iff : ∀ a : Address, a ∈ visited.map (·.address) ↔ a ≠ .nothing ∧ a < h.size

/-! ## marks -/

section
variable {h : Heap} {corpus : Corpus}

/-- the marks before the walk -/
def unseen (h : Heap) : Array Bool :=
  (Array.replicate h.size false).setIfInBounds Address.nothing true

theorem size_unseen (h : Heap) : h.unseen.size = h.size := by
  rw [unseen, Array.size_setIfInBounds, Array.size_replicate]

theorem unseen_eq_false_iff {a : Address} :
    h.unseen[a]? = some false ↔ a ≠ .nothing ∧ a < h.size := by
  rw [unseen, Array.getElem?_setIfInBounds, Array.size_replicate, Array.getElem?_replicate]
  by_cases ha : Address.nothing = a
  · subst ha
    simp
  · rw [if_neg ha]
    simp [Ne.symm ha]

theorem unseen_eq_true {a : Address} (ha : h.unseen[a]? = some true) : a = .nothing := by
  rw [unseen, Array.getElem?_setIfInBounds, Array.getElem?_replicate] at ha
  by_cases heq : Address.nothing = a
  · exact heq.symm
  · rw [if_neg heq] at ha
    simp at ha

theorem checkTree_eq (hsize : Address.root < h.size) : h.checkTree corpus
    = h.walk corpus h.unseen [⟨.root, false⟩] >>= fun seen =>
      match seen.findIdx? (· == false) with
      | none => .ok ()
      | some a => .error ⟨a, .orphan⟩ := by
  rw [checkTree, if_neg (Nat.not_le.mpr hsize)]
  rfl

theorem findIdx?_marks_eq_none {marks : Array Bool} :
    marks.findIdx? (· == false) = none ↔ ∀ a : Address, marks[a]? ≠ some false := by
  rw [Array.findIdx?_eq_none_iff]
  constructor
  · intro hall a ha
    have hmem := Array.mem_of_getElem? ha
    have := hall false hmem
    cases this
  · intro hall x hx
    obtain ⟨a, ha⟩ := Array.getElem?_of_mem hx
    cases x with
    | true => rfl
    | false => exact absurd ha (hall a)

/-- the check accepts only heaps that a walk visits completely -/
theorem exists_tour (hsize : Address.root < h.size) (hok : h.checkTree corpus = .ok ()) :
    ∃ visited, h.Tour corpus visited := by
  rw [checkTree_eq hsize] at hok
  obtain ⟨marks, hwalk, hmarks⟩ := bind_eq_ok.mp hok
  obtain ⟨visited, left, hv, hnodup, hnew, hends⟩ :=
    walk_visits h corpus h.unseen [⟨.root, false⟩]
  rw [hwalk] at hends
  cases hends with
  | empty hm =>
    refine ⟨visited, hv, hnodup, fun a => ⟨fun ha => ?_, fun ha => ?_⟩⟩
    · obtain ⟨r, hr, rfl⟩ := List.mem_map.mp ha
      exact unseen_eq_false_iff.mp (hnew r hr)
    · have hnone : marks.findIdx? (· == false) = none := by
        cases hfind : marks.findIdx? (· == false) with
        | none => rfl
        | some b => rw [hfind] at hmarks; cases hmarks
      have hseen := findIdx?_marks_eq_none.mp hnone a
      rw [Ne, hm, not_and, not_not] at hseen
      exact hseen (unseen_eq_false_iff.mpr ha)

end

/-! ## what a complete walk shows -/

section
variable {h : Heap} {corpus : Corpus} {visited left : List Reach}

theorem Visits.sound {stack : List Reach} (hv : h.Visits corpus stack visited left) :
    ∀ r ∈ visited, ∃ c, h.cells[r.address]? = some c ∧ (r.statement = false → c.next = .nothing) ∧
      h.ChainSound corpus c := by
  intro r hr
  obtain ⟨children, hc⟩ := hv.expand_ok r hr
  obtain ⟨c, hget, hnext, hsound, _⟩ := expand_eq_ok.mp hc
  exact ⟨c, hget, hnext, hsound⟩

theorem Visits.ends {stack : List Reach} (hv : h.Visits corpus stack visited left) :
    ∀ a ∈ visited.map (·.address), ∃ c, h.cells[a]? = some c ∧ h.ChainEnds corpus c := by
  intro a ha
  obtain ⟨r, hr, rfl⟩ := List.mem_map.mp ha
  obtain ⟨c, hget, _, hsound⟩ := hv.sound r hr
  exact ⟨c, hget, hsound.ends⟩

/-- the addresses that are visited or left are cell 1 and those at the spots of the visited cells -/
theorem Visits.addresses_perm (hv : h.Visits corpus [⟨.root, false⟩] visited left) :
    ((visited ++ left).map (·.address)).Perm
      (.root :: (h.edges corpus (visited.map (·.address))).map Prod.snd) := by
  have hperm := hv.perm.map (·.address)
  have hedges : (h.edges corpus (visited.map (·.address))).map Prod.snd
      = (visited.flatMap fun r => (h.spots corpus r.address).map Prod.snd).map (·.address) := by
    rw [edges, List.flatMap_map, List.map_flatMap, List.map_flatMap]
    refine List.flatMap_congr fun r _ => ?_
    rw [List.map_map, List.map_map]
    rfl
  rw [hedges]
  exact hperm

/-- a visit that is not the first is of what lies at a spot of a visited cell -/
theorem Visits.eq_root_or_child (hv : h.Visits corpus [⟨.root, false⟩] visited left) {r : Reach}
    (hr : r ∈ visited ++ left) : r = ⟨.root, false⟩ ∨ ∃ a ∈ visited.map (·.address), ∃ spot,
      h.Child corpus a spot r.address ∧ r.statement = spot.isStatement := by
  have hmem := hv.perm.mem_iff.mp hr
  rcases List.mem_append.mp hmem with hmem | hmem
  · exact .inl (List.mem_singleton.mp hmem)
  · obtain ⟨q, hq, hspot⟩ := List.mem_flatMap.mp hmem
    obtain ⟨⟨spot, r⟩, hspot', rfl⟩ := List.mem_map.mp hspot
    obtain ⟨c, hc, _, hsound⟩ := hv.sound q hq
    exact .inr ⟨q.address, List.mem_map_of_mem hq, spot, (mem_spots hc hsound.ends).mp hspot'⟩

/-- if what is below a cell lies within the heap, so does all that is visited or left -/
theorem Visits.address_inside (hv : h.Visits corpus [⟨.root, false⟩] visited left)
    (hsize : Address.root < h.size)
    (hin : ∀ {a b : Address} {spot : Spot}, h.Child corpus a spot b → b ≠ .nothing ∧ b < h.size)
    {r : Reach} (hr : r ∈ visited ++ left) : r.address ≠ .nothing ∧ r.address < h.size := by
  rcases hv.eq_root_or_child hr with heq | ⟨a, _, spot, hb, _⟩
  · rw [heq]
    exact ⟨Nat.succ_ne_zero 0, hsize⟩
  · exact hin hb

theorem Tour.mem_of_child (ht : h.Tour corpus visited) (hs : h.cells[0]? = some .sentinel)
    {a b : Address} {spot : Spot} (hb : h.Child corpus a spot b) :
    a ∈ visited.map (·.address) := (ht.mem_iff a).mpr ⟨hb.ne_nothing hs, hb.lt_size⟩

theorem Tour.targets_nodup (ht : h.Tour corpus visited) :
    (Address.root :: (h.edges corpus (visited.map (·.address))).map Prod.snd).Nodup := by
  have hperm := ht.visits.addresses_perm
  rw [List.append_nil] at hperm
  exact hperm.nodup_iff.mp ht.nodup

/-- a heap with a complete walk is one tree -/
theorem Tour.rooted (ht : h.Tour corpus visited) (hs : h.cells[0]? = some .sentinel) :
    h.Rooted corpus := by
  obtain ⟨hroot, htargets⟩ := List.nodup_cons.mp ht.targets_nodup
  refine ⟨fun a spot hb => hroot ?_, fun {a a' b spot spot'} hb hb' => ?_, fun b hb hlt => ?_⟩
  · have hedge := (mem_edges ht.visits.ends).mpr ⟨ht.mem_of_child hs hb, hb⟩
    exact List.mem_map_of_mem (f := Prod.snd) hedge
  · exact (targets_nodup_iff ht.nodup ht.visits.ends).mp htargets a (ht.mem_of_child hs hb) a'
      (ht.mem_of_child hs hb') spot spot' b hb hb'
  · obtain ⟨r, hr, rfl⟩ := List.mem_map.mp ((ht.mem_iff b).mpr ⟨hb, hlt⟩)
    refine ht.visits.reaches (fun q hq => ?_) r (List.mem_append_left _ hr)
    rw [List.mem_singleton.mp hq]
    exact .self

theorem Tour.sound (ht : h.Tour corpus visited) {a : Address} {c : Cell} (ha : a ≠ .nothing)
    (hc : h.cells[a]? = some c) : h.ChainSound corpus c := by
  obtain ⟨r, hr, rfl⟩ := List.mem_map.mp ((ht.mem_iff a).mpr ⟨ha, lt_size_of_getElem? hc⟩)
  obtain ⟨c', hc', _, hsound⟩ := ht.visits.sound r hr
  obtain rfl := Option.some.inj (hc.symm.trans hc')
  exact hsound

/-- a cell that is on no chain has no next link: it was not visited as a statement -/
theorem Tour.next (ht : h.Tour corpus visited) {a : Address} {c : Cell} (ha : a ≠ .nothing)
    (hc : h.cells[a]? = some c) (hfree : ∀ a' i, ¬ h.Child corpus a' (.statement i) a) :
    c.next = .nothing := by
  obtain ⟨r, hr, rfl⟩ := List.mem_map.mp ((ht.mem_iff a).mpr ⟨ha, lt_size_of_getElem? hc⟩)
  obtain ⟨c', hc', hnext, _⟩ := ht.visits.sound r hr
  obtain rfl := Option.some.inj (hc.symm.trans hc')
  refine hnext ?_
  rcases ht.visits.eq_root_or_child (List.mem_append_left _ hr) with heq | ⟨a', _, spot, hb, hflag⟩
  · rw [heq]
  · cases spot with
    | statement i => exact absurd hb (hfree a' i)
    | arg name => exact hflag

end

/-! ## the walk of a linked heap -/

section
variable {h : Heap} {corpus : Corpus} {visited left : List Reach}

theorem Linked.address_inside (hl : h.Linked corpus) (hsize : Address.root < h.size)
    (hv : h.Visits corpus [⟨.root, false⟩] visited left) {r : Reach} (hr : r ∈ visited ++ left) :
    r.address ≠ .nothing ∧ r.address < h.size := hv.address_inside hsize hl.inside hr

/-- no cell is reached twice -/
theorem Linked.addresses_nodup (hl : h.Linked corpus) (hsize : Address.root < h.size)
    (hv : h.Visits corpus [⟨.root, false⟩] visited left)
    (hn : (visited.map (·.address)).Nodup) : ((visited ++ left).map (·.address)).Nodup := by
  have hrooted := hl.rooted hsize
  rw [hv.addresses_perm.nodup_iff, List.nodup_cons]
  constructor
  · intro hmem
    obtain ⟨⟨⟨a, spot⟩, b⟩, he, heq⟩ := List.mem_map.mp hmem
    obtain rfl : b = .root := heq
    exact hrooted.root a spot ((mem_edges hv.ends).mp he).2
  · exact (targets_nodup_iff hn hv.ends).mpr fun a _ a' _ spot spot' b hb hb' =>
      hrooted.unique hb hb'

/-- a cell that is not reached as a statement has no next link -/
theorem Linked.next_of_reach (hl : h.Linked corpus) (hsize : Address.root < h.size)
    (hv : h.Visits corpus [⟨.root, false⟩] visited left) {r : Reach} (hr : r ∈ visited ++ left)
    {c : Cell} (hc : h.cells[r.address]? = some c) (hflag : r.statement = false) :
    c.next = .nothing := by
  refine hl.next r.address c hc fun a' i hb' => ?_
  rcases hv.eq_root_or_child hr with heq | ⟨a, _, spot, hb, hspot⟩
  · rw [heq] at hb'
    exact (hl.rooted hsize).root a' _ hb'
  · obtain ⟨_, rfl⟩ := (hl.rooted hsize).unique hb hb'
    rw [hflag] at hspot
    cases hspot

/-- a walk that leaves nothing visits every cell that is reached from cell 1 -/
theorem Visits.mem_of_reaches (hv : h.Visits corpus [⟨.root, false⟩] visited []) {b : Address}
    (hb : h.Reaches corpus .root b) : b ∈ visited.map (·.address) := by
  have hperm := hv.addresses_perm
  rw [List.append_nil] at hperm
  induction hb with
  | self => exact hperm.mem_iff.mpr List.mem_cons_self
  | child _ hc ih =>
    have hedge := (mem_edges hv.ends).mpr ⟨ih, hc⟩
    exact hperm.mem_iff.mpr (List.mem_cons_of_mem _ (List.mem_map_of_mem (f := Prod.snd) hedge))

/-- the check of a linked heap fails only on a statement of a kind that its block does not admit -/
theorem checkTree_of_linked (hl : h.Linked corpus) : h.checkTree corpus = .ok () ∨
    ∃ f, h.checkTree corpus = .error f ∧ Lacking f ∧
      ∃ (a : Address) (c : Cell), a ≠ .nothing ∧ h.cells[a]? = some c ∧
        ¬ h.ChainSound corpus c := by
  by_cases hsize : h.size ≤ Address.root
  · exact .inl (if_pos hsize)
  have hsize : Address.root < h.size := Nat.lt_of_not_le hsize
  obtain ⟨visited, left, hv, hnodup, hnew, hends⟩ :=
    walk_visits h corpus h.unseen [⟨.root, false⟩]
  rw [checkTree_eq hsize]
  revert hends
  generalize h.walk corpus h.unseen [⟨.root, false⟩] = out
  intro hends
  have hall := hl.addresses_nodup hsize hv hnodup
  rw [List.map_append, List.nodup_append] at hall
  cases hends with
  | empty hm =>
    have hnone := findIdx?_marks_eq_none.mpr fun a ha => by
      obtain ⟨hfalse, hfree⟩ := (hm a).mp ha
      obtain ⟨hne, hlt⟩ := unseen_eq_false_iff.mp hfalse
      exact hfree (hv.mem_of_reaches ((hl.rooted hsize).reached a hne hlt))
    refine .inl (bind_eq_ok.mpr ⟨_, rfl, ?_⟩)
    simp only [hnone]
  | @outside r rest hr =>
    have hinside := hl.address_inside hsize hv (List.mem_append_right _ List.mem_cons_self)
    rw [size_unseen] at hr
    exact absurd hinside.2 (Nat.not_lt.mpr hr)
  | @shared r rest hr =>
    have hinside := hl.address_inside hsize hv (List.mem_append_right _ List.mem_cons_self)
    rcases hr with hr | hr
    · exact absurd (unseen_eq_true hr) hinside.1
    · exact absurd rfl (hall.2.2 _ hr _ (List.mem_map_of_mem List.mem_cons_self))
  | @refused r rest f hr hfree hf =>
    have hmem : r ∈ visited ++ r :: rest := List.mem_append_right _ List.mem_cons_self
    obtain ⟨hne, hlt⟩ := hl.address_inside hsize hv hmem
    obtain ⟨c, hc⟩ := exists_getElem? hlt
    obtain ⟨hlacking, hunsound⟩ :=
      expand_eq_error hc (hl.next_of_reach hsize hv hmem hc) (hl.ends _ c hne hc) hf
    exact .inr ⟨f, rfl, hlacking, _, c, hne, hc, hunsound⟩

end

end Heap

end ScriptHeap
