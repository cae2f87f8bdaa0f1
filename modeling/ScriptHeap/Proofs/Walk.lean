import ScriptHeap.Proofs.Links
import ScriptHeap.Proofs.Outcome
/-!
# The walk

* `Heap.expand_eq_ok`  what is below a visited cell: the reaches at all its spots;
* `Heap.Visits`        the cells that a walk visits, in order, and what it leaves on the stack;
* `Heap.Visits.perm`   a walk visits or leaves what it started with and what lies at the spots of the
                       visited cells, and nothing else;
* `Heap.walk_visits`   every walk is such a sequence of visits, and ends for one of four reasons.
-/

namespace ScriptHeap

namespace Heap

/-- the chain of a cell ends, if it has one, and its cells are of the kinds that the block admits -/
def ChainSound (h : Heap) (corpus : Corpus) (c : Cell) : Prop :=
  ∀ shape kinds, corpus.shape? c.kind = some shape → shape.body = .block kinds →
    ∃ l, h.Follows c.body l ∧ ∀ e ∈ l, e.2.kind ∈ kinds

/-! ## one visit -/

section
variable {h : Heap} {corpus : Corpus} {c : Cell} {r : Reach}

theorem ChainSound.ends (hs : h.ChainSound corpus c) : h.ChainEnds corpus c := by
  intro shape hshape hb
  obtain ⟨kinds, hk⟩ := KindShape.isBlock_iff.mp hb
  obtain ⟨l, hl, _⟩ := hs shape kinds hshape hk
  exact ⟨l, hl⟩

theorem checkStatement_eq_ok {kinds : List Kind} {e : Address × Cell} :
    (if kinds.contains e.2.kind then .ok ()
      else .error ⟨e.1, .disallowedKind e.2.kind kinds⟩ : Except Corruption Unit) = .ok () ↔
      e.2.kind ∈ kinds := by
  split <;> simp_all

theorem statementsBelow_eq_ok {kinds : List Kind} {rs : List Reach} :
    h.statementsBelow kinds c = .ok rs ↔ ∃ l, h.Follows c.body l ∧ (∀ e ∈ l, e.2.kind ∈ kinds) ∧
      rs = l.map fun e => ⟨e.1, true⟩ := by
  unfold statementsBelow
  rw [bind_eq_ok]
  constructor
  · intro ⟨_, hkinds, hrs⟩
    obtain ⟨l, hl, hrs⟩ := bind_eq_ok.mp hrs
    rw [complete_chain_iff] at hl
    rw [forM_eq_ok, chain_cells_of_follows hl] at hkinds
    cases hrs
    exact ⟨l, hl, fun e he => checkStatement_eq_ok.mp (hkinds e he), rfl⟩
  · rintro ⟨l, hl, hkinds, rfl⟩
    refine ⟨(), ?_, bind_eq_ok.mpr ⟨l, complete_chain_iff.mpr hl, rfl⟩⟩
    rw [forM_eq_ok, chain_cells_of_follows hl]
    exact fun e he => checkStatement_eq_ok.mpr (hkinds e he)

/-- the cells below, as the reaches at all spots -/
theorem map_snd_spots {a : Address} (hc : h.cells[a]? = some c) :
    (h.spots corpus a).map Prod.snd = ((h.statementCells corpus c).map fun e => ⟨e.1, true⟩) ++
      c.addressArgs.map fun e => ⟨e.2, false⟩ := by
  unfold spots
  rw [hc]
  show List.map _ (_ ++ _) = _
  rw [List.map_append, List.map_map, List.map_map]
  congr 1
  have hindex : (h.statementCells corpus c).zipIdx.map Prod.fst = h.statementCells corpus c :=
    List.zipIdx_map_fst ..
  conv_rhs => rw [← hindex, List.map_map]
  rfl

theorem below_eq_ok {rs : List Reach} : h.below corpus c = .ok rs ↔ h.ChainSound corpus c ∧
    rs = ((h.statementCells corpus c).map fun e => ⟨e.1, true⟩) ++
      c.addressArgs.map fun e => ⟨e.2, false⟩ := by
  unfold below
  rw [bind_eq_ok]
  cases hk : (corpus.shape? c.kind).bind KindShape.blockKinds? with
  | none =>
    have hleaf : h.statementCells corpus c = [] := by
      rw [statementCells, hk]
      rfl
    have hsound : h.ChainSound corpus c := by
      intro shape kinds hs hb
      rw [hs] at hk
      change shape.blockKinds? = none at hk
      rw [KindShape.blockKinds?_eq_some_iff.mpr hb] at hk
      cases hk
    rw [hleaf]
    constructor
    · rintro ⟨_, hnil, hrs⟩
      cases hnil
      cases hrs
      exact ⟨hsound, rfl⟩
    · rintro ⟨_, rfl⟩
      exact ⟨[], rfl, rfl⟩
  | some kinds =>
    obtain ⟨shape, hs, hb⟩ := Option.bind_eq_some_iff.mp hk
    rw [KindShape.blockKinds?_eq_some_iff] at hb
    have hblock : shape.isBlock = true := KindShape.isBlock_iff.mpr ⟨kinds, hb⟩
    constructor
    · rintro ⟨statements, hstatements, hrs⟩
      obtain ⟨l, hl, hkinds, rfl⟩ := statementsBelow_eq_ok.mp hstatements
      cases hrs
      rw [statementCells_of_block hs hblock, chain_cells_of_follows hl]
      refine ⟨fun shape' kinds' hs' hb' => ?_, rfl⟩
      obtain rfl := Option.some.inj (hs.symm.trans hs')
      obtain rfl := BodyRule.block.inj (hb.symm.trans hb')
      exact ⟨l, hl, hkinds⟩
    · rintro ⟨hsound, rfl⟩
      obtain ⟨l, hl, hkinds⟩ := hsound shape kinds hs hb
      rw [statementCells_of_block hs hblock, chain_cells_of_follows hl]
      exact ⟨_, statementsBelow_eq_ok.mpr ⟨l, hl, hkinds, rfl⟩, rfl⟩

/-- a visit succeeds on a cell with a sound chain; only a statement may have a next link -/
theorem expand_eq_ok {rs : List Reach} : h.expand corpus r = .ok rs ↔
    ∃ c, h.cells[r.address]? = some c ∧ (r.statement = false → c.next = .nothing) ∧
      h.ChainSound corpus c ∧ rs = (h.spots corpus r.address).map Prod.snd := by
  unfold expand
  rw [bind_eq_ok]
  refine exists_congr fun c => ?_
  rw [get_eq_ok]
  refine and_congr_right fun hc => ?_
  rw [map_snd_spots hc]
  by_cases hstray : r.statement = false ∧ c.next ≠ .nothing
  · rw [if_pos (by simp [hstray.1, hstray.2])]
    exact ⟨nofun, fun h => absurd (h.1 hstray.1) hstray.2⟩
  · have hnext : r.statement = false → c.next = .nothing :=
      fun hr => not_not.mp fun hne => hstray ⟨hr, hne⟩
    rw [if_neg (by simpa using hnext), below_eq_ok]
    exact ⟨fun h => ⟨hnext, h⟩, fun h => h.2⟩

end

/-! ## faults that only say that the tree was not valid -/

/-- an argument is missing, or a kind is not admitted -/
def Lacking (f : Corruption) : Prop :=
  (∃ name, f.reason = .missingArg name) ∨ ∃ kind allowed, f.reason = .disallowedKind kind allowed

section
variable {h : Heap} {corpus : Corpus} {c : Cell} {r : Reach} {f : Corruption}

/-- a visit fails on a next link outside a chain, on a kind that the block does not admit, or on the
chain -/
theorem expand_fault (hc : h.cells[r.address]? = some c) (hf : h.expand corpus r = .error f) :
    (r.statement = false ∧ c.next ≠ .nothing ∧ f = ⟨r.address, .strayNext c.next⟩) ∨
      ∃ shape kinds, corpus.shape? c.kind = some shape ∧ shape.body = .block kinds ∧
        ((∃ b d, (b, d) ∈ (h.chain c.body).cells ∧ d.kind ∉ kinds ∧
          f = ⟨b, .disallowedKind d.kind kinds⟩) ∨ (h.chain c.body).complete = .error f) := by
  rcases bind_eq_error.mp hf with hget | ⟨c', hget, hf⟩
  · rw [get_eq_ok.mpr hc] at hget
    cases hget
  obtain rfl := Option.some.inj (hc.symm.trans (get_eq_ok.mp hget))
  split at hf
  · next hstray =>
    cases hf
    have hboth : r.statement = false ∧ c.next ≠ .nothing := by simpa using hstray
    exact .inl ⟨hboth.1, hboth.2, rfl⟩
  · rcases bind_eq_error.mp hf with hf | ⟨_, _, hf⟩
    · split at hf
      · next kinds hk =>
        obtain ⟨shape, hs, hb⟩ := Option.bind_eq_some_iff.mp hk
        rw [KindShape.blockKinds?_eq_some_iff] at hb
        refine .inr ⟨shape, kinds, hs, hb, ?_⟩
        rcases bind_eq_error.mp hf with hf | ⟨_, _, hf⟩
        · obtain ⟨⟨b, d⟩, hmem, he⟩ := forM_eq_error hf
          change (if kinds.contains d.kind = true then Except.ok () else _) = _ at he
          split at he
          · cases he
          · next hk =>
            cases he
            exact .inl ⟨b, d, hmem, fun h => hk (List.contains_iff_mem.mpr h), rfl⟩
        · rcases bind_eq_error.mp hf with hf | ⟨_, _, hf⟩
          · exact .inr hf
          · cases hf
      · cases hf
    · cases hf

/-- a visit of a cell whose chain ends fails only on a kind that the block does not admit -/
theorem expand_eq_error (hc : h.cells[r.address]? = some c)
    (hnext : r.statement = false → c.next = .nothing) (hends : h.ChainEnds corpus c)
    (hf : h.expand corpus r = .error f) : Lacking f ∧ ¬ h.ChainSound corpus c := by
  have hunsound : ¬ h.ChainSound corpus c := by
    intro hsound
    rw [expand_eq_ok.mpr ⟨c, hc, hnext, hsound, rfl⟩] at hf
    cases hf
  refine ⟨?_, hunsound⟩
  rcases expand_fault hc hf with ⟨hflag, hstray, _⟩ | ⟨shape, kinds, hs, hb, hfault⟩
  · exact absurd (hnext hflag) hstray
  · rcases hfault with ⟨_, _, _, _, rfl⟩ | hchain
    · exact .inr ⟨_, _, rfl⟩
    · obtain ⟨l, hl⟩ := hends shape hs (KindShape.isBlock_iff.mpr ⟨kinds, hb⟩)
      rw [complete_chain_iff.mpr hl] at hchain
      cases hchain

end

/-! ## visits -/

/-- a walk from a stack visits these cells, in this order, and leaves this on the stack -/
inductive Visits (h : Heap) (corpus : Corpus) : List Reach → List Reach → List Reach → Prop
  | done (stack : List Reach) : Visits h corpus stack [] stack
  | visit {r : Reach} {children rest visited left : List Reach}
    (hr : h.expand corpus r = .ok children)
    (hrest : Visits h corpus (children ++ rest) visited left) :
    Visits h corpus (r :: rest) (r :: visited) left

section
variable {h : Heap} {corpus : Corpus} {stack visited left : List Reach}

theorem Visits.expand_ok (hv : h.Visits corpus stack visited left) :
    ∀ r ∈ visited, ∃ children, h.expand corpus r = .ok children := by
  induction hv with
  | done => exact fun r hr => absurd hr List.not_mem_nil
  | visit hr _ ih => exact List.forall_mem_cons.mpr ⟨⟨_, hr⟩, ih⟩

/-- what is visited or left is what was on the stack and what lies at the spots of the visited -/
theorem Visits.perm (hv : h.Visits corpus stack visited left) : (visited ++ left).Perm
    (stack ++ visited.flatMap fun r => (h.spots corpus r.address).map Prod.snd) := by
  induction hv with
  | done stack =>
    rw [List.nil_append, List.flatMap_nil, List.append_nil]
  | @visit r children rest visited left hr _ ih =>
    obtain ⟨_, _, _, _, rfl⟩ := expand_eq_ok.mp hr
    rw [List.cons_append, List.cons_append, List.flatMap_cons]
    refine List.Perm.cons r (ih.trans ?_)
    rw [List.append_assoc]
    exact List.perm_append_comm_assoc ..

/-- all that is visited or left is reached from what all of the stack is reached from -/
theorem Visits.reaches (hv : h.Visits corpus stack visited left) {a : Address}
    (hs : ∀ r ∈ stack, h.Reaches corpus a r.address) :
    ∀ r ∈ visited ++ left, h.Reaches corpus a r.address := by
  induction hv with
  | done stack => exact hs
  | @visit r children rest visited left hr _ ih =>
    obtain ⟨c, hc, _, hsound, rfl⟩ := expand_eq_ok.mp hr
    have hself := hs r List.mem_cons_self
    refine List.forall_mem_cons.mpr ⟨hself, ih fun s hmem => ?_⟩
    rcases List.mem_append.mp hmem with hmem | hmem
    · obtain ⟨⟨spot, s⟩, hspot, rfl⟩ := List.mem_map.mp hmem
      exact .child hself ((mem_spots hc hsound.ends).mp hspot).1
    · exact hs s (List.mem_cons_of_mem _ hmem)

end

/-! ## the walk -/

/-- why a walk ends after some visits, and what it gives -/
inductive WalkEnds (h : Heap) (corpus : Corpus) (seen : Array Bool) (visited : List Reach) :
    List Reach → Except Corruption (Array Bool) → Prop
  /-- nothing is left; the visited cells are marked and no others -/
  | empty {marks : Array Bool} (hmarks : ∀ a : Address, marks[a]? = some false ↔
      seen[a]? = some false ∧ a ∉ visited.map (·.address)) :
    WalkEnds h corpus seen visited [] (.ok marks)
  | outside {r : Reach} {rest : List Reach} (hr : seen.size ≤ r.address) :
    WalkEnds h corpus seen visited (r :: rest) (.error ⟨r.address, .outOfRange h.size⟩)
  | shared {r : Reach} {rest : List Reach}
    (hr : seen[r.address]? = some true ∨ r.address ∈ visited.map (·.address)) :
    WalkEnds h corpus seen visited (r :: rest) (.error ⟨r.address, .sharedCell⟩)
  | refused {r : Reach} {rest : List Reach} {f : Corruption} (hr : seen[r.address]? = some false)
    (hnew : r.address ∉ visited.map (·.address)) (hf : h.expand corpus r = .error f) :
    WalkEnds h corpus seen visited (r :: rest) (.error f)

section
variable {h : Heap} {corpus : Corpus}

/-- one more cell is marked -/
theorem getElem?_mark {seen : Array Bool} {b : Address} (hb : b < seen.size) (a : Address) :
    (seen.set b true)[a]? = some false ↔ seen[a]? = some false ∧ a ≠ b := by
  rw [Array.getElem?_set]
  split
  · next ha => simp [ha]
  · next ha => simp [Ne.symm ha]

theorem WalkEnds.visit {seen : Array Bool} {visited left : List Reach} {r : Reach}
    {out : Except Corruption (Array Bool)} (hr : r.address < seen.size)
    (he : h.WalkEnds corpus (seen.set r.address true) visited left out) :
    h.WalkEnds corpus seen (r :: visited) left out := by
  have hset := getElem?_mark hr
  cases he with
  | empty hmarks =>
    refine .empty fun a => ?_
    rw [hmarks, hset, List.map_cons, List.mem_cons, not_or, and_assoc]
  | @outside q _ hq =>
    rw [Array.size_set] at hq
    exact .outside hq
  | @shared q _ hq =>
    refine .shared ?_
    rw [List.map_cons, List.mem_cons]
    rcases hq with hq | hq
    · rw [Array.getElem?_set] at hq
      split at hq
      · next ha => exact .inr (.inl ha.symm)
      · exact .inl hq
    · exact .inr (.inr hq)
  | @refused q _ _ hq hnew hf =>
    have hq' := (hset q.address).mp hq
    refine .refused hq'.1 ?_ hf
    rw [List.map_cons, List.mem_cons, not_or]
    exact ⟨hq'.2, hnew⟩

variable (h corpus) in
/-- **Every walk is a sequence of visits** of different cells that were not marked before -/
theorem walk_visits (seen : Array Bool) (stack : List Reach) : ∃ visited left,
    h.Visits corpus stack visited left ∧ (visited.map (·.address)).Nodup ∧
      (∀ r ∈ visited, seen[r.address]? = some false) ∧
      h.WalkEnds corpus seen visited left (h.walk corpus seen stack) := by
  fun_induction walk h corpus seen stack with
  | case1 seen =>
    refine ⟨[], [], .done [], List.nodup_nil, fun r hr => absurd hr List.not_mem_nil, ?_⟩
    exact .empty fun a => by simp
  | case2 seen r rest hr hs =>
    refine ⟨[], r :: rest, .done _, List.nodup_nil, fun r hr => absurd hr List.not_mem_nil, ?_⟩
    refine .shared (.inl ?_)
    rw [Array.getElem?_eq_getElem hr, hs]
  | case3 seen r rest hr hs f hf =>
    refine ⟨[], r :: rest, .done _, List.nodup_nil, fun r hr => absurd hr List.not_mem_nil, ?_⟩
    refine .refused ?_ List.not_mem_nil hf
    rw [Array.getElem?_eq_getElem hr]
    simpa using hs
  | case4 seen r rest hr hs children hc ih =>
    have hfalse : seen[r.address]? = some false := by
      rw [Array.getElem?_eq_getElem hr]
      simpa using hs
    obtain ⟨visited, left, hv, hnodup, hnew, hends⟩ := ih
    refine ⟨r :: visited, left, .visit hc hv, ?_, ?_, hends.visit hr⟩
    · rw [List.map_cons, List.nodup_cons]
      refine ⟨fun hmem => ?_, hnodup⟩
      obtain ⟨q, hq, heq⟩ := List.mem_map.mp hmem
      exact ((getElem?_mark hr q.address).mp (hnew q hq)).2 heq
    · exact List.forall_mem_cons.mpr
        ⟨hfalse, fun q hq => ((getElem?_mark hr q.address).mp (hnew q hq)).1⟩
  | case5 seen r rest hr =>
    refine ⟨[], r :: rest, .done _, List.nodup_nil, fun r hr => absurd hr List.not_mem_nil, ?_⟩
    exact .outside (Nat.le_of_not_lt hr)

end

end Heap

end ScriptHeap
