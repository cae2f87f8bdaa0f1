import ScriptHeap.Proofs.Loop
import ScriptHeap.Proofs.TreeFaults
/-!
# The walk as a loop

* `Heap.WalkState`, `Heap.walkRound`   marks and a stack, and a round: a cell is taken from the stack,
                       marked and expanded; a cell without a mark would be a fault of its own;
* `Heap.rounds_visits` rounds are visits of different cells, which are marked on the way;
* `Heap.CellsSound.ends_walk`   among sound cells the loop ends as the walk does, and every cell on
                       the stack has a mark;
* `Heap.check_loop_ends`   so the check ends on every heap, with a documented reason.
-/

namespace ScriptHeap

/-- a reason that only the walk gives, or a kind that a list of statements does not admit -/
def CorruptReason.ofTree : CorruptReason → Bool
  | sharedCell => true
  | strayNext _ => true
  | unterminatedChain _ _ => true
  | disallowedKind _ _ => true
  | orphan => true
  | _ => false

namespace Heap

/-! ## rounds -/

/-- how the loop fails: the heap is corrupt, or a mark is looked up that is not there -/
inductive WalkFault where
  | corrupt (c : Corruption)
  | noMark (a : Address)

/-- marks of the cells that were reached, and the cells to visit -/
structure WalkState where
  seen : Array Bool
  stack : List Reach

/-- the cell that the next round expands -/
def WalkState.expanding? (s : WalkState) : Option Address :=
  match s.stack with
  | [] => none
  | r :: _ => if s.seen[r.address]? = some false then some r.address else none

/-- every cell has been marked -/
def checkMarks (marks : Array Bool) : Except Corruption Unit :=
  match marks.findIdx? (· == false) with
  | none => .ok ()
  | some a => .error ⟨a, .orphan⟩

/-- the next cell is marked and expanded; where none is left, a cell without a mark is looked for -/
def walkRound (h : Heap) (corpus : Corpus) : WalkState → Except WalkFault (WalkState ⊕ Unit)
  | ⟨seen, []⟩ => ((checkMarks seen).mapError .corrupt).map .inr
  | ⟨seen, r :: rest⟩ =>
    if hr : r.address < seen.size then
      if seen[r.address] = true then .error (.corrupt ⟨r.address, .sharedCell⟩)
      else ((h.expand corpus r).mapError .corrupt).map fun children =>
        .inl ⟨seen.set r.address true, children ++ rest⟩
    else .error (.noMark r.address)

/-- the cells are checked one by one, and cell 1 is put on the stack, if there is one -/
def walkStart (h : Heap) (corpus : Corpus) : Except WalkFault (WalkState ⊕ Unit) :=
  ((h.checkCells corpus).mapError .corrupt).map fun _ =>
    if h.size ≤ Address.root then .inr () else .inl ⟨h.unseen, [⟨.root, false⟩]⟩

section
variable {h : Heap} {corpus : Corpus} {s s' t : WalkState} {trace : List WalkState}

/-- a round that goes on has visited a cell that was not marked -/
theorem walkRound_eq_next (hs : h.walkRound corpus s = .ok (.inl s')) :
    ∃ r rest children, ∃ hr : r.address < s.seen.size, s.stack = r :: rest ∧
      s.seen[r.address]? = some false ∧ h.expand corpus r = .ok children ∧
      s' = ⟨s.seen.set r.address true, children ++ rest⟩ := by
  obtain ⟨seen, stack⟩ := s
  cases stack with
  | nil =>
    obtain ⟨_, _, heq⟩ := map_eq_ok.mp hs
    cases heq
  | cons r rest =>
    rw [walkRound] at hs
    split at hs
    · next hr =>
      split at hs
      · cases hs
      · next hfalse =>
        obtain ⟨children, hc, heq⟩ := map_eq_ok.mp hs
        cases heq
        refine ⟨r, rest, children, hr, rfl, ?_, (mapError_eq_ok _).mp hc, rfl⟩
        rw [Array.getElem?_eq_getElem hr]
        simpa using hfalse
    · cases hs

/-- rounds are visits of different cells, which were not marked; they are marked now, and no others -/
theorem rounds_visits (hrounds : Loop.Rounds (h.walkRound corpus) s trace t) :
    ∃ visited, h.Visits corpus s.stack visited t.stack ∧ t.seen.size = s.seen.size ∧
      visited.map (·.address) = trace.filterMap WalkState.expanding? ∧
      (visited.map (·.address)).Nodup ∧ (∀ r ∈ visited, s.seen[r.address]? = some false) ∧
      ∀ a : Address, t.seen[a]? = some false ↔
        s.seen[a]? = some false ∧ a ∉ visited.map (·.address) := by
  induction hrounds with
  | here s =>
    exact ⟨[], .done _, rfl, rfl, List.nodup_nil, fun _ hr => absurd hr List.not_mem_nil,
      fun a => by simp⟩
  | @round s s' t trace hs _ ih =>
    obtain ⟨r, rest, children, hr, hstack, hfalse, hc, rfl⟩ := walkRound_eq_next hs
    obtain ⟨visited, hv, hsize, htrace, hnodup, hnew, hmarks⟩ := ih
    have hexpanding : s.expanding? = some r.address := by
      rw [WalkState.expanding?, hstack]
      exact if_pos hfalse
    refine ⟨r :: visited, ?_, hsize.trans (Array.size_set hr), ?_, ?_, ?_, fun a => ?_⟩
    · rw [hstack]
      exact .visit hc hv
    · rw [List.filterMap_cons_some hexpanding, List.map_cons, htrace]
    · rw [List.map_cons, List.nodup_cons]
      refine ⟨fun hmem => ?_, hnodup⟩
      obtain ⟨q, hq, heq⟩ := List.mem_map.mp hmem
      exact ((getElem?_mark hr q.address).mp (hnew q hq)).2 heq
    · exact List.forall_mem_cons.mpr
        ⟨hfalse, fun q hq => ((getElem?_mark hr q.address).mp (hnew q hq)).1⟩
    · rw [hmarks, getElem?_mark hr, List.map_cons, List.mem_cons, not_or, and_assoc]

/-- the next cell to expand is not one that was expanded before -/
theorem expanding_nodup (hrounds : Loop.Rounds (h.walkRound corpus) s trace t) :
    ((trace ++ [t]).filterMap WalkState.expanding?).Nodup := by
  obtain ⟨visited, _, _, htrace, hnodup, _, hmarks⟩ := rounds_visits hrounds
  rw [List.filterMap_append, ← htrace]
  cases ht : t.expanding? with
  | none =>
    rw [List.filterMap_cons_none ht, List.filterMap_nil, List.append_nil]
    exact hnodup
  | some a =>
    have hfalse : t.seen[a]? = some false := by
      unfold WalkState.expanding? at ht
      split at ht
      · cases ht
      · split at ht
        · next hmark =>
          cases ht
          exact hmark
        · cases ht
    rw [List.filterMap_cons_some ht, List.filterMap_nil, ← List.concat_eq_append, List.nodup_concat]
    exact ⟨((hmarks a).mp hfalse).2, hnodup⟩

/-! ## the end of the loop -/

/-- if all that can come on the stack has a mark, the loop ends as the walk does -/
theorem ends_walk (seen : Array Bool) (stack : List Reach)
    (hin : ∀ visited left, h.Visits corpus stack visited left →
      ∀ r ∈ visited ++ left, r.address < seen.size) :
    Loop.Ends (h.walkRound corpus) (.ok (.inl ⟨seen, stack⟩))
      ((h.walk corpus seen stack >>= checkMarks).mapError .corrupt) := by
  fun_induction walk h corpus seen stack with
  | case1 seen =>
    refine .next ?_
    rw [walkRound]
    show Loop.Ends _ _ ((checkMarks seen).mapError _)
    cases checkMarks seen with
    | error f => exact .fault _
    | ok u => exact .result _
  | case2 seen r rest hr hs =>
    refine .next ?_
    rw [walkRound, dif_pos hr, if_pos hs]
    exact .fault _
  | case3 seen r rest hr hs f hf =>
    refine .next ?_
    rw [walkRound, dif_pos hr, if_neg hs, hf]
    exact .fault _
  | case4 seen r rest hr hs children hc ih =>
    refine .next ?_
    rw [walkRound, dif_pos hr, if_neg hs, hc]
    refine ih fun visited left hv q hq => ?_
    rw [Array.size_set]
    exact hin (r :: visited) left (.visit hc hv) q (List.mem_cons_of_mem _ hq)
  | case5 seen r rest hr =>
    exact absurd (hin [] (r :: rest) (.done _) r List.mem_cons_self) hr

/-- among sound cells, all that can come on the stack is within the heap -/
theorem CellsSound.visits_lt (hs : h.CellsSound corpus) (hsize : Address.root < h.size)
    {visited left : List Reach} (hv : h.Visits corpus [⟨.root, false⟩] visited left) {r : Reach}
    (hr : r ∈ visited ++ left) : r.address < h.unseen.size := by
  rw [size_unseen]
  exact (hv.address_inside hsize hs.inside hr).2

theorem ends_check : Loop.Ends (h.walkRound corpus) (h.walkStart corpus)
    ((h.check corpus).mapError .corrupt) := by
  rw [walkStart, check_eq_bind]
  cases hcells : h.checkCells corpus with
  | error f => exact .fault _
  | ok u =>
    show Loop.Ends _ (.ok (if h.size ≤ Address.root then _ else _)) ((h.checkTree corpus).mapError _)
    by_cases hsize : h.size ≤ Address.root
    · rw [if_pos hsize, checkTree, if_pos hsize]
      exact .result ()
    · have hlt := Nat.lt_of_not_le hsize
      rw [if_neg hsize, checkTree_eq hlt]
      exact ends_walk _ _ fun _ _ hv _ hr => (checkCells_eq_ok.mp hcells).visits_lt hlt hv hr

theorem walkStart_eq_next (hs : h.walkStart corpus = .ok (.inl s)) :
    h.CellsSound corpus ∧ Address.root < h.size ∧ s = ⟨h.unseen, [⟨.root, false⟩]⟩ := by
  obtain ⟨_, hcells, heq⟩ := map_eq_ok.mp hs
  rw [mapError_eq_ok, checkCells_eq_ok] at hcells
  split at heq
  · cases heq
  · next hsize =>
    cases heq
    exact ⟨hcells, Nat.lt_of_not_le hsize, rfl⟩

/-- whenever a round begins, every cell on the stack has a mark -/
theorem stack_lt_size (hs : h.walkStart corpus = .ok (.inl s))
    (hrounds : Loop.Rounds (h.walkRound corpus) s trace t) : ∀ r ∈ t.stack, r.address < t.seen.size := by
  obtain ⟨hsound, hsize, rfl⟩ := walkStart_eq_next hs
  obtain ⟨visited, hv, hseen, _⟩ := rounds_visits hrounds
  rw [hseen]
  exact fun r hr => hsound.visits_lt hsize hv (List.mem_append_right _ hr)

/-! ## the reasons -/

theorem RealFault.ofTree {f : Corruption} (hf : h.RealFault corpus f) : f.reason.ofTree = true := by
  cases hf <;> rfl

/-- the check finds what is wrong with a cell or with the tree, and an address out of range only in a
heap without cells -/
theorem reason_of_check {f : Corruption} (hf : h.check corpus = .error f) :
    (h.size = 0 ∧ f = ⟨.nothing, .outOfRange 0⟩) ∨ f = ⟨.nothing, .sentinelModified⟩ ∨
      f.reason.ofCell = true ∨ f.reason.ofTree = true := by
  rw [check_eq_bind] at hf
  rcases bind_eq_error.mp hf with hf | ⟨_, hcells, hf⟩
  · exact (reason_of_checkCells hf).imp_right fun h => h.imp_right .inl
  · exact .inr (.inr (.inr (realFault_of_checkTree (checkCells_eq_ok.mp hcells) hf).ofTree))

/-- **the check ends on every heap; no mark is looked up that is not there, no cell is expanded
twice, and what it finds is one of the documented reasons** -/
theorem check_loop_ends (h : Heap) (corpus : Corpus) :
    (∀ out, Loop.Ends (h.walkRound corpus) (h.walkStart corpus) out ↔
      out = (h.check corpus).mapError .corrupt) ∧
    (∀ s trace t, h.walkStart corpus = .ok (.inl s) → Loop.Rounds (h.walkRound corpus) s trace t →
      (∀ r ∈ t.stack, r.address < t.seen.size) ∧
        ((trace ++ [t]).filterMap WalkState.expanding?).Nodup) ∧
    ∀ f, h.check corpus = .error f → (h.size = 0 ∧ f = ⟨.nothing, .outOfRange 0⟩) ∨
      f = ⟨.nothing, .sentinelModified⟩ ∨ f.reason.ofCell = true ∨ f.reason.ofTree = true :=
  ⟨fun _ => ends_check.iff,
    fun _ _ _ hs hrounds => ⟨stack_lt_size hs hrounds, expanding_nodup hrounds⟩,
    fun _ hf => reason_of_check hf⟩

end

end Heap

/-! ## an example -/

namespace Sample

def forkedStart : Heap.WalkState := ⟨#[true, false, false], [⟨.root, false⟩]⟩

/-- the conditional is expanded: its one cell for both branches, twice -/
def forkedBranches : Heap.WalkState := ⟨#[true, true, false], [⟨2, false⟩, ⟨2, false⟩]⟩

/-- the branch is expanded, and once more on the stack -/
def forkedAgain : Heap.WalkState := ⟨#[true, true, true], [⟨2, false⟩]⟩

theorem forked_loop_ends :
    Loop.Ends (forked.walkRound Corpus.builtIn) (forked.walkStart Corpus.builtIn)
      (.error (.corrupt ⟨2, .sharedCell⟩)) ∧
    Loop.Rounds (forked.walkRound Corpus.builtIn) forkedStart [forkedStart, forkedBranches]
      forkedAgain ∧
    ([forkedStart, forkedBranches, forkedAgain].filterMap Heap.WalkState.expanding?).Nodup := by
  obtain ⟨hends, hrun, _⟩ := Heap.check_loop_ends forked Corpus.builtIn
  have hf : forked.check Corpus.builtIn = .error ⟨2, .sharedCell⟩ := by decide +kernel
  have hstart : forked.walkStart Corpus.builtIn = .ok (.inl forkedStart) := rfl
  have hrounds : Loop.Rounds (forked.walkRound Corpus.builtIn) forkedStart
      [forkedStart, forkedBranches] forkedAgain := .round rfl (.round rfl (.here _))
  refine ⟨(hends _).mpr ?_, hrounds, (hrun _ _ _ hstart hrounds).2⟩
  rw [hf]
  rfl

end Sample

end ScriptHeap
