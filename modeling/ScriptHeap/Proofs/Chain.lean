import Mathlib.Data.List.Perm.Subperm
import Mathlib.Data.List.Range
import ScriptHeap.Heap.Basic
/-!
# Chains that end

* `Heap.Follows`       the cells that next links lead to from an address, down to the link to nothing;
* `Heap.Follows.unique`, `Heap.Follows.nodup`   there is one such chain, and no cell is on it twice;
* `Heap.Follows.length_le`   it has no more cells than the heap beside the sentinel;
* `Heap.complete_chain_iff`  the bounded chain is complete exactly when the chain ends.
-/

namespace ScriptHeap

namespace Heap

theorem get_eq_ok {h : Heap} {a : Address} {c : Cell} : h.get a = .ok c ↔ h.cells[a]? = some c := by
  unfold get
  cases h.cells[a]? with
  | none => exact ⟨nofun, nofun⟩
  | some d => exact ⟨fun h => (by cases h; rfl), fun h => (by cases h; rfl)⟩

theorem get_eq_error {h : Heap} {a : Address} {f : Corruption} (hf : h.get a = .error f) :
    h.size ≤ a ∧ f = ⟨a, .outOfRange h.size⟩ := by
  unfold get at hf
  cases hc : h.cells[a]? with
  | none =>
    rw [hc] at hf
    cases hf
    exact ⟨Array.getElem?_eq_none_iff.mp hc, rfl⟩
  | some d => rw [hc] at hf; cases hf

theorem lt_size_of_getElem? {h : Heap} {a : Address} {c : Cell} (hc : h.cells[a]? = some c) :
    a < h.size := (Array.getElem?_eq_some_iff.mp hc).1

theorem exists_getElem? {h : Heap} {a : Address} (ha : a < h.size) : ∃ c, h.cells[a]? = some c :=
  ⟨h.cells[a], Array.getElem?_eq_getElem ha⟩

/-- the cells from an address along next links, down to the link to nothing -/
inductive Follows (h : Heap) : Address → List (Address × Cell) → Prop
  | nothing : Follows h .nothing []
  | cell {a : Address} {c : Cell} {l : List (Address × Cell)} (ha : a ≠ .nothing)
    (hc : h.cells[a]? = some c) (hl : Follows h c.next l) : Follows h a ((a, c) :: l)

/-! ## nonzero addresses in range -/

theorem length_le_of_nodup {n : Nat} {l : List Nat} (hl : l.Nodup)
    (hr : ∀ a ∈ l, a ≠ 0 ∧ a < n) : l.length ≤ n - 1 := by
  have hsub : l ⊆ List.range' 1 (n - 1) := by
    intro a ha
    have := hr a ha
    rw [List.mem_range'_1]
    omega
  have hle := (List.subperm_of_subset hl hsub).length_le
  rwa [List.length_range'] at hle

/-! ## chains that end -/

section
variable {h : Heap} {a : Address} {l : List (Address × Cell)}

theorem Follows.mem (hl : h.Follows a l) {b : Address} {c : Cell} (hb : (b, c) ∈ l) :
    b ≠ .nothing ∧ h.cells[b]? = some c := by
  induction hl with
  | nothing => cases hb
  | cell ha hc _ ih =>
    rcases List.mem_cons.mp hb with heq | hb
    · cases heq
      exact ⟨ha, hc⟩
    · exact ih hb

theorem Follows.unique (hl : h.Follows a l) {m : List (Address × Cell)} (hm : h.Follows a m) :
    l = m := by
  induction hl generalizing m with
  | nothing =>
    cases hm with
    | nothing => rfl
    | cell ha _ _ => exact absurd rfl ha
  | cell ha hc _ ih =>
    cases hm with
    | nothing => exact absurd rfl ha
    | cell _ hc' hm =>
      obtain rfl := Option.some.inj (hc.symm.trans hc')
      rw [ih hm]

/-- from a cell of the chain on, the rest of the chain is followed -/
theorem Follows.from_mem (hl : h.Follows a l) {b : Address} {c : Cell} (hb : (b, c) ∈ l) :
    ∃ m, h.Follows b m ∧ m.length ≤ l.length := by
  induction hl with
  | nothing => cases hb
  | @cell a d l ha hc hl ih =>
    rcases List.mem_cons.mp hb with heq | hb
    · cases heq
      exact ⟨_, .cell ha hc hl, Nat.le_refl _⟩
    · obtain ⟨m, hm, hle⟩ := ih hb
      exact ⟨m, hm, Nat.le_succ_of_le hle⟩

/-- no cell is on a chain twice: what follows it would be followed by itself -/
theorem Follows.nodup (hl : h.Follows a l) : (l.map Prod.fst).Nodup := by
  induction hl with
  | nothing => exact List.nodup_nil
  | @cell a c l ha hc hl ih =>
    rw [List.map_cons, List.nodup_cons]
    refine ⟨fun hmem => ?_, ih⟩
    obtain ⟨⟨b, d⟩, hb, heq⟩ := List.mem_map.mp hmem
    obtain rfl : b = a := heq
    obtain ⟨m, hm, hle⟩ := hl.from_mem hb
    have hself : (b, c) :: l = m := (Follows.cell ha hc hl).unique hm
    rw [← hself, List.length_cons] at hle
    omega

theorem Follows.length_le (hl : h.Follows a l) : l.length ≤ h.size - 1 := by
  have hle := length_le_of_nodup (n := h.size) hl.nodup fun b hb => by
    obtain ⟨⟨b', c⟩, hm, rfl⟩ := List.mem_map.mp hb
    exact ⟨(hl.mem hm).1, lt_size_of_getElem? (hl.mem hm).2⟩
  rwa [List.length_map] at hle

theorem Follows.head (hl : h.Follows a l) : a = ((l[0]?).map Prod.fst).getD .nothing := by
  cases hl with
  | nothing => rfl
  | cell _ _ _ => rfl

/-- the cell after a cell of the chain is the one that its next link leads to -/
theorem Follows.next_getElem? (hl : h.Follows a l) {i : Nat} {b : Address} {c : Cell}
    (hi : l[i]? = some (b, c)) : c.next = ((l[i + 1]?).map Prod.fst).getD .nothing := by
  induction hl generalizing i with
  | nothing => cases hi
  | cell ha hc hl ih =>
    cases i with
    | zero =>
      cases hi
      exact hl.head
    | succ i => exact ih hi

theorem Follows.index_unique (hl : h.Follows a l) {i j : Nat} {b : Address} {c d : Cell}
    (hi : l[i]? = some (b, c)) (hj : l[j]? = some (b, d)) : i = j := by
  have hlt : i < (l.map Prod.fst).length := by
    rw [List.length_map]
    exact (List.getElem?_eq_some_iff.mp hi).1
  rw [← List.getElem?_inj hlt hl.nodup, List.getElem?_map, List.getElem?_map, hi, hj]
  rfl

end

/-! ## the bounded chain -/

section
variable {h : Heap} {start a : Address} {steps : Nat}

theorem chainFrom_nothing : h.chainFrom start steps .nothing = .nil := by
  unfold chainFrom
  rw [if_pos rfl]

theorem chainFrom_of_follows {l : List (Address × Cell)} (hl : h.Follows a l)
    (hs : l.length ≤ steps) : h.chainFrom start steps a = ⟨l, none⟩ := by
  induction hl generalizing steps with
  | nothing => exact chainFrom_nothing
  | cell ha hc _ ih =>
    cases steps with
    | zero => cases hs
    | succ steps =>
      rw [chainFrom, if_neg ha, get_eq_ok.mpr hc]
      show Chain.cons _ _ (h.chainFrom start steps _) = _
      rw [ih (Nat.le_of_succ_le_succ hs)]
      rfl

theorem follows_of_chainFrom (hf : (h.chainFrom start steps a).fault? = none) :
    h.Follows a (h.chainFrom start steps a).cells := by
  induction steps generalizing a with
  | zero =>
    by_cases ha : a = .nothing
    · subst ha
      rw [chainFrom_nothing]
      exact .nothing
    · rw [chainFrom, if_neg ha] at hf
      cases hf
  | succ steps ih =>
    by_cases ha : a = .nothing
    · subst ha
      rw [chainFrom_nothing]
      exact .nothing
    · rw [chainFrom, if_neg ha] at hf ⊢
      cases hc : h.get a with
      | error f => rw [hc] at hf; cases hf
      | ok c =>
        rw [hc] at hf
        exact .cell ha (get_eq_ok.mp hc) (ih hf)

/-- the chain is complete exactly when following it ends; the bound never cuts it off -/
theorem complete_chain_iff {l : List (Address × Cell)} :
    (h.chain a).complete = .ok l ↔ h.Follows a l := by
  constructor
  · intro hc
    unfold Chain.complete at hc
    split at hc
    · next hf =>
      cases hc
      exact follows_of_chainFrom hf
    · cases hc
  · intro hl
    have hle := hl.length_le
    show Chain.complete (h.chainFrom a h.size a) = _
    rw [chainFrom_of_follows hl (by omega)]
    rfl

theorem chain_cells_of_follows {l : List (Address × Cell)} (hl : h.Follows a l) :
    h.chain a = ⟨l, none⟩ := by
  have hle := hl.length_le
  exact chainFrom_of_follows hl (by omega)

end

end Heap

end ScriptHeap
