import ScriptHeap.Proofs.Chain
/-!
# Chains that do not end

* `Heap.Onward`        the cell so many next links after an address;
* `Heap.onward_of_mem_chainFrom`   the cells of a bounded chain are such cells;
* `Heap.exists_onward` where links stay within the heap, a chain that does not end goes on for ever;
* `Heap.chain_fault`   so the fault of such a chain is that it does not end, and it does not.
-/

namespace ScriptHeap

namespace Heap

/-- the cell so many next links after an address; neither it nor a cell before it is the sentinel -/
inductive Onward (h : Heap) : Address → Nat → Address → Prop
  | here {a : Address} (ha : a ≠ .nothing) : Onward h a 0 a
  | next {a b : Address} {c : Cell} {i : Nat} (ha : a ≠ .nothing) (hc : h.cells[a]? = some c)
    (hb : Onward h c.next i b) : Onward h a (i + 1) b

section
variable {h : Heap} {start a b : Address} {steps : Nat}

theorem onward_of_mem_chainFrom {d : Cell} (hb : (b, d) ∈ (h.chainFrom start steps a).cells) :
    ∃ i, h.Onward a i b ∧ h.cells[b]? = some d := by
  induction steps generalizing a with
  | zero =>
    rw [chainFrom] at hb
    split at hb <;> cases hb
  | succ steps ih =>
    rw [chainFrom] at hb
    split at hb
    · cases hb
    · next ha =>
      cases hc : h.get a with
      | error fault =>
        rw [hc] at hb
        cases hb
      | ok c =>
        rw [hc] at hb
        rw [get_eq_ok] at hc
        rcases List.mem_cons.mp hb with heq | hb
        · cases heq
          exact ⟨0, .here ha, hc⟩
        · obtain ⟨i, hi, hd⟩ := ih hb
          exact ⟨i + 1, .next ha hc hi, hd⟩

/-- a chain stops at an address without a cell, or after all of its steps -/
theorem fault_of_chainFrom {fault : Corruption}
    (hf : (h.chainFrom start steps a).fault? = some fault) :
    (∃ i b, h.Onward a i b ∧ h.size ≤ b) ∨
      ∃ b, h.Onward a steps b ∧ fault = ⟨b, .unterminatedChain start h.size⟩ := by
  induction steps generalizing a with
  | zero =>
    rw [chainFrom] at hf
    split at hf
    · cases hf
    · next ha =>
      cases hf
      exact .inr ⟨a, .here ha, rfl⟩
  | succ steps ih =>
    rw [chainFrom] at hf
    split at hf
    · cases hf
    · next ha =>
      cases hc : h.get a with
      | error fault' => exact .inl ⟨0, a, .here ha, (get_eq_error hc).1⟩
      | ok c =>
        rw [hc] at hf
        rw [get_eq_ok] at hc
        rcases ih hf with ⟨i, b, hb, hout⟩ | ⟨b, hb, rfl⟩
        · exact .inl ⟨i + 1, b, .next ha hc hb, hout⟩
        · exact .inr ⟨b, .next ha hc hb, rfl⟩

variable (hnext : ∀ (a : Address) (c : Cell), h.cells[a]? = some c → c.next < h.size)
include hnext

theorem Onward.lt_size {i : Nat} (hb : h.Onward a i b) (ha : a < h.size) : b < h.size := by
  induction hb with
  | here _ => exact ha
  | next _ hc _ ih => exact ih (hnext _ _ hc)

/-- a chain that does not end goes on for ever -/
theorem exists_onward (ha : a < h.size) (hno : ∀ l, ¬ h.Follows a l) (i : Nat) :
    ∃ b, h.Onward a i b := by
  have hne : a ≠ .nothing := fun heq => hno [] (heq ▸ .nothing)
  induction i generalizing a with
  | zero => exact ⟨a, .here hne⟩
  | succ i ih =>
    obtain ⟨c, hc⟩ := exists_getElem? ha
    have hrest : ∀ l, ¬ h.Follows c.next l := fun l hl => hno _ (.cell hne hc hl)
    obtain ⟨b, hb⟩ := ih (hnext a c hc) hrest fun heq => hrest [] (heq ▸ .nothing)
    exact ⟨b, .next hne hc hb⟩

/-- the fault of a chain is found after as many steps as there are cells, and tells the truth -/
theorem chain_fault (ha : a < h.size) {fault : Corruption}
    (hf : (h.chain a).complete = .error fault) : (∀ i, ∃ b, h.Onward a i b) ∧
      ∃ b, h.Onward a h.size b ∧ fault = ⟨b, .unterminatedChain a h.size⟩ := by
  have hno : ∀ l, ¬ h.Follows a l := by
    intro l hl
    rw [complete_chain_iff.mpr hl] at hf
    cases hf
  refine ⟨exists_onward hnext ha hno, ?_⟩
  unfold Chain.complete at hf
  split at hf
  · cases hf
  · next fault' hfault =>
    cases hf
    rcases fault_of_chainFrom hfault with ⟨i, b, hb, hout⟩ | hlast
    · exact absurd (hb.lt_size hnext ha) (Nat.not_lt.mpr hout)
    · exact hlast

end

end Heap

end ScriptHeap
