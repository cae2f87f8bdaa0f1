import ScriptHeap.Proofs.Chain
/-!
# Statements, one at a time

* `Statements`, `Statements.next`   an iterator along next links, and what a call of it gives;
* `Statements.Gives`   what its calls give, one after the other, before they give nothing;
* `Statements.item_eq`   these are the cells of the bounded chain, and then its fault;
* `Heap.Leads`         next links lead from an address through certain cells to an address;
* `Heap.Cyclic`        they lead to a cell from which they lead back to it;
* `Heap.chain_cases`   a chain ends, leaves the heap, or is cyclic, and its fault tells which;
* `Heap.statements_items`   so the bound of the iterator cuts off the cyclic chains and no others.
-/

namespace ScriptHeap

/-! ## the iterator -/

/-- an iterator along next links; `start` is where it began -/
structure Statements where
  heap : Heap
  start : Address
  cursor : Address
  steps : Nat
  done : Bool

namespace Statements

/-- a call: a cell or a fault, or nothing at the end, and the iterator afterwards -/
def next (s : Statements) : Option (Except Corruption (Address × Cell)) × Statements :=
  if s.done || s.cursor == .nothing then (none, s)
  else if s.heap.size ≤ s.steps then
    (some (.error ⟨s.cursor, .unterminatedChain s.start s.heap.size⟩), { s with done := true })
  else
    match s.heap.get s.cursor with
    | .ok c => (some (.ok (s.cursor, c)), { s with cursor := c.next, steps := s.steps + 1 })
    | .error fault => (some (.error fault), { s with steps := s.steps + 1, done := true })

/-- what the call after so many others gives -/
def item (s : Statements) : Nat → Option (Except Corruption (Address × Cell))
  | 0 => s.next.1
  | i + 1 => s.next.2.item i

/-- the calls give these items, one after the other, and then nothing for ever -/
def Gives (s : Statements) (items : List (Except Corruption (Address × Cell))) : Prop :=
  ∀ i, s.item i = items[i]?

end Statements

/-- the statements from an address on -/
def Heap.statements (h : Heap) (first : Address) : Statements := ⟨h, first, first, 0, false⟩

/-- the cells of a chain, and then what ends it -/
def Chain.items (chain : Chain) : List (Except Corruption (Address × Cell)) :=
  chain.cells.map .ok ++ (chain.fault?.map .error).toList

namespace Chain

theorem items_fail (fault : Corruption) : (fail fault).items = [.error fault] := rfl
theorem items_cons (a : Address) (c : Cell) (rest : Chain) :
    (cons a c rest).items = .ok (a, c) :: rest.items := rfl
theorem items_of_complete (cells : List (Address × Cell)) :
    (Chain.mk cells none).items = cells.map .ok := List.append_nil _

theorem mem_items_error {chain : Chain} {fault : Corruption} :
    .error fault ∈ chain.items ↔ chain.fault? = some fault := by
  simp [items]

end Chain

namespace Statements

section
variable {s : Statements}

theorem item_zero : s.item 0 = s.next.1 := rfl
theorem item_succ (i : Nat) : s.item (i + 1) = s.next.2.item i := rfl

/-- an iterator that is at its end stays there -/
theorem item_of_finished (hs : (s.done || s.cursor == .nothing) = true) (i : Nat) :
    s.item i = none := by
  have hnext : s.next = (none, s) := if_pos hs
  induction i with
  | zero => rw [item_zero, hnext]
  | succ i ih => rw [item_succ, hnext, ih]

/-- a call that gives a fault is the last that gives anything -/
theorem item_of_fault {fault : Corruption} {t : Statements} (hs : s.next = (some (.error fault), t))
    (ht : t.done = true) (i : Nat) : s.item i = [.error fault][i]? := by
  cases i with
  | zero => rw [item_zero, hs]; rfl
  | succ i => rw [item_succ, hs, item_of_finished (by rw [ht, Bool.true_or])]; rfl

/-- **The calls give the items of the bounded chain**, with as many steps left as the heap has cells
more than the iterator has taken steps -/
theorem item_eq {h : Heap} {start a : Address} {steps left : Nat} (hleft : steps + left = h.size)
    (i : Nat) :
    (Statements.mk h start a steps false).item i = (h.chainFrom start left a).items[i]? := by
  induction left generalizing a steps i with
  | zero =>
    unfold Heap.chainFrom
    split
    · next ha => exact item_of_finished (by simpa using ha) i
    · next ha =>
      have hsteps : h.size ≤ steps := by omega
      have hnext : (Statements.mk h start a steps false).next =
          (some (.error ⟨a, .unterminatedChain start h.size⟩), ⟨h, start, a, steps, true⟩) := by
        simp [next, ha, hsteps]
      rw [item_of_fault hnext rfl, Chain.items_fail]
  | succ left ih =>
    unfold Heap.chainFrom
    split
    · next ha => exact item_of_finished (by simpa using ha) i
    · next ha =>
      have hsteps : ¬ h.size ≤ steps := by omega
      cases hc : h.get a with
      | error fault =>
        have hnext : (Statements.mk h start a steps false).next =
            (some (.error fault), ⟨h, start, a, steps + 1, true⟩) := by
          simp [next, ha, hsteps, hc]
        rw [item_of_fault hnext rfl]
        rfl
      | ok c =>
        have hnext : (Statements.mk h start a steps false).next =
            (some (.ok (a, c)), ⟨h, start, c.next, steps + 1, false⟩) := by
          simp [next, ha, hsteps, hc]
        show _ = (Chain.cons a c (h.chainFrom start left c.next)).items[i]?
        rw [Chain.items_cons]
        cases i with
        | zero => rw [item_zero, hnext]; rfl
        | succ i => rw [item_succ, hnext, List.getElem?_cons_succ]; exact ih (by omega) i

end

end Statements

/-! ## where next links lead -/

namespace Heap

/-- next links lead from an address through these cells to an address -/
inductive Leads (h : Heap) : Address → List (Address × Cell) → Address → Prop
  | here (a : Address) : Leads h a [] a
  | cell {a b : Address} {c : Cell} {l : List (Address × Cell)} (ha : a ≠ .nothing)
    (hc : h.cells[a]? = some c) (hl : Leads h c.next l b) : Leads h a ((a, c) :: l) b

/-- next links lead to a cell, and from it through some cells back to it -/
def Cyclic (h : Heap) (a : Address) : Prop :=
  ∃ b l m, h.Leads a l b ∧ h.Leads b m b ∧ m ≠ []

section
variable {h : Heap} {a b c : Address} {l m : List (Address × Cell)}

theorem Leads.append (hl : h.Leads a l b) (hm : h.Leads b m c) : h.Leads a (l ++ m) c := by
  induction hl with
  | here _ => exact hm
  | cell ha hc _ ih => exact .cell ha hc (ih hm)

/-- links lead one way only, so one way is the beginning of the other -/
theorem Leads.compare (hl : h.Leads a l b) (hm : h.Leads a m c) :
    (∃ k, m = l ++ k ∧ h.Leads b k c) ∨ ∃ k, l = m ++ k ∧ h.Leads c k b := by
  induction hl generalizing m with
  | here a => exact .inl ⟨m, rfl, hm⟩
  | @cell a b d l ha hd hl ih =>
    cases hm with
    | here => exact .inr ⟨_, rfl, .cell ha hd hl⟩
    | cell _ hd' hm =>
      obtain rfl := Option.some.inj (hd.symm.trans hd')
      rcases ih hm with ⟨k, rfl, hk⟩ | ⟨k, rfl, hk⟩
      · exact .inl ⟨k, rfl, hk⟩
      · exact .inr ⟨k, rfl, hk⟩

theorem Leads.mem (hl : h.Leads a l b) {d : Cell} (hc : (c, d) ∈ l) :
    c ≠ .nothing ∧ h.cells[c]? = some d := by
  induction hl with
  | here _ => cases hc
  | cell ha hd _ ih =>
    rcases List.mem_cons.mp hc with heq | hc
    · cases heq
      exact ⟨ha, hd⟩
    · exact ih hc

/-- a cell on the way is led to -/
theorem Leads.to_mem (hl : h.Leads a l b) {d : Cell} (hc : (c, d) ∈ l) : ∃ k, h.Leads a k c := by
  induction hl with
  | here _ => cases hc
  | cell ha hd _ ih =>
    rcases List.mem_cons.mp hc with heq | hc
    · cases heq
      exact ⟨[], .here _⟩
    · obtain ⟨k, hk⟩ := ih hc
      exact ⟨_, .cell ha hd hk⟩

theorem leads_nothing_iff : h.Leads a l .nothing ↔ h.Follows a l := by
  constructor
  · intro hl
    generalize hb : Address.nothing = b at hl
    induction hl with
    | here a => exact hb ▸ .nothing
    | cell ha hc _ ih => exact .cell ha hc (ih hb)
  · intro hl
    induction hl with
    | nothing => exact .here _
    | cell ha hc _ ih => exact .cell ha hc ih

/-! ## cycles -/

/-- either no cell is on the way twice, or the way goes round -/
theorem Leads.nodup_or_cyclic (hl : h.Leads a l b) : (l.map Prod.fst).Nodup ∨ h.Cyclic a := by
  induction hl with
  | here _ => exact .inl List.nodup_nil
  | @cell a b d l ha hd hl ih =>
    rcases ih with hnodup | ⟨e, k, m, hk, hm, hne⟩
    · rw [List.map_cons, List.nodup_cons]
      by_cases hmem : a ∈ l.map Prod.fst
      · obtain ⟨⟨a', d'⟩, ha', rfl⟩ := List.mem_map.mp hmem
        obtain ⟨k, hk⟩ := hl.to_mem ha'
        exact .inr ⟨_, [], _, .here _, .cell ha hd hk, List.cons_ne_nil _ _⟩
      · exact .inl ⟨hmem, hnodup⟩
    · exact .inr ⟨e, _, m, .cell ha hd hk, hm, hne⟩

/-- a way with as many cells as the heap goes round: the sentinel is on none -/
theorem Leads.cyclic_of_length (hl : h.Leads a l b) (hpos : 0 < h.size) (hlen : h.size ≤ l.length) :
    h.Cyclic a := by
  refine hl.nodup_or_cyclic.resolve_left fun hnodup => ?_
  have hle := length_le_of_nodup (n := h.size) hnodup fun c hc => by
    obtain ⟨⟨c', d⟩, hm, rfl⟩ := List.mem_map.mp hc
    exact ⟨(hl.mem hm).1, lt_size_of_getElem? (hl.mem hm).2⟩
  rw [List.length_map] at hle
  omega

/-- round and round, links lead through any number of cells -/
theorem Cyclic.exists_leads (hc : h.Cyclic a) (n : Nat) : ∃ l b, h.Leads a l b ∧ n ≤ l.length := by
  obtain ⟨b, l, m, hl, hm, hne⟩ := hc
  have hround : ∀ n, ∃ k, h.Leads b k b ∧ n ≤ k.length := by
    intro n
    induction n with
    | zero => exact ⟨[], .here b, Nat.zero_le _⟩
    | succ n ih =>
      obtain ⟨k, hk, hle⟩ := ih
      have hpos := List.length_pos_of_ne_nil hne
      exact ⟨m ++ k, hm.append hk, by rw [List.length_append]; omega⟩
  obtain ⟨k, hk, hle⟩ := hround n
  exact ⟨l ++ k, b, hl.append hk, by rw [List.length_append]; omega⟩

/-- no cell is left by a link to nothing, or to where there is no cell -/
theorem Leads.eq_of_end (hb : b = .nothing ∨ h.size ≤ b) (hl : h.Leads b l c) : l = [] ∧ c = b := by
  cases hl with
  | here => exact ⟨rfl, rfl⟩
  | cell hne hc _ => exact absurd (lt_size_of_getElem? hc) (Nat.not_lt.mpr (hb.resolve_left hne))

/-- two ways to an end are the same -/
theorem Leads.unique_end (hl : h.Leads a l b) (hb : b = .nothing ∨ h.size ≤ b) (hm : h.Leads a m c)
    (hc : c = .nothing ∨ h.size ≤ c) : m = l ∧ c = b := by
  rcases hl.compare hm with ⟨k, rfl, hk⟩ | ⟨k, rfl, hk⟩
  · obtain ⟨rfl, rfl⟩ := hk.eq_of_end hb
    exact ⟨List.append_nil _, rfl⟩
  · obtain ⟨rfl, rfl⟩ := hk.eq_of_end hc
    exact ⟨(List.append_nil _).symm, rfl⟩

/-- links that go round lead to no end -/
theorem Cyclic.not_leads (hcyc : h.Cyclic a) (hb : b = .nothing ∨ h.size ≤ b) :
    ¬ h.Leads a l b := by
  intro hl
  obtain ⟨m, c, hm, hlen⟩ := hcyc.exists_leads (l.length + 1)
  rcases hl.compare hm with ⟨k, rfl, hk⟩ | ⟨k, rfl, hk⟩
  · obtain ⟨rfl, rfl⟩ := hk.eq_of_end hb
    rw [List.append_nil] at hlen
    omega
  · rw [List.length_append] at hlen
    omega

end

/-! ## how a chain ends -/

/-- the bounded chain is as far as next links lead in so many steps -/
theorem chainFrom_cases (h : Heap) (start : Address) (steps : Nat) (a : Address) :
    ∃ l b, h.Leads a l b ∧
      ((b = .nothing ∧ h.chainFrom start steps a = ⟨l, none⟩) ∨
        (h.size ≤ b ∧ h.chainFrom start steps a = ⟨l, some ⟨b, .outOfRange h.size⟩⟩) ∨
        (l.length = steps ∧
          h.chainFrom start steps a = ⟨l, some ⟨b, .unterminatedChain start h.size⟩⟩)) := by
  induction steps generalizing a with
  | zero =>
    refine ⟨[], a, .here a, ?_⟩
    by_cases ha : a = .nothing
    · subst ha
      exact .inl ⟨rfl, chainFrom_nothing⟩
    · exact .inr (.inr ⟨rfl, if_neg ha⟩)
  | succ steps ih =>
    by_cases ha : a = .nothing
    · subst ha
      exact ⟨[], _, .here _, .inl ⟨rfl, chainFrom_nothing⟩⟩
    · rw [chainFrom, if_neg ha]
      cases hc : h.get a with
      | error fault =>
        obtain ⟨hout, rfl⟩ := get_eq_error hc
        exact ⟨[], a, .here a, .inr (.inl ⟨hout, rfl⟩)⟩
      | ok c =>
        obtain ⟨l, b, hl, hcases⟩ := ih c.next
        refine ⟨(a, c) :: l, b, .cell ha (get_eq_ok.mp hc) hl, ?_⟩
        show (_ ∧ Chain.cons a c (h.chainFrom start steps c.next) = _) ∨
          (_ ∧ Chain.cons a c (h.chainFrom start steps c.next) = _) ∨
            (_ ∧ Chain.cons a c (h.chainFrom start steps c.next) = _)
        rcases hcases with ⟨hb, heq⟩ | ⟨hout, heq⟩ | ⟨hlen, heq⟩ <;> rw [heq]
        · exact .inl ⟨hb, rfl⟩
        · exact .inr (.inl ⟨hout, rfl⟩)
        · exact .inr (.inr ⟨congrArg (· + 1) hlen, rfl⟩)

section
variable {h : Heap} {start b : Address} {l : List (Address × Cell)}

/-- **A chain ends, leaves the heap, or is cyclic**: with the sentinel in the heap, after as many
steps as there are cells it has gone round -/
theorem chain_cases (hpos : 0 < h.size) (start : Address) : ∃ l b, h.Leads start l b ∧
    ((b = .nothing ∧ h.chain start = ⟨l, none⟩) ∨
      (h.size ≤ b ∧ h.chain start = ⟨l, some ⟨b, .outOfRange h.size⟩⟩) ∨
      (h.Cyclic start ∧ l.length = h.size ∧
        h.chain start = ⟨l, some ⟨b, .unterminatedChain start h.size⟩⟩)) := by
  obtain ⟨l, b, hl, hcases⟩ := h.chainFrom_cases start h.size start
  refine ⟨l, b, hl, ?_⟩
  rcases hcases with hend | hout | ⟨hlen, heq⟩
  · exact .inl hend
  · exact .inr (.inl hout)
  · exact .inr (.inr ⟨hl.cyclic_of_length hpos (Nat.le_of_eq hlen.symm), hlen, heq⟩)

theorem chain_of_leads_nothing (hl : h.Leads start l .nothing) : h.chain start = ⟨l, none⟩ :=
  chain_cells_of_follows (leads_nothing_iff.mp hl)

theorem chain_of_leads_out (hpos : 0 < h.size) (hl : h.Leads start l b) (hb : h.size ≤ b) :
    h.chain start = ⟨l, some ⟨b, .outOfRange h.size⟩⟩ := by
  obtain ⟨m, c, hm, ⟨rfl, _⟩ | ⟨hout, heq⟩ | ⟨hcyc, _⟩⟩ := chain_cases hpos start
  · obtain ⟨_, rfl⟩ := hl.unique_end (.inr hb) hm (.inl rfl)
    exact absurd hb (Nat.not_le.mpr hpos)
  · obtain ⟨rfl, rfl⟩ := hl.unique_end (.inr hb) hm (.inr hout)
    exact heq
  · exact absurd hl (hcyc.not_leads (.inr hb))

theorem chain_of_cyclic (hpos : 0 < h.size) (hcyc : h.Cyclic start) :
    ∃ l b, h.Leads start l b ∧ l.length = h.size ∧
      h.chain start = ⟨l, some ⟨b, .unterminatedChain start h.size⟩⟩ := by
  obtain ⟨m, c, hm, ⟨rfl, _⟩ | ⟨hout, _⟩ | ⟨_, hlen, heq⟩⟩ := chain_cases hpos start
  · exact absurd hm (hcyc.not_leads (.inl rfl))
  · exact absurd hm (hcyc.not_leads (.inr hout))
  · exact ⟨m, c, hm, hlen, heq⟩

/-- all items are cells exactly where next links lead to nothing -/
theorem items_ok_iff (hpos : 0 < h.size) :
    (∀ x ∈ (h.chain start).items, ∃ e, x = .ok e) ↔ ∃ l, h.Leads start l .nothing := by
  constructor
  · intro hok
    obtain ⟨m, c, hm, ⟨rfl, _⟩ | ⟨_, heq⟩ | ⟨_, _, heq⟩⟩ := chain_cases hpos start
    · exact ⟨m, hm⟩
    all_goals
      rw [heq] at hok
      obtain ⟨_, he⟩ := hok (.error _) (List.mem_append_right _ List.mem_cons_self)
      cases he
  · rintro ⟨l, hl⟩ x hx
    rw [chain_of_leads_nothing hl, Chain.items_of_complete] at hx
    obtain ⟨e, _, rfl⟩ := List.mem_map.mp hx
    exact ⟨e, rfl⟩

/-- the chain is found not to end exactly if it is cyclic -/
theorem unterminated_iff (hpos : 0 < h.size) :
    (∃ b first limit, .error ⟨b, .unterminatedChain first limit⟩ ∈ (h.chain start).items) ↔
      h.Cyclic start := by
  constructor
  · rintro ⟨b, first, limit, hmem⟩
    obtain ⟨m, c, hm, ⟨_, heq⟩ | ⟨_, heq⟩ | ⟨hcyc, _⟩⟩ := chain_cases hpos start
    · rw [heq, Chain.items_of_complete] at hmem
      obtain ⟨_, _, he⟩ := List.mem_map.mp hmem
      cases he
    · rw [heq, Chain.mem_items_error] at hmem
      cases hmem
    · exact hcyc
  · intro hcyc
    obtain ⟨m, c, _, _, heq⟩ := chain_of_cyclic hpos hcyc
    rw [heq]
    exact ⟨c, start, h.size, Chain.mem_items_error.mpr rfl⟩

/-- **What the iterator gives**: the cells of a chain that ends, none of them twice; those of a
chain that leaves the heap, and the address where it does; and of a cyclic chain as many cells as
the heap has, and that it does not end. There is no other chain, so the bound cuts off no chain that
ends. -/
theorem statements_items (h : Heap) (start : Address) (hpos : 0 < h.size) :
    ∃ items, (h.statements start).Gives items ∧ items = (h.chain start).items ∧
      ((∀ x ∈ items, ∃ e, x = .ok e) ↔ ∃ l, h.Leads start l .nothing) ∧
      (∀ l, h.Leads start l .nothing →
        items = l.map .ok ∧ (l.map Prod.fst).Nodup ∧ l.length ≤ h.size - 1) ∧
      (∀ l b, h.Leads start l b → h.size ≤ b →
        items = l.map .ok ++ [.error ⟨b, .outOfRange h.size⟩]) ∧
      ((∃ b first limit, .error ⟨b, .unterminatedChain first limit⟩ ∈ items) ↔ h.Cyclic start) ∧
      (h.Cyclic start → ∃ l b, h.Leads start l b ∧ l.length = h.size ∧
        items = l.map .ok ++ [.error ⟨b, .unterminatedChain start h.size⟩]) ∧
      ((∃ l, h.Leads start l .nothing) ∨ (∃ l b, h.Leads start l b ∧ h.size ≤ b) ∨
        h.Cyclic start) := by
  refine ⟨_, Statements.item_eq (Nat.zero_add _), rfl, items_ok_iff hpos, fun l hl => ?_,
    fun l b hl hb => ?_, unterminated_iff hpos, fun hcyc => ?_, ?_⟩
  · have hfollows := leads_nothing_iff.mp hl
    show (h.chain start).items = _ ∧ _
    rw [chain_of_leads_nothing hl, Chain.items_of_complete]
    exact ⟨rfl, hfollows.nodup, hfollows.length_le⟩
  · show (h.chain start).items = _
    rw [chain_of_leads_out hpos hl hb]
    rfl
  · obtain ⟨l, b, hl, hlen, heq⟩ := chain_of_cyclic hpos hcyc
    refine ⟨l, b, hl, hlen, ?_⟩
    show (h.chain start).items = _
    rw [heq]
    rfl
  · obtain ⟨l, b, hl, ⟨rfl, _⟩ | ⟨hb, _⟩ | ⟨hcyc, _⟩⟩ := chain_cases hpos start
    · exact .inl ⟨l, hl⟩
    · exact .inr (.inl ⟨l, b, hl, hb⟩)
    · exact .inr (.inr hcyc)

end

end Heap

/-! ## an example -/

namespace Sample

def linkedTo (next : Address) : Cell := { Cell.ofKind .takePhoto with next := next }

/-- from cell 1 next links lead into a circle of cells 2 and 3, from cell 4 out of the heap -/
def coiledChain : Heap := ⟨#[.sentinel, linkedTo 2, linkedTo 3, linkedTo 2, linkedTo 9]⟩

theorem coiledChain_items : 0 < coiledChain.size ∧ coiledChain.Cyclic 1 ∧
    (∃ items, (coiledChain.statements 1).Gives items ∧ items.length = 6 ∧
      ∃ b first limit, .error ⟨b, .unterminatedChain first limit⟩ ∈ items) ∧
    (coiledChain.statements 4).Gives [.ok (4, linkedTo 9), .error ⟨9, .outOfRange 5⟩] := by
  have hpos : 0 < coiledChain.size := by decide
  have hcyc : coiledChain.Cyclic 1 := by
    have htwo : coiledChain.Leads 1 [(1, linkedTo 2)] 2 := .cell (by decide) rfl (.here 2)
    have hround : coiledChain.Leads 2 [(2, linkedTo 3), (3, linkedTo 2)] 2 :=
      .cell (by decide) rfl (.cell (by decide) rfl (.here 2))
    exact ⟨2, _, _, htwo, hround, List.cons_ne_nil _ _⟩
  have hout : coiledChain.Leads 4 [(4, linkedTo 9)] 9 := .cell (by decide) rfl (.here 9)
  obtain ⟨items, hitems, _, _, _, _, hunterminated, hcells, _⟩ :=
    Heap.statements_items coiledChain 1 hpos
  obtain ⟨l, b, _, hlen, heq⟩ := hcells hcyc
  obtain ⟨left, hleft, _, _, _, hleaves, _⟩ := Heap.statements_items coiledChain 4 hpos
  refine ⟨hpos, hcyc, ⟨items, hitems, ?_, hunterminated.mpr hcyc⟩, ?_⟩
  · rw [heq, List.length_append, List.length_map, hlen]
    rfl
  · rw [hleaves _ _ hout (by decide)] at hleft
    exact hleft

end Sample

end ScriptHeap
