/-!
# Maps from names to values

* `Entries.find?`, `Entries.insert`   association lists read and written by name;
* `Entries.Sorted`     names strictly increasing, in code point order;
* `Entries.ofList`     a list of pairs put in order, a later pair replacing an earlier one;
* `NameMap`            a sorted association list; two maps with the same look-ups are equal
                       (`NameMap.ext_find?`).

Code point order of names is also the byte order of their UTF-8 forms.
-/

namespace ScriptHeap

abbrev Entries (α : Type) := List (String × α)

namespace Entries

section
variable {α β : Type}

/-! ## look-up -/

def find? (name : String) : Entries α → Option α
  | [] => none
  | (n, v) :: rest => if n = name then some v else find? name rest

theorem find?_nil (name : String) : find? name ([] : Entries α) = none := rfl
theorem find?_cons (name n : String) (v : α) (rest : Entries α) :
    find? name ((n, v) :: rest) = if n = name then some v else find? name rest := rfl

theorem mem_of_find? {name : String} {v : α} {l : Entries α} (h : find? name l = some v) :
    (name, v) ∈ l := by
  induction l with
  | nil => simp [find?_nil] at h
  | cons e rest ih =>
    obtain ⟨n, w⟩ := e
    rw [find?_cons] at h
    split at h
    · next hn => simp_all
    · exact List.mem_cons_of_mem _ (ih h)

theorem find?_eq_none_iff {name : String} {l : Entries α} :
    find? name l = none ↔ ∀ e ∈ l, e.1 ≠ name := by
  induction l with
  | nil => simp [find?_nil]
  | cons e rest ih =>
    obtain ⟨n, w⟩ := e
    rw [find?_cons]
    split
    · next hn => simp [hn]
    · next hn => simp [hn, ih]

theorem find?_map (f : α → β) (name : String) (l : Entries α) :
    find? name (l.map fun e => (e.1, f e.2)) = (find? name l).map f := by
  induction l with
  | nil => rfl
  | cons e rest ih =>
    obtain ⟨n, w⟩ := e
    rw [List.map_cons, find?_cons, find?_cons, ih]
    split <;> rfl

/-! ## order -/

/-- names strictly increasing -/
def Sorted (l : Entries α) : Prop := l.Pairwise fun a b => a.1 < b.1

instance (l : Entries α) : Decidable l.Sorted := inferInstanceAs (Decidable (List.Pairwise _ _))

theorem sorted_nil : Sorted ([] : Entries α) := List.Pairwise.nil
theorem sorted_cons {e : String × α} {l : Entries α} :
    Sorted (e :: l) ↔ (∀ x ∈ l, e.1 < x.1) ∧ Sorted l := List.pairwise_cons

theorem sorted_map (f : α → β) {l : Entries α} :
    Sorted (l.map fun e => (e.1, f e.2)) ↔ Sorted l := by
  rw [Sorted, List.pairwise_map]
  exact Iff.rfl

/-- in a sorted list an entry is the one found under its name -/
theorem find?_of_mem {name : String} {v : α} {l : Entries α} (hl : Sorted l)
    (h : (name, v) ∈ l) : find? name l = some v := by
  induction l with
  | nil => simp at h
  | cons e rest ih =>
    obtain ⟨n, w⟩ := e
    rw [sorted_cons] at hl
    rw [find?_cons]
    rcases List.mem_cons.mp h with he | he
    · simp_all
    · have hlt : n < name := hl.1 _ he
      rw [if_neg (fun hn : n = name => String.lt_irrefl name (hn ▸ hlt)), ih hl.2 he]

theorem ext_find? {l m : Entries α} (hl : Sorted l) (hm : Sorted m)
    (h : ∀ name, find? name l = find? name m) : l = m := by
  induction l generalizing m with
  | nil =>
    cases m with
    | nil => rfl
    | cons e rest =>
      have := h e.1
      rw [find?_nil, find?_cons, if_pos rfl] at this
      simp at this
  | cons d l ih =>
    cases m with
    | nil =>
      have := h d.1
      rw [find?_nil, find?_cons, if_pos rfl] at this
      simp at this
    | cons e m =>
      rw [sorted_cons] at hl hm
      have hde : d.1 = e.1 := by
        have h1 : (d.1, d.2) ∈ e :: m := mem_of_find? (by rw [← h, find?_cons, if_pos rfl])
        have h2 : (e.1, e.2) ∈ d :: l := mem_of_find? (by rw [h, find?_cons, if_pos rfl])
        rcases List.mem_cons.mp h1 with h1 | h1
        · rw [← h1]
        · rcases List.mem_cons.mp h2 with h2 | h2
          · rw [← h2]
          · exact absurd (hm.1 _ h1) (String.lt_asymm (hl.1 _ h2))
      have hv : d.2 = e.2 := by
        have := h d.1
        rw [find?_cons, if_pos rfl, find?_cons, if_pos hde.symm] at this
        exact Option.some.inj this
      have he : d = e := Prod.ext hde hv
      subst he
      congr 1
      refine ih hl.2 hm.2 fun name => ?_
      by_cases hn : d.1 = name
      · have hl' : find? name l = none := find?_eq_none_iff.mpr fun x hx hxn =>
          String.lt_irrefl name (by simpa [hn, hxn] using hl.1 x hx)
        have hm' : find? name m = none := find?_eq_none_iff.mpr fun x hx hxn =>
          String.lt_irrefl name (by simpa [hn, hxn] using hm.1 x hx)
        rw [hl', hm']
      · have := h name
        rwa [find?_cons, if_neg hn, find?_cons, if_neg hn] at this

/-! ## insertion -/

def insert (name : String) (v : α) : Entries α → Entries α
  | [] => [(name, v)]
  | (n, w) :: rest =>
    if name < n then (name, v) :: (n, w) :: rest
    else if name = n then (name, v) :: rest
    else (n, w) :: insert name v rest

theorem insert_nil (name : String) (v : α) : insert name v [] = [(name, v)] := rfl
theorem insert_cons (name n : String) (v w : α) (rest : Entries α) :
    insert name v ((n, w) :: rest) =
      if name < n then (name, v) :: (n, w) :: rest
      else if name = n then (name, v) :: rest
      else (n, w) :: insert name v rest := rfl

theorem mem_insert {name : String} {v : α} {l : Entries α} {e : String × α}
    (h : e ∈ insert name v l) : e = (name, v) ∨ e ∈ l := by
  induction l with
  | nil => simpa [insert_nil] using h
  | cons d rest ih =>
    obtain ⟨n, w⟩ := d
    rw [insert_cons] at h
    split at h
    · simpa using h
    · split at h
      · rcases List.mem_cons.mp h with h | h
        · exact .inl h
        · exact .inr (List.mem_cons_of_mem _ h)
      · rcases List.mem_cons.mp h with h | h
        · exact .inr (h ▸ List.mem_cons_self)
        · exact (ih h).imp_right (List.mem_cons_of_mem _)

theorem sorted_insert (name : String) (v : α) {l : Entries α} (hl : Sorted l) :
    Sorted (insert name v l) := by
  induction l with
  | nil => simp [insert_nil, Sorted]
  | cons d rest ih =>
    obtain ⟨n, w⟩ := d
    rw [sorted_cons] at hl
    rw [insert_cons]
    split
    · next hlt =>
      refine sorted_cons.mpr ⟨fun x hx => ?_, sorted_cons.mpr hl⟩
      rcases List.mem_cons.mp hx with hx | hx
      · exact hx ▸ hlt
      · exact String.lt_trans hlt (hl.1 x hx)
    · next hge =>
      split
      · next heq => exact sorted_cons.mpr ⟨fun x hx => heq ▸ hl.1 x hx, hl.2⟩
      · next hne =>
        refine sorted_cons.mpr ⟨fun x hx => ?_, ih hl.2⟩
        rcases mem_insert hx with hx | hx
        · have hle : n ≤ name := String.not_lt.mp hge
          rw [hx]
          exact Decidable.byContradiction fun hn =>
            hne (String.le_antisymm (String.not_lt.mp hn) hle)
        · exact hl.1 x hx

theorem find?_insert_self (name : String) (v : α) (l : Entries α) :
    find? name (insert name v l) = some v := by
  induction l with
  | nil => simp [insert_nil, find?_cons]
  | cons d rest ih =>
    obtain ⟨n, w⟩ := d
    rw [insert_cons]
    split
    · simp [find?_cons]
    · split
      · simp [find?_cons]
      · next hne => rw [find?_cons, if_neg (fun h => hne h.symm), ih]

theorem find?_insert_of_ne {name other : String} (h : other ≠ name) (v : α) (l : Entries α) :
    find? other (insert name v l) = find? other l := by
  induction l with
  | nil => simp [insert_nil, find?_cons, find?_nil, h.symm]
  | cons d rest ih =>
    obtain ⟨n, w⟩ := d
    rw [insert_cons]
    split
    · rw [find?_cons, if_neg h.symm]
    · split
      · next heq => rw [find?_cons, if_neg h.symm, find?_cons, if_neg (heq ▸ h.symm)]
      · rw [find?_cons, find?_cons, ih]

/-- the entry of a smaller name goes to the front -/
theorem insert_of_lt {name : String} {v : α} {l : Entries α} (h : ∀ e ∈ l, name < e.1) :
    insert name v l = (name, v) :: l := by
  cases l with
  | nil => rfl
  | cons d rest => rw [insert_cons, if_pos (h d List.mem_cons_self)]

/-! ## sorting -/

/-- the pairs in the order of their names; of two with one name the later counts -/
def ofList (l : List (String × α)) : Entries α :=
  l.foldl (fun acc e => insert e.1 e.2 acc) []

theorem foldl_insert_sorted (l : List (String × α)) (acc : Entries α) (h : Sorted acc) :
    Sorted (l.foldl (fun acc e => insert e.1 e.2 acc) acc) := by
  induction l generalizing acc with
  | nil => exact h
  | cons e l ih => exact ih _ (sorted_insert _ _ h)

theorem sorted_ofList (l : List (String × α)) : Sorted (ofList l) :=
  foldl_insert_sorted l [] sorted_nil

end

end Entries

/-! ## maps -/

/-- a sorted association list -/
structure NameMap (α : Type) where
  entries : Entries α
  sorted : entries.Sorted
deriving DecidableEq

namespace NameMap

section
variable {α : Type}

def empty : NameMap α := ⟨[], Entries.sorted_nil⟩

instance : Inhabited (NameMap α) := ⟨empty⟩
instance : EmptyCollection (NameMap α) := ⟨empty⟩

def find? (m : NameMap α) (name : String) : Option α := Entries.find? name m.entries

def insert (m : NameMap α) (name : String) (v : α) : NameMap α :=
  ⟨Entries.insert name v m.entries, Entries.sorted_insert name v m.sorted⟩

def names (m : NameMap α) : List String := m.entries.map Prod.fst

theorem find?_empty (name : String) : (empty : NameMap α).find? name = none := rfl

theorem find?_insert_self (m : NameMap α) (name : String) (v : α) :
    (m.insert name v).find? name = some v := Entries.find?_insert_self name v m.entries

theorem find?_insert_of_ne (m : NameMap α) {name other : String} (h : other ≠ name) (v : α) :
    (m.insert name v).find? other = m.find? other := Entries.find?_insert_of_ne h v m.entries

theorem ext_find? {m₁ m₂ : NameMap α} (h : ∀ name, m₁.find? name = m₂.find? name) : m₁ = m₂ := by
  have : m₁.entries = m₂.entries := Entries.ext_find? m₁.sorted m₂.sorted h
  cases m₁; cases m₂; simp_all

end

end NameMap

end ScriptHeap
