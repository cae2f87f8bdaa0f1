import Mathlib.Data.List.Nodup
import ScriptHeap.Corpus.Basic
/-!
# Look-ups by name

* `Entries.find?_foldl_insert`, `NameMap.find?_foldl_insert`   what is found after entries of
                       different names were put in;
* `Entries.ofList_of_sorted`   entries in order stay as they are;
* `Entries.nested`     the nested values among arguments;
* `KindShape.arg?_eq_some_iff`, `KindShape.forall_arg?`   declared arguments by name and by list;
* `Corpus.args_nodup`, `Corpus.exists_primary`   what consistency says of a registered shape;
* `Corpus.shape?_eq_some_iff`   the shapes of a corpus by their kinds.
-/

namespace ScriptHeap

/-! ## entries -/

/-- names that are kept with their entries stay in order -/
theorem sublist_map_filterMap {α β γ : Type} {f : α → Option β} {g : α → γ} {k : β → γ}
    (hf : ∀ x y, f x = some y → k y = g x) (l : List α) :
    ((l.filterMap f).map k).Sublist (l.map g) := by
  induction l with
  | nil => exact .slnil
  | cons x l ih =>
    rw [List.filterMap_cons]
    split
    · exact ih.cons _
    · next y hy =>
      rw [List.map_cons, List.map_cons, hf x y hy]
      exact ih.cons_cons _

namespace Entries

section
variable {α : Type}

theorem isSome_find?_iff {name : String} {l : Entries α} :
    (find? name l).isSome ↔ name ∈ l.map Prod.fst := by
  rw [← not_iff_not, Bool.not_eq_true, Option.isSome_eq_false_iff, Option.isNone_iff_eq_none,
    find?_eq_none_iff, List.mem_map]
  exact ⟨fun h ⟨e, he, hn⟩ => h e he hn, fun h e he hn => h ⟨e, he, hn⟩⟩

theorem find?_eq_none_iff_not_mem {name : String} {l : Entries α} :
    find? name l = none ↔ name ∉ l.map Prod.fst := by
  rw [← isSome_find?_iff, Bool.not_eq_true, Option.isSome_eq_false_iff, Option.isNone_iff_eq_none]

/-- no entry has a name that is not listed -/
theorem find?_foreign_eq_none_iff {names : List String} {l : Entries α} :
    (l.map Prod.fst).find? (fun name => !names.contains name) = none ↔ ∀ e ∈ l, e.1 ∈ names := by
  rw [List.find?_eq_none]
  simp only [List.mem_map, forall_exists_index, and_imp, forall_apply_eq_imp_iff₂,
    Bool.not_eq_true', Bool.not_eq_false, List.contains_iff_mem]

theorem nodup_names {l : Entries α} (h : Sorted l) : (l.map Prod.fst).Nodup := by
  rw [List.Nodup, List.pairwise_map]
  refine List.Pairwise.imp ?_ h
  intro a b hlt heq
  rw [heq] at hlt
  exact String.lt_irrefl _ hlt

theorem find?_eq_some_iff {name : String} {v : α} {l : Entries α} (hl : (l.map Prod.fst).Nodup) :
    find? name l = some v ↔ (name, v) ∈ l := by
  refine ⟨mem_of_find?, fun h => ?_⟩
  induction l with
  | nil => cases h
  | cons e l ih =>
    obtain ⟨n, w⟩ := e
    rw [List.map_cons, List.nodup_cons] at hl
    rw [find?_cons]
    rcases List.mem_cons.mp h with he | he
    · cases he
      rw [if_pos rfl]
    · have hne : n ≠ name := fun hn => hl.1 (List.mem_map.mpr ⟨(name, v), he, hn.symm⟩)
      rw [if_neg hne, ih hl.2 he]

/-- sorted entries with listed names are told by what is found under these names -/
theorem ext_find?_of_names {names : List String} {l m : Entries α} (hl : Sorted l) (hm : Sorted m)
    (hln : ∀ e ∈ l, e.1 ∈ names) (hmn : ∀ e ∈ m, e.1 ∈ names)
    (h : ∀ name ∈ names, find? name l = find? name m) : l = m := by
  refine ext_find? hl hm fun name => ?_
  by_cases hname : name ∈ names
  · exact h name hname
  · have hnone : ∀ k : Entries α, (∀ e ∈ k, e.1 ∈ names) → find? name k = none :=
      fun k hk => find?_eq_none_iff.mpr fun e he heq => hname (heq ▸ hk e he)
    rw [hnone l hln, hnone m hmn]

/-- entries are in order when their names are -/
theorem sorted_congr {β : Type} {l : Entries α} {m : Entries β}
    (h : l.map Prod.fst = m.map Prod.fst) : Sorted l ↔ Sorted m := by
  have hnames : ∀ {γ : Type} (k : Entries γ), Sorted k ↔ (k.map Prod.fst).Pairwise (· < ·) :=
    fun k => List.pairwise_map.symm
  rw [hnames, hnames, h]

/-- the nested values by name -/
def nested (l : Entries (Arg α)) : Entries α :=
  l.filterMap fun e => e.2.nested?.map fun x => (e.1, x)

theorem mem_nested {name : String} {x : α} {l : Entries (Arg α)} (hl : (l.map Prod.fst).Nodup) :
    (name, x) ∈ nested l ↔ find? name l = some (.nested x) := by
  rw [nested, List.mem_filterMap, find?_eq_some_iff hl]
  constructor
  · intro ⟨⟨name', v⟩, hm, hv⟩
    cases v with
    | scalar s => cases hv
    | nested d => cases hv; exact hm
  · intro hm
    exact ⟨_, hm, rfl⟩

theorem nodup_nested {l : Entries (Arg α)} (hl : (l.map Prod.fst).Nodup) :
    ((nested l).map Prod.fst).Nodup := by
  refine hl.sublist (sublist_map_filterMap (fun e y hy => ?_) l)
  obtain ⟨x, _, rfl⟩ := Option.map_eq_some_iff.mp hy
  rfl

/-- entries of different names, put in one by one, are found over what was there before -/
theorem find?_foldl_insert {l : List (String × α)} (hl : (l.map Prod.fst).Nodup) (acc : Entries α)
    (name : String) :
    find? name (l.foldl (fun acc e => insert e.1 e.2 acc) acc)
      = (find? name l).or (find? name acc) := by
  induction l generalizing acc with
  | nil => rfl
  | cons e l ih =>
    obtain ⟨n, v⟩ := e
    rw [List.map_cons, List.nodup_cons] at hl
    rw [List.foldl_cons, ih hl.2, find?_cons]
    by_cases hn : n = name
    · subst hn
      have hnone : find? n l = none := find?_eq_none_iff_not_mem.mpr hl.1
      rw [hnone, if_pos rfl, find?_insert_self]
      rfl
    · rw [if_neg hn, find?_insert_of_ne (fun h => hn h.symm)]

theorem find?_ofList {l : List (String × α)} (hl : (l.map Prod.fst).Nodup) (name : String) :
    find? name (ofList l) = find? name l := by
  show find? name (l.foldl (fun acc e => insert e.1 e.2 acc) []) = _
  rw [find?_foldl_insert hl, find?_nil, Option.or_none]

/-- the entry of a greater name goes to the end -/
theorem insert_of_gt {name : String} {v : α} {l : Entries α} (h : ∀ e ∈ l, e.1 < name) :
    insert name v l = l ++ [(name, v)] := by
  induction l with
  | nil => rfl
  | cons d rest ih =>
    obtain ⟨n, w⟩ := d
    obtain ⟨hlt, hrest⟩ := List.forall_mem_cons.mp h
    have hne : name ≠ n := fun heq => String.lt_irrefl n (heq ▸ hlt)
    rw [insert_cons, if_neg (String.lt_asymm hlt), if_neg hne, ih hrest, List.cons_append]

/-- putting in order leaves alone what is in order -/
theorem ofList_of_sorted {l : Entries α} (hl : Sorted l) : ofList l = l := by
  refine ext_find? (sorted_ofList l) hl fun name => ?_
  exact find?_ofList (nodup_names hl) name

end

end Entries

/-! ## maps -/

namespace NameMap

section
variable {α : Type}

theorem entries_foldl_insert (l : List (String × α)) (m : NameMap α) :
    (l.foldl (fun m e => m.insert e.1 e.2) m).entries
      = l.foldl (fun acc e => Entries.insert e.1 e.2 acc) m.entries := by
  induction l generalizing m with
  | nil => rfl
  | cons e l ih => exact ih (m.insert e.1 e.2)

theorem find?_foldl_insert {l : List (String × α)} (hl : (l.map Prod.fst).Nodup) (m : NameMap α)
    (name : String) :
    (l.foldl (fun m e => m.insert e.1 e.2) m).find? name
      = (Entries.find? name l).or (m.find? name) := by
  show Entries.find? name _ = _
  rw [entries_foldl_insert, Entries.find?_foldl_insert hl]
  rfl

end

end NameMap

/-! ## shapes -/

theorem ArgType.isNode_iff {t : ArgType} : t.isNode = true ↔ ∃ kinds, t = .node kinds := by
  cases t <;> simp [isNode]

namespace KindShape

section
variable {s : KindShape} (hn : (s.args.map (·.name)).Nodup)
include hn

theorem arg?_eq_some_iff {name : String} {a : ArgSpec} :
    s.arg? name = some a ↔ a ∈ s.args ∧ a.name = name := by
  refine ⟨mem_args_of_arg?, ?_⟩
  rintro ⟨ha, rfl⟩
  cases h : s.arg? a.name with
  | none =>
    have hne := List.find?_eq_none.mp h a ha
    simp at hne
  | some a' =>
    obtain ⟨ha', hname⟩ := mem_args_of_arg? h
    rw [List.inj_on_of_nodup_map hn ha' ha hname]

theorem not_mem_names_of_arg? {name : String} (h : s.arg? name = none) :
    name ∉ s.args.map (·.name) := by
  intro hm
  obtain ⟨a, ha, rfl⟩ := List.mem_map.mp hm
  rw [(arg?_eq_some_iff hn).mpr ⟨ha, rfl⟩] at h
  cases h

/-- what is said of all names is said of the declared arguments and of all other names -/
theorem forall_arg? {P : Option ArgSpec → String → Prop} :
    (∀ name, P (s.arg? name) name) ↔
      (∀ a ∈ s.args, P (some a) a.name) ∧ ∀ name, s.arg? name = none → P none name := by
  constructor
  · intro h
    refine ⟨fun a ha => ?_, fun name hname => hname ▸ h name⟩
    have := h a.name
    rwa [(arg?_eq_some_iff hn).mpr ⟨ha, rfl⟩] at this
  · intro ⟨hd, hu⟩ name
    cases h : s.arg? name with
    | none => exact hu name h
    | some a =>
      obtain ⟨ha, rfl⟩ := mem_args_of_arg? h
      exact hd a ha

end

theorem undeclared?_eq_none_iff {s : KindShape} {names : List String} :
    s.undeclared? names = none ↔ ∀ name, s.arg? name = none → name ∉ names := by
  show names.find? _ = none ↔ _
  rw [List.find?_eq_none]
  refine ⟨fun h name hn hm => h name hm (by rw [hn]; rfl), fun h name hm hn => ?_⟩
  exact h name (Option.isNone_iff_eq_none.mp hn) hm

theorem undeclared?_names_eq_none_iff {α : Type} {s : KindShape} {m : NameMap α} :
    s.undeclared? m.names = none ↔ ∀ name, s.arg? name = none → m.find? name = none := by
  rw [undeclared?_eq_none_iff]
  exact forall₂_congr fun name _ => Entries.find?_eq_none_iff_not_mem.symm

theorem blockKinds?_eq_some_iff {s : KindShape} {kinds : List Kind} :
    s.blockKinds? = some kinds ↔ s.body = .block kinds := by
  unfold blockKinds?
  split <;> simp_all

theorem isBlock_iff {s : KindShape} : s.isBlock = true ↔ ∃ kinds, s.body = .block kinds := by
  show s.blockKinds?.isSome = true ↔ _
  rw [Option.isSome_iff_exists]
  exact exists_congr fun kinds => blockKinds?_eq_some_iff

theorem isBlock_of_primary {s : KindShape} {name : String} (h : s.body = .primary name) :
    s.isBlock = false := by
  rw [isBlock, blockKinds?, h]
  rfl

theorem isBlock_of_none {s : KindShape} (h : s.body = .none) : s.isBlock = false := by
  rw [isBlock, blockKinds?, h]
  rfl

end KindShape

/-! ## registered shapes -/

namespace Corpus

section
variable {c : Corpus} {kind : Kind} {s : KindShape} (h : c.shape? kind = some s)
include h

theorem args_nodup : (s.args.map (·.name)).Nodup :=
  c.consistent.args_nodup s (mem_of_shape? h).1

theorem kind_of_shape? : s.kind = kind := (mem_of_shape? h).2

theorem shapeOf?_name : c.shapeOf? kind.name = some s := by
  obtain rfl := kind_of_shape? h
  exact shapeOf?_eq_some_iff.mpr ⟨h, rfl⟩

/-- the primary argument is a declared node argument -/
theorem exists_primary {name : String} (hp : s.body = .primary name) :
    ∃ a kinds, s.arg? name = some a ∧ a.type = .node kinds := by
  obtain ⟨a, ha, hnode⟩ := c.consistent.primary_node s (mem_of_shape? h).1 name
    (KindShape.primary?_eq_some_iff.mpr hp)
  cases ht : a.type with
  | node kinds => exact ⟨a, kinds, ha, ht⟩
  | _ => rw [ht] at hnode; cases hnode

end

/-- a kind that is among those of the shapes has a shape -/
theorem exists_shape? {c : Corpus} {kind : Kind} (hk : kind ∈ c.shapes.map (·.kind)) :
    ∃ s, c.shape? kind = some s := by
  obtain ⟨s, hs, rfl⟩ := List.mem_map.mp hk
  rw [← Option.isSome_iff_exists, shape?, List.find?_isSome]
  exact ⟨s, hs, beq_self_eq_true s.kind⟩

/-- a shape is found under its kind exactly if the corpus has it -/
theorem shape?_eq_some_iff {c : Corpus} {kind : Kind} {s : KindShape} :
    c.shape? kind = some s ↔ s ∈ c.shapes ∧ s.kind = kind := by
  refine ⟨mem_of_shape?, ?_⟩
  rintro ⟨hs, rfl⟩
  obtain ⟨t, ht⟩ := exists_shape? (List.mem_map_of_mem (f := (·.kind)) hs)
  obtain ⟨htmem, htkind⟩ := mem_of_shape? ht
  -- no kind has two shapes
  rw [ht, List.inj_on_of_nodup_map c.consistent.kinds_nodup htmem hs htkind]

theorem shape?_of_shapeOf? {c : Corpus} {name : String} {s : KindShape}
    (h : c.shapeOf? name = some s) : c.shape? s.kind = some s := (shapeOf?_eq_some_iff.mp h).1

theorem shapeOf_eq_ok_iff {c : Corpus} {name : String} {s : KindShape} :
    c.shapeOf name = .ok s ↔ c.shapeOf? name = some s := by
  unfold shapeOf
  cases c.shapeOf? name with
  | none => exact ⟨nofun, nofun⟩
  | some s' => exact ⟨fun h => (by cases h; rfl), fun h => (by cases h; rfl)⟩

end Corpus

end ScriptHeap
