import ScriptHeap.Heap.Record
import ScriptHeap.Proofs.JsonValue
import ScriptHeap.Proofs.Outcome
/-!
# Records of cells

* `Scalar.ofJson?_eq_some_iff`   a scalar without infinities and NaN is read from its own JSON form
                       only;
* `Cell.Typed`         the arguments of a cell are declared, and are addresses where nodes are declared;
* `Cell.Fits`          the addresses of a cell are words;
* `Cell.ofJson_eq_ok`  what the reading of a record asks for;
* `Cell.ofJson_eq_ok_iff`   such a cell is read from its own record, and from no other value;
* `Heap.readCells_eq_ok`    records are read one by one.
-/

namespace ScriptHeap

/-! ## scalars -/

namespace Scalar

/-- no infinity and no NaN -/
def Finite (s : Scalar) : Prop := ∀ x, s = .float x → x.isFinite = true

theorem toJson_float {x : Binary64} (hx : x.isFinite = true) :
    (float x).toJson = .number (.float x) := if_pos hx

theorem int64?_eq_some_iff {i : Int} {w : Int64} :
    Json.int64? (.number (.integer i)) = some w ↔ i = w.toInt := by
  have hmin : Int64.minValue.toInt = -2 ^ 63 := by decide
  have hmax : Int64.maxValue.toInt = 2 ^ 63 - 1 := by decide
  constructor
  · intro h
    obtain ⟨⟨hl, hu⟩, heq⟩ := Option.ite_none_right_eq_some.mp h
    cases heq
    rw [hmin] at hl
    rw [hmax] at hu
    exact (Int64.toInt_ofInt_of_le hl (by omega)).symm
  · rintro rfl
    have hl := w.le_toInt
    have hu := w.toInt_le
    have hrange : Int64.minValue.toInt ≤ w.toInt ∧ w.toInt ≤ Int64.maxValue.toInt := by
      rw [hmin, hmax]
      omega
    exact (if_pos hrange).trans (congrArg some w.ofInt_toInt)

/-- integers and doubles are told apart by their form, so nothing else is read as the same scalar -/
theorem ofJson?_eq_some_iff {s : Scalar} (hs : s.Finite) {v : Json} :
    ofJson? v = some s ↔ v = s.toJson := by
  constructor
  · intro h
    match v with
    | .bool b => cases h; rfl
    | .string t => cases h; rfl
    | .number (.float x) =>
      cases h
      exact (toJson_float (hs x rfl)).symm
    | .number (.integer i) =>
      obtain ⟨w, hw, rfl⟩ := Option.map_eq_some_iff.mp h
      rw [int64?_eq_some_iff.mp hw]
      rfl
  · rintro rfl
    cases s with
    | integer w => exact Option.map_eq_some_iff.mpr ⟨w, int64?_eq_some_iff.mpr rfl, rfl⟩
    | float x =>
      rw [toJson_float (hs x rfl)]
      rfl
    | string t => rfl
    | boolean b => rfl

theorem readable_toJson {n : Nat} (s : Scalar) : s.toJson.Readable n := by
  cases s with
  | integer i =>
    have hmax : Int64.maxValue.toInt < UInt64.size := by decide
    exact .number ⟨i.minValue_le_toInt, Int.lt_of_le_of_lt i.toInt_le hmax⟩
  | float x =>
    show Json.Readable n (if x.isFinite then .number (.float x) else .null)
    split
    · next hx => exact .number hx
    · exact .null
  | string t => exact .string t
  | boolean b => exact .bool b

end Scalar

theorem ArgType.finite_of_accepts {t : ArgType} {s : Scalar} (h : t.accepts s = true) :
    s.Finite := by
  rintro x rfl
  cases t with
  | number => exact h
  | _ => cases h

theorem Json.index?_eq_some_iff {v : Json} {a : Nat} :
    v.index? = some a ↔ v = ofNat a ∧ a < UInt64.size := by
  constructor
  · intro h
    match v with
    | .number (.integer i) =>
      obtain ⟨⟨hi, hlt⟩, heq⟩ := Option.ite_none_right_eq_some.mp h
      obtain rfl := Option.some.inj heq
      refine ⟨?_, hlt⟩
      show Json.number (.integer i) = .number (.integer (i.toNat : Int))
      rw [Int.toNat_of_nonneg hi]
  · rintro ⟨rfl, hlt⟩
    exact if_pos ⟨Int.natCast_nonneg a, hlt⟩

theorem Json.members?_eq_some_iff {v : Json} {members : Entries Json} :
    v.members? = some members ↔ v = .object members := by
  cases v <;> simp [members?]

theorem Json.string?_eq_some_iff {v : Json} {s : String} : v.string? = some s ↔ v = .string s := by
  cases v <;> simp [string?]

theorem Json.items?_eq_some_iff {v : Json} {items : List Json} :
    v.items? = some items ↔ v = .array items := by
  cases v <;> simp [items?]

theorem Json.readable_ofNat {n a : Nat} (ha : a < UInt64.size) : (ofNat a).Readable n := by
  refine .number ⟨?_, Int.ofNat_lt.mpr ha⟩
  have hmin : Int64.minValue.toInt ≤ 0 := by decide
  exact Int.le_trans hmin (Int.natCast_nonneg a)

/-! ## arguments -/

namespace Arg

def Finite (v : Arg Address) : Prop := ∀ s, v = .scalar s → s.Finite

/-- an address where a node is declared, a scalar elsewhere -/
def Declared (spec : ArgSpec) : Arg Address → Prop
  | scalar _ => spec.type.isNode = false
  | nested _ => spec.type.isNode = true

/-- an address is a word -/
def Fits : Arg Address → Prop
  | scalar _ => True
  | nested a => a < UInt64.size

theorem readable_toJson {n : Nat} {v : Arg Address} (hv : v.Fits) : v.toJson.Readable n := by
  cases v with
  | scalar s => exact s.readable_toJson
  | nested a => exact Json.readable_ofNat hv

end Arg

namespace Cell

/-- what a value is read as where a type is declared -/
def argOf? (spec : ArgSpec) (v : Json) : Option (Arg Address) :=
  if spec.type.isNode then v.index?.map .nested else (Scalar.ofJson? v).map .scalar

theorem argOf?_eq_some_iff {spec : ArgSpec} {v : Json} {value : Arg Address}
    (hvalue : value.Finite) :
    argOf? spec v = some value ↔ value.Declared spec ∧ value.Fits ∧ v = value.toJson := by
  unfold argOf?
  cases hnode : spec.type.isNode with
  | true =>
    rw [if_pos rfl, Option.map_eq_some_iff]
    constructor
    · rintro ⟨a, ha, rfl⟩
      obtain ⟨rfl, hlt⟩ := Json.index?_eq_some_iff.mp ha
      exact ⟨hnode, hlt, rfl⟩
    · rintro ⟨hd, hf, rfl⟩
      cases value with
      | scalar s => exact absurd (hnode.symm.trans hd) nofun
      | nested a => exact ⟨a, Json.index?_eq_some_iff.mpr ⟨rfl, hf⟩, rfl⟩
  | false =>
    rw [if_neg nofun, Option.map_eq_some_iff]
    constructor
    · rintro ⟨s, hs, rfl⟩
      exact ⟨hnode, trivial, (Scalar.ofJson?_eq_some_iff (hvalue s rfl)).mp hs⟩
    · rintro ⟨hd, _, rfl⟩
      cases value with
      | scalar s => exact ⟨s, (Scalar.ofJson?_eq_some_iff (hvalue s rfl)).mpr rfl, rfl⟩
      | nested a => exact absurd (hnode.symm.trans hd) nofun

theorem readArg_of_arg? {shape : KindShape} {name : String} {v : Json} {spec : ArgSpec}
    {value : Arg Address} (hspec : shape.arg? name = some spec) :
    readArg shape name v = .ok value ↔ argOf? spec v = some value := by
  cases h : argOf? spec v with
  | none =>
    unfold argOf? at h
    simp only [readArg, hspec, h, reduceCtorEq]
  | some u =>
    unfold argOf? at h
    simp only [readArg, hspec, h, Except.ok.injEq, Option.some.injEq]

/-- an argument is read as what its declaration says, from its own JSON form -/
theorem readArg_eq_ok {shape : KindShape} {name : String} {v : Json} {value : Arg Address}
    (hvalue : value.Finite) : readArg shape name v = .ok value ↔
      ∃ spec, shape.arg? name = some spec ∧ value.Declared spec ∧ value.Fits ∧
        v = value.toJson := by
  cases hspec : shape.arg? name with
  | none =>
    rw [readArg, hspec]
    exact ⟨nofun, fun ⟨_, h, _⟩ => absurd h nofun⟩
  | some spec =>
    rw [readArg_of_arg? hspec, argOf?_eq_some_iff hvalue]
    constructor
    · intro h
      exact ⟨spec, rfl, h⟩
    · rintro ⟨spec', heq, h⟩
      obtain rfl := Option.some.inj heq
      exact h

theorem readArgs_eq_ok {shape : KindShape} {members : Entries Json}
    {values : Entries (Arg Address)} : readArgs shape members = .ok values ↔
      List.Forall₂ (fun m e => e.1 = m.1 ∧ readArg shape m.1 m.2 = .ok e.2) members values := by
  induction members generalizing values with
  | nil =>
    rw [readArgs, List.forall₂_nil_left_iff]
    exact ⟨fun h => by cases h; rfl, fun h => by rw [h]⟩
  | cons m members ih =>
    obtain ⟨name, v⟩ := m
    rw [readArgs, bind_eq_ok, List.forall₂_cons_left_iff]
    constructor
    · intro ⟨value, hvalue, h⟩
      obtain ⟨values', hvalues, h⟩ := bind_eq_ok.mp h
      cases h
      exact ⟨(name, value), values', ⟨rfl, hvalue⟩, ih.mp hvalues, rfl⟩
    · rintro ⟨⟨name', value⟩, values', ⟨rfl, hvalue⟩, hvalues, rfl⟩
      exact ⟨value, hvalue, bind_eq_ok.mpr ⟨values', ih.mpr hvalues, rfl⟩⟩

/-- arguments are read in the order of the members, each from its own JSON form -/
theorem readArgs_eq_ok_iff {shape : KindShape} {members : Entries Json}
    {values : Entries (Arg Address)} (hfin : ∀ e ∈ values, e.2.Finite) :
    readArgs shape members = .ok values ↔
      (∀ e ∈ values, e.2.Fits ∧ ∃ spec, shape.arg? e.1 = some spec ∧ e.2.Declared spec) ∧
        members = values.map fun e => (e.1, e.2.toJson) := by
  rw [readArgs_eq_ok]
  induction values generalizing members with
  | nil =>
    rw [List.forall₂_nil_right_iff]
    exact ⟨fun h => ⟨fun e he => absurd he List.not_mem_nil, h⟩, fun h => h.2⟩
  | cons e values ih =>
    obtain ⟨hefin, hfin⟩ := List.forall_mem_cons.mp hfin
    rw [List.forall₂_cons_right_iff, List.forall_mem_cons, List.map_cons]
    constructor
    · rintro ⟨⟨name, v⟩, members', ⟨rfl, hread⟩, hrest, rfl⟩
      obtain ⟨spec, hspec, hd, hf, rfl⟩ := (readArg_eq_ok hefin).mp hread
      obtain ⟨hall, rfl⟩ := (ih hfin).mp hrest
      exact ⟨⟨⟨hf, spec, hspec, hd⟩, hall⟩, rfl⟩
    · rintro ⟨⟨⟨hf, spec, hspec, hd⟩, hall⟩, rfl⟩
      have hread : readArg shape e.1 e.2.toJson = .ok e.2 :=
        (readArg_eq_ok hefin).mpr ⟨spec, hspec, hd, hf, rfl⟩
      exact ⟨_, _, ⟨rfl, hread⟩, (ih hfin).mpr ⟨hall, rfl⟩, rfl⟩

/-! ## what the reading of a record asks for -/

theorem readKind_eq_ok {v : Json} {name : String} : readKind v = .ok name ↔ ∃ members,
    v = .object members ∧ (∀ e ∈ members, e.1 ∈ keys) ∧
      Entries.find? "kind" members = some (.string name) := by
  unfold readKind
  constructor
  · intro h
    split at h
    · cases h
    · next members hmembers =>
      obtain rfl := Json.members?_eq_some_iff.mp hmembers
      split at h
      · cases h
      · next hnone =>
        split at h
        · cases h
        · next name' hname =>
          cases h
          obtain ⟨w, hw, hstring⟩ := Option.bind_eq_some_iff.mp hname
          obtain rfl := Json.string?_eq_some_iff.mp hstring
          exact ⟨members, rfl, Entries.find?_foreign_eq_none_iff.mp hnone, hw⟩
  · rintro ⟨members, rfl, hall, hfind⟩
    simp only [Json.members?, Json.member?, Entries.find?_foreign_eq_none_iff.mpr hall, hfind,
      Option.bind_some, Json.string?]

theorem readLink_eq_ok {members : Entries Json} {field : LinkField} {a : Address} :
    readLink (.object members) field = .ok a ↔
      Entries.find? field.name members = some (Json.ofNat a) ∧ a < UInt64.size := by
  unfold readLink
  constructor
  · intro h
    split at h
    · next b hb =>
      cases h
      obtain ⟨w, hw, hindex⟩ := Option.bind_eq_some_iff.mp hb
      obtain ⟨rfl, hlt⟩ := Json.index?_eq_some_iff.mp hindex
      exact ⟨hw, hlt⟩
    · cases h
  · rintro ⟨hfind, hlt⟩
    simp only [Json.member?, hfind, Option.bind_some, Json.index?_eq_some_iff.mpr ⟨rfl, hlt⟩]

theorem member_members_eq_some_iff {members args : Entries Json} {key : String} :
    ((Json.object members).member? key).bind Json.members? = some args ↔
      Entries.find? key members = some (.object args) := by
  rw [Option.bind_eq_some_iff]
  constructor
  · rintro ⟨w, hw, hobject⟩
    rw [← Json.members?_eq_some_iff.mp hobject]
    exact hw
  · exact fun hfind => ⟨_, hfind, rfl⟩

/-- the shape, the arguments and the links of a record, told by look-ups -/
theorem ofJson_eq_ok {corpus : Corpus} {v : Json} {c : Cell} :
    Cell.ofJson corpus v = .ok c ↔ ∃ members shape args values, v = .object members ∧
      (∀ e ∈ members, e.1 ∈ keys) ∧
      Entries.find? "kind" members = some (.string c.kind.name) ∧
      corpus.shape? c.kind = some shape ∧
      Entries.find? "args" members = some (.object args) ∧
      readArgs shape args = .ok values ∧ c.args.entries = Entries.ofList values ∧
      ∀ field : LinkField, Entries.find? field.name members = some (Json.ofNat (c.link field)) ∧
        c.link field < UInt64.size := by
  unfold Cell.ofJson
  rw [bind_eq_ok]
  constructor
  · intro ⟨name, hname, h⟩
    obtain ⟨members, rfl, hkeys, hkind⟩ := readKind_eq_ok.mp hname
    obtain ⟨shape, hshape, h⟩ := bind_eq_ok.mp h
    obtain ⟨args, hargs, h⟩ := bind_eq_ok.mp h
    obtain ⟨values, hvalues, h⟩ := bind_eq_ok.mp h
    obtain ⟨parent, hparent, h⟩ := bind_eq_ok.mp h
    obtain ⟨next, hnext, h⟩ := bind_eq_ok.mp h
    obtain ⟨body, hbody, h⟩ := bind_eq_ok.mp h
    cases h
    rw [readLink_eq_ok] at hparent hnext hbody
    have hnamed : corpus.shapeOf? name = some shape := by
      split at hshape
      · next heq => cases hshape; exact heq
      · cases hshape
    have ha : Entries.find? "args" members = some (.object args) := by
      split at hargs
      · next heq => cases hargs; exact member_members_eq_some_iff.mp heq
      · cases hargs
    obtain ⟨hs, rfl⟩ := Corpus.shapeOf?_eq_some_iff.mp hnamed
    refine ⟨members, shape, args, values, rfl, hkeys, hkind, hs, ha, hvalues, rfl, fun field => ?_⟩
    cases field with
    | parent => exact hparent
    | next => exact hnext
    | body => exact hbody
  · rintro ⟨members, shape, args, values, rfl, hkeys, hkind, hs, ha, hvalues, hentries, hlinks⟩
    refine ⟨c.kind.name, readKind_eq_ok.mpr ⟨members, rfl, hkeys, hkind⟩, ?_⟩
    simp only [Corpus.shapeOf?_name hs, member_members_eq_some_iff.mpr ha]
    refine bind_eq_ok.mpr ⟨shape, rfl, ?_⟩
    refine bind_eq_ok.mpr ⟨args, rfl, ?_⟩
    refine bind_eq_ok.mpr ⟨values, hvalues, ?_⟩
    refine bind_eq_ok.mpr ⟨c.parent, readLink_eq_ok.mpr (hlinks .parent), ?_⟩
    refine bind_eq_ok.mpr ⟨c.next, readLink_eq_ok.mpr (hlinks .next), ?_⟩
    refine bind_eq_ok.mpr ⟨c.body, readLink_eq_ok.mpr (hlinks .body), ?_⟩
    obtain ⟨kind, parent, next, body, entries, sorted⟩ := c
    obtain rfl : entries = Entries.ofList values := hentries
    rw [Corpus.kind_of_shape? hs]
    rfl

/-! ## one record for each cell -/

/-- the arguments are declared, and no double among them is an infinity or a NaN -/
def Typed (corpus : Corpus) (c : Cell) : Prop := ∃ shape, corpus.shape? c.kind = some shape ∧
  ∀ e ∈ c.args.entries, e.2.Finite ∧ ∃ spec, shape.arg? e.1 = some spec ∧ e.2.Declared spec

/-- the addresses are words -/
structure Fits (c : Cell) : Prop where
  links : ∀ field, c.link field < UInt64.size
  args : ∀ e ∈ c.args.entries, e.2.Fits

/-- the members of a record in order -/
def members (c : Cell) : Entries Json := [
  ("args", .object (c.args.entries.map fun e => (e.1, e.2.toJson))),
  ("body", Json.ofNat c.body),
  ("kind", .string c.kind.name),
  ("next", Json.ofNat c.next),
  ("parent", Json.ofNat c.parent)]

theorem toJson_eq (c : Cell) : c.toJson = .object c.members := rfl

theorem sorted_members (c : Cell) : c.members.Sorted := by
  have hnames : ["args", "body", "kind", "next", "parent"].Pairwise (· < ·) := by decide
  have hmap : c.members.map Prod.fst = ["args", "body", "kind", "next", "parent"] := rfl
  rw [← hmap, List.pairwise_map] at hnames
  exact hnames

/-- sorted members with the keys of a record are told by what is found under these keys -/
theorem members_ext {c : Cell} {members : Entries Json} (hs : members.Sorted)
    (hkeys : ∀ e ∈ members, e.1 ∈ keys)
    (h : ∀ key ∈ keys, Entries.find? key members = Entries.find? key c.members) :
    members = c.members :=
  Entries.ext_find?_of_names hs c.sorted_members hkeys (by simp [Cell.members, keys]) h

/-- what is read has the names of the members, in their order -/
theorem names_of_readArgs {shape : KindShape} {members : Entries Json}
    {values : Entries (Arg Address)} (h : readArgs shape members = .ok values) :
    values.map Prod.fst = members.map Prod.fst := by
  have hnames : List.Forall₂ (· = ·) (members.map Prod.fst) (values.map Prod.fst) := by
    rw [List.forall₂_map_left_iff, List.forall₂_map_right_iff]
    exact (readArgs_eq_ok.mp h).imp fun _ _ he => he.1.symm
  rw [List.forall₂_eq_eq_eq] at hnames
  exact hnames.symm

/-- **A cell is read from its own record only**: the record names a registered kind, the declared
arguments and words as links, and has no other keys -/
theorem ofJson_eq_ok_iff {corpus : Corpus} {v : Json} {c : Cell} (hv : v.Ordered)
    (hfin : ∀ e ∈ c.args.entries, e.2.Finite) :
    Cell.ofJson corpus v = .ok c ↔ c.Typed corpus ∧ c.Fits ∧ v = c.toJson := by
  rw [ofJson_eq_ok]
  constructor
  · rintro ⟨members, shape, args, values, rfl, hkeys, hkind, hs, hargs, hvalues, hentries, hlinks⟩
    cases hv with
    | object hsorted hordered =>
      have hargsSorted : Entries.Sorted args := by
        cases hordered _ (Entries.mem_of_find? hargs) with
        | object h _ => exact h
      have hvaluesSorted : Entries.Sorted values :=
        (Entries.sorted_congr (names_of_readArgs hvalues)).mpr hargsSorted
      rw [Entries.ofList_of_sorted hvaluesSorted] at hentries
      rw [← hentries] at hvalues
      obtain ⟨hall, rfl⟩ := (readArgs_eq_ok_iff hfin).mp hvalues
      refine ⟨⟨shape, hs, fun e he => ⟨hfin e he, (hall e he).2⟩⟩,
        ⟨fun field => (hlinks field).2, fun e he => (hall e he).1⟩, ?_⟩
      rw [toJson_eq, members_ext hsorted hkeys]
      intro key hkey
      simp only [keys, List.mem_cons, List.not_mem_nil, or_false] at hkey
      rcases hkey with rfl | rfl | rfl | rfl | rfl
      · exact hargs
      · exact (hlinks .body).1
      · exact hkind
      · exact (hlinks .next).1
      · exact (hlinks .parent).1
  · rintro ⟨⟨shape, hs, htyped⟩, ⟨hlinks, hfits⟩, rfl⟩
    have hargs : readArgs shape (c.args.entries.map fun e => (e.1, e.2.toJson)) =
        .ok c.args.entries :=
      (readArgs_eq_ok_iff hfin).mpr ⟨fun e he => ⟨hfits e he, (htyped e he).2⟩, rfl⟩
    refine ⟨c.members, shape, _, c.args.entries, rfl, by simp [Cell.members, keys], rfl, hs, rfl,
      hargs, (Entries.ofList_of_sorted c.args.sorted).symm, fun field => ⟨?_, hlinks field⟩⟩
    cases field <;> rfl

theorem Typed.finite {corpus : Corpus} {c : Cell} (hc : c.Typed corpus) :
    ∀ e ∈ c.args.entries, e.2.Finite := by
  obtain ⟨_, _, h⟩ := hc
  exact fun e he => (h e he).1

/-- a record is two objects deep -/
theorem readable_toJson {c : Cell} (hc : c.Fits) {n : Nat} : c.toJson.Readable (n + 2) := by
  refine .object c.sorted_members ?_
  have hargs : Json.Readable (n + 1) (.object (c.args.entries.map fun e => (e.1, e.2.toJson))) := by
    refine .object ((Entries.sorted_map _).mpr c.args.sorted) fun e he => ?_
    obtain ⟨arg, harg, rfl⟩ := List.mem_map.mp he
    exact Arg.readable_toJson (hc.args arg harg)
  simp only [List.forall_mem_cons]
  exact ⟨hargs, Json.readable_ofNat (hc.links .body), .string _,
    Json.readable_ofNat (hc.links .next), Json.readable_ofNat (hc.links .parent), nofun⟩

end Cell

/-! ## records of a heap -/

namespace Heap

theorem readCells_eq_ok {corpus : Corpus} {a : Address} {records : List Json}
    {cells : List Cell} : readCells corpus a records = .ok cells ↔
      List.Forall₂ (fun v c => Cell.ofJson corpus v = .ok c) records cells := by
  induction records generalizing a cells with
  | nil =>
    rw [readCells, List.forall₂_nil_left_iff]
    exact ⟨fun h => by cases h; rfl, fun h => by rw [h]⟩
  | cons v records ih =>
    rw [readCells, bind_eq_ok, List.forall₂_cons_left_iff]
    constructor
    · intro ⟨c, hc, h⟩
      obtain ⟨cs, hcs, h⟩ := bind_eq_ok.mp h
      cases h
      exact ⟨c, cs, (mapError_eq_ok _).mp hc, ih.mp hcs, rfl⟩
    · rintro ⟨c, cs, hc, hcs, rfl⟩
      exact ⟨c, (mapError_eq_ok _).mpr hc, bind_eq_ok.mpr ⟨cs, ih.mpr hcs, rfl⟩⟩

/-- typed cells are read from their own records only -/
theorem forall₂_ofJson_iff {corpus : Corpus} {records : List Json} {cells : List Cell}
    (hv : ∀ v ∈ records, v.Ordered) (htyped : ∀ c ∈ cells, c.Typed corpus) :
    List.Forall₂ (fun v c => Cell.ofJson corpus v = .ok c) records cells ↔
      (∀ c ∈ cells, c.Fits) ∧ records = cells.map Cell.toJson := by
  induction cells generalizing records with
  | nil =>
    rw [List.forall₂_nil_right_iff]
    exact ⟨fun h => ⟨fun c hc => absurd hc List.not_mem_nil, h⟩, fun h => h.2⟩
  | cons c cells ih =>
    obtain ⟨hc, htyped⟩ := List.forall_mem_cons.mp htyped
    rw [List.forall₂_cons_right_iff, List.forall_mem_cons, List.map_cons]
    constructor
    · rintro ⟨v, records, hread, hrest, rfl⟩
      obtain ⟨hv, hrecords⟩ := List.forall_mem_cons.mp hv
      obtain ⟨_, hfits, rfl⟩ := (Cell.ofJson_eq_ok_iff hv hc.finite).mp hread
      obtain ⟨hall, rfl⟩ := (ih hrecords htyped).mp hrest
      exact ⟨⟨hfits, hall⟩, rfl⟩
    · rintro ⟨⟨hfits, hall⟩, rfl⟩
      obtain ⟨hv, hrecords⟩ := List.forall_mem_cons.mp hv
      have hread := (Cell.ofJson_eq_ok_iff hv hc.finite).mpr ⟨hc, hfits, rfl⟩
      exact ⟨_, _, hread, (ih hrecords htyped).mpr ⟨hall, rfl⟩, rfl⟩

/-- the records are cells, and the cells pass the check -/
theorem ofJson_eq_ok {corpus : Corpus} {v : Json} {h : Heap} :
    Heap.ofJson corpus v = .ok h ↔ h.check corpus = .ok () ∧ ∃ records, v = .array records ∧
      List.Forall₂ (fun v c => Cell.ofJson corpus v = .ok c) records h.cells.toList := by
  unfold Heap.ofJson
  constructor
  · intro hok
    split at hok
    · cases hok
    · next records hrecords =>
      obtain ⟨cells, hcells, hok⟩ := bind_eq_ok.mp hok
      obtain ⟨_, hcheck, hok⟩ := bind_eq_ok.mp hok
      cases hok
      refine ⟨(mapError_eq_ok _).mp hcheck, records, Json.items?_eq_some_iff.mp hrecords, ?_⟩
      exact readCells_eq_ok.mp ((mapError_eq_ok _).mp hcells)
  · rintro ⟨hcheck, records, rfl, hcells⟩
    have hread := readCells_eq_ok (a := .nothing).mpr hcells
    refine bind_eq_ok.mpr ⟨h.cells.toList, (mapError_eq_ok _).mpr hread, ?_⟩
    exact bind_eq_ok.mpr ⟨(), (mapError_eq_ok _).mpr hcheck, rfl⟩

end Heap

end ScriptHeap
