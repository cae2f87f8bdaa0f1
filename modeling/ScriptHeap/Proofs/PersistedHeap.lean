import ScriptHeap.Corpus.BuiltIn
import ScriptHeap.Proofs.JsonText
import ScriptHeap.Proofs.Records
import ScriptHeap.Proofs.WellFormed
import ScriptHeap.Sample
/-!
# Persisted heaps

* `Heap.Typed`         every cell has a registered kind and declared arguments;
* `Heap.Fits`          every address that a cell holds is a word;
* `Heap.WellFormed.typed`, `Heap.fits_of_check`   both hold of a heap that passes the check, the
                       second if the size of the heap is a word;
* `Heap.ofJson_eq_ok_iff`   a heap is read from its own JSON form, and from no other value;
* `Heap.toJson_of_ofJson`   so reading drops nothing, fills nothing in and converts nothing;
* `Heap.ofJson_toJson`, `Heap.ofBytes_canonicalBytes`   what was written is read as the check says, the
                       bytes by a library that reads doubles back;
* `Heap.read_of_check` so a heap that passes the check is read as itself.
-/

namespace ScriptHeap

namespace Heap

/-! ## typed heaps -/

def Typed (h : Heap) (corpus : Corpus) : Prop := ∀ c ∈ h.cells.toList, c.Typed corpus

/-- the addresses in the cells are words -/
def Fits (h : Heap) : Prop := ∀ c ∈ h.cells.toList, c.Fits

section
variable {h : Heap} {corpus : Corpus} {shape : KindShape} {c : Cell}

theorem mem_cells_iff : c ∈ h.cells.toList ↔ ∃ a : Address, h.cells[a]? = some c := by
  rw [List.mem_iff_getElem?]
  simp only [Array.getElem?_toList]

/-- an argument of a sound cell is what its declaration says -/
theorem CellSound.arg (hs : h.CellSound shape c) {name : String} {v : Arg Address}
    (hv : c.arg? name = some v) :
    ∃ spec, shape.arg? name = some spec ∧ h.ArgLinked spec v := by
  have hdeclared : (shape.arg? name).isSome := (hs.names name).mp (by rw [hv]; rfl)
  obtain ⟨spec, hspec⟩ := Option.isSome_iff_exists.mp hdeclared
  obtain ⟨hmem, rfl⟩ := KindShape.mem_args_of_arg? hspec
  exact ⟨spec, hspec, hs.linked.args spec hmem v hv⟩

theorem CellSound.entry (hs : h.CellSound shape c) {e : String × Arg Address}
    (he : e ∈ c.args.entries) : ∃ spec, shape.arg? e.1 = some spec ∧ h.ArgLinked spec e.2 :=
  hs.arg (Entries.find?_of_mem c.args.sorted he)

theorem ArgLinked.declared {spec : ArgSpec} {v : Arg Address} (hv : h.ArgLinked spec v) :
    v.Declared spec := by
  cases v with
  | nested b => exact hv.1
  | scalar s =>
    have hacc : spec.type.accepts s = true := hv
    show spec.type.isNode = false
    cases ht : spec.type with
    | node kinds =>
      rw [ht, ArgType.accepts_node] at hacc
      cases hacc
    | _ => rfl

/-- no type admits an infinity or a NaN -/
theorem ArgLinked.finite {spec : ArgSpec} {v : Arg Address} (hv : h.ArgLinked spec v) :
    v.Finite := by
  rintro s rfl
  exact ArgType.finite_of_accepts hv

theorem CellSound.typed (hshape : corpus.shape? c.kind = some shape) (hs : h.CellSound shape c) :
    c.Typed corpus := by
  refine ⟨shape, hshape, fun e he => ?_⟩
  obtain ⟨spec, hspec, hv⟩ := hs.entry he
  exact ⟨hv.finite, spec, hspec, hv.declared⟩

theorem CellSound.fits (hs : h.CellSound shape c) (hsize : h.size ≤ UInt64.size) : c.Fits where
  links field := by
    refine Nat.lt_of_lt_of_le ?_ hsize
    cases field with
    | parent => exact hs.parent
    | next => exact hs.next
    | body => exact hs.body
  args e he := by
    obtain ⟨name, v⟩ := e
    obtain ⟨spec, _, hv⟩ := hs.entry he
    cases v with
    | scalar s => exact trivial
    | nested b => exact Nat.lt_of_lt_of_le hv.2.2 hsize

theorem typed_sentinel : Cell.sentinel.Typed corpus := by
  obtain ⟨shape, hshape⟩ := Corpus.exists_shape? corpus.consistent.nothing_mem
  exact ⟨shape, hshape, fun e he => absurd he List.not_mem_nil⟩

theorem fits_sentinel : Cell.sentinel.Fits where
  links field := by cases field <;> decide
  args e he := absurd he List.not_mem_nil

/-- what holds of the sentinel and of sound cells holds of the cells of a well-formed heap -/
theorem WellFormed.forall_cells {P : Cell → Prop} (hw : h.WellFormed corpus)
    (hsentinel : P .sentinel) (hsound : ∀ c shape, corpus.shape? c.kind = some shape →
      h.CellSound shape c → P c) : ∀ c ∈ h.cells.toList, P c := by
  intro c hc
  obtain ⟨a, ha⟩ := mem_cells_iff.mp hc
  by_cases hne : a = .nothing
  · subst hne
    obtain rfl := Option.some.inj (hw.sentinel.symm.trans ha)
    exact hsentinel
  · obtain ⟨shape, hshape, hs⟩ := hw.cells a c hne ha
    exact hsound c shape hshape hs

theorem WellFormed.typed (hw : h.WellFormed corpus) : h.Typed corpus :=
  hw.forall_cells typed_sentinel fun _ _ hshape hs => hs.typed hshape

/-- addresses below the size of the heap are words, if the size is -/
theorem fits_of_check (hok : h.check corpus = .ok ()) (hsize : h.size ≤ UInt64.size) : h.Fits :=
  (wellFormed_of_check hok).forall_cells fits_sentinel fun _ _ _ hs => hs.fits hsize

/-- the JSON form is an array of records -/
theorem readable_toJson (hf : h.Fits) {n : Nat} : h.toJson.Readable (n + 3) := by
  refine .array fun v hv => ?_
  obtain ⟨c, hc, rfl⟩ := List.mem_map.mp hv
  exact Cell.readable_toJson (hf c hc)

end

/-! ## one JSON form for each heap -/

section
variable {h : Heap} {corpus : Corpus} {v : Json}

/-- **A heap is read from its own JSON form only**, and if it passes the check -/
theorem ofJson_eq_ok_iff (hv : v.Ordered) :
    Heap.ofJson corpus v = .ok h ↔ h.check corpus = .ok () ∧ h.Fits ∧ v = h.toJson := by
  rw [ofJson_eq_ok]
  refine and_congr_right fun hcheck => ?_
  have htyped := (wellFormed_of_check hcheck).typed
  constructor
  · rintro ⟨records, rfl, hall⟩
    cases hv with
    | array hv =>
      obtain ⟨hfits, rfl⟩ := (forall₂_ofJson_iff hv htyped).mp hall
      exact ⟨hfits, rfl⟩
  · rintro ⟨hfits, rfl⟩
    cases hv with
    | array hv => exact ⟨_, rfl, (forall₂_ofJson_iff hv htyped).mpr ⟨hfits, rfl⟩⟩

/-- **Reading is exact**: a value that is read as a heap is the JSON form of the heap, and no other
value is read as the same cells -/
theorem toJson_of_ofJson (hv : v.Ordered) (hok : Heap.ofJson corpus v = .ok h) :
    h.toJson = v ∧ ∀ w : Json, w.Ordered → Heap.ofJson corpus w = .ok h → w = v := by
  obtain ⟨_, _, rfl⟩ := (ofJson_eq_ok_iff hv).mp hok
  refine ⟨rfl, fun w hw hok' => ?_⟩
  obtain ⟨_, _, heq⟩ := (ofJson_eq_ok_iff hw).mp hok'
  exact heq

end

end Heap

namespace Sample

/-- a variable whose value is a place with an integer, a negative zero and a fraction -/
def declaration : Heap where
  cells := #[.sentinel,
    ⟨.variableDeclaration, .nothing, .nothing, 2,
      ⟨[("data_value", .nested 2), ("label", .scalar (.string "a \"b\"\n"))], by decide⟩⟩,
    ⟨.coordinate, .root, .nothing, .nothing, ⟨[("x", .scalar (.integer (-1))),
      ("y", .scalar (.float ⟨0x8000000000000000⟩)), ("z", .scalar (.float half))], by decide⟩⟩]

/-- its records -/
def records : Json := .array [
  .object [("args", .object []), ("body", .ofNat 0), ("kind", .string "nothing"),
    ("next", .ofNat 0), ("parent", .ofNat 0)],
  .object [("args", .object [("data_value", .ofNat 2), ("label", .string "a \"b\"\n")]),
    ("body", .ofNat 2), ("kind", .string "variable_declaration"), ("next", .ofNat 0),
    ("parent", .ofNat 0)],
  .object [("args", .object [("x", .number (.integer (-1))),
      ("y", .number (.float ⟨0x8000000000000000⟩)), ("z", .number (.float half))]),
    ("body", .ofNat 0), ("kind", .string "coordinate"), ("next", .ofNat 0), ("parent", .ofNat 1)]]

theorem declaration_has_one_form : Sample.declaration.toJson = records ∧ ∀ w : Json, w.Ordered →
    Heap.ofJson Corpus.builtIn w = .ok Sample.declaration → w = records := by
  have hok : Sample.declaration.check Corpus.builtIn = .ok () := by decide +kernel
  have hfits : Sample.declaration.Fits := Heap.fits_of_check hok (by decide)
  have hv : records.Ordered := (Heap.readable_toJson (n := 0) hfits).ordered
  exact Heap.toJson_of_ofJson hv ((Heap.ofJson_eq_ok_iff hv).mpr ⟨hok, hfits, rfl⟩)

end Sample

namespace Heap

/-! ## reading what was written -/

section
variable {h : Heap} {corpus : Corpus} {lib : JsonLibrary}

/-- what was written is read as far as the check -/
theorem ofJson_toJson (ht : h.Typed corpus) (hf : h.Fits) :
    Heap.ofJson corpus h.toJson = ((h.check corpus).mapError .corrupt).map fun _ => h := by
  have hordered : ∀ v ∈ h.cells.toList.map Cell.toJson, v.Ordered := by
    cases (readable_toJson (n := 0) hf).ordered with
    | array h => exact h
  have hcells : readCells corpus .nothing (h.cells.toList.map Cell.toJson) = .ok h.cells.toList :=
    readCells_eq_ok.mpr ((forall₂_ofJson_iff hordered ht).mpr ⟨hf, rfl⟩)
  show (readCells corpus .nothing (h.cells.toList.map Cell.toJson)).mapError DecodeFault.corrupt
    >>= _ = _
  rw [hcells]
  show ((h.check corpus).mapError DecodeFault.corrupt >>= fun _ => .ok h) = _
  cases h.check corpus <;> rfl

/-- the canonical bytes say the same as the JSON form, whose records nest three deep -/
theorem ofBytes_canonicalBytes (hlib : lib.ReadsBack) (hlimit : 3 ≤ lib.nestingLimit)
    (hf : h.Fits) : Heap.ofBytes lib corpus h.canonicalBytes = Heap.ofJson corpus h.toJson := by
  obtain ⟨n, hn⟩ := Nat.exists_eq_add_of_le' hlimit
  have hreadable : h.toJson.Readable lib.nestingLimit := hn ▸ readable_toJson hf
  have hread : Json.ofBytes? lib h.canonicalBytes = some h.toJson :=
    Json.ofBytes?_canonicalBytes hlib hreadable
  rw [Heap.ofBytes, hread]

/-- **A heap that passes the check is read as itself**, from its JSON form, and from its canonical
bytes by a library that reads doubles back and lets the records be open; addresses are words -/
theorem read_of_check (hlib : lib.ReadsBack) (hlimit : 3 ≤ lib.nestingLimit)
    (hok : h.check corpus = .ok ()) (hf : h.Fits) :
    Heap.ofJson corpus h.toJson = .ok h ∧ Heap.ofBytes lib corpus h.canonicalBytes = .ok h := by
  have hread : Heap.ofJson corpus h.toJson = .ok h := by
    rw [ofJson_toJson (wellFormed_of_check hok).typed hf, hok]
    rfl
  exact ⟨hread, (ofBytes_canonicalBytes hlib hlimit hf).trans hread⟩

end

end Heap

theorem Sample.declaration_is_read :
    Heap.ofJson Corpus.builtIn Sample.declaration.toJson = .ok Sample.declaration ∧
      Heap.ofBytes .nearest Corpus.builtIn Sample.declaration.canonicalBytes = .ok Sample.declaration := by
  have hok : Sample.declaration.check Corpus.builtIn = .ok () := by decide +kernel
  exact Heap.read_of_check JsonLibrary.nearest_readsBack (by decide) hok
    (Heap.fits_of_check hok (by decide))

end ScriptHeap
