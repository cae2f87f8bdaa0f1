import ScriptHeap.Proofs.PersistedHeap
import ScriptHeap.Proofs.Pointers
/-!
# Canonical text and a library that rounds

What is read of canonical text when nothing is known of how the library rounds:

* `JsonLibrary.reread` the double that the text of a double is read as;
* `Json.mapFloats`, `Heap.mapFloats`   a value and a heap with other doubles;
* `Json.spell_mapFloats`   other doubles are other numbers among the tokens, nothing else changes;
* `Json.eq_of_ofBytes?`    so from the text of a value only the value is read, its doubles reread;
* `Heap.eq_of_ofBytes` from the text of a heap only the heap, if with these doubles it passes the
                       check;
* `Heap.pointer?_mapFloats`   its cells are linked as they were.
-/

namespace ScriptHeap

/-! ## doubles and numbers -/

/-- the double that the text of a finite double is read as, if it is read -/
def JsonLibrary.reread (lib : JsonLibrary) (x : Binary64) : Binary64 :=
  if x.isFinite then (lib.float? (Number.numeral (.float x))).getD x else x

theorem JsonLibrary.isFinite_reread (lib : JsonLibrary) (x : Binary64) :
    (lib.reread x).isFinite = x.isFinite := by
  unfold reread
  cases hx : x.isFinite with
  | false => exact hx
  | true =>
    cases hread : lib.float? (Number.numeral (.float x)) with
    | none => exact hx
    | some y => exact lib.isFinite_of_float? hread

def Number.mapFloat (f : Binary64 → Binary64) : Number → Number
  | integer i => integer i
  | float x => float (f x)

namespace Token

def mapFloat (f : Binary64 → Binary64) : Token → Token
  | number n => number (n.mapFloat f)
  | t => t

section
variable {lib : JsonLibrary}

/-- only doubles are read otherwise -/
theorem eq_of_reread {t u : Token} (hf : t.Fits) (h : t.reread lib = some u) :
    u = t.mapFloat lib.reread := by
  cases t with
  | number n =>
    obtain ⟨m, hm, rfl⟩ := Option.map_eq_some_iff.mp h
    cases n with
    | integer i =>
      rw [JsonLibrary.number?_integer hf.1 hf.2] at hm
      cases hm
      rfl
    | float x =>
      rw [JsonLibrary.number?_of_point (Number.writes_float x).point] at hm
      obtain ⟨y, hy, rfl⟩ := Option.map_eq_some_iff.mp hm
      have hx : x.isFinite = true := hf
      have hreread : lib.reread x = y := by rw [JsonLibrary.reread, if_pos hx, hy, Option.getD_some]
      rw [mapFloat, Number.mapFloat, hreread]
  | _ => exact (Option.some.inj h).symm

theorem eq_of_mapM_reread {ts us : List Token} (hts : ∀ t ∈ ts, t.Fits)
    (h : ts.mapM (reread lib) = some us) : us = ts.map (mapFloat lib.reread) := by
  induction ts generalizing us with
  | nil =>
    cases h
    rfl
  | cons t ts ih =>
    obtain ⟨ht, hts⟩ := List.forall_mem_cons.mp hts
    rw [List.mapM_cons] at h
    obtain ⟨v, hv, h⟩ := Option.bind_eq_some_iff.mp h
    obtain ⟨vs, hvs, h⟩ := Option.bind_eq_some_iff.mp h
    cases h
    rw [eq_of_reread ht hv, ih hts hvs, List.map_cons]

end

end Token

/-! ## values -/

namespace Json

mutual

/-- the value with other doubles -/
def mapFloats (f : Binary64 → Binary64) : Json → Json
  | null => null
  | bool b => bool b
  | number n => number (n.mapFloat f)
  | string s => string s
  | array items => array (mapFloatsItems f items)
  | object members => object (mapFloatsMembers f members)

/-- `mapFloats` on every item -/
def mapFloatsItems (f : Binary64 → Binary64) : List Json → List Json
  | [] => []
  | v :: rest => mapFloats f v :: mapFloatsItems f rest

/-- `mapFloats` on the value of every member -/
def mapFloatsMembers (f : Binary64 → Binary64) : List (String × Json) → List (String × Json)
  | [] => []
  | (key, v) :: rest => (key, mapFloats f v) :: mapFloatsMembers f rest

end

section
variable {f : Binary64 → Binary64}

theorem mapFloats_array (items : List Json) :
    (array items).mapFloats f = array (items.map (mapFloats f)) := by
  rw [mapFloats]
  congr 1
  induction items with
  | nil => rw [mapFloatsItems, List.map_nil]
  | cons v rest ih => rw [mapFloatsItems, ih, List.map_cons]

theorem mapFloats_object (members : Entries Json) :
    (object members).mapFloats f = object (members.map fun e => (e.1, e.2.mapFloats f)) := by
  rw [mapFloats]
  congr 1
  induction members with
  | nil => rw [mapFloatsMembers, List.map_nil]
  | cons e rest ih => rw [mapFloatsMembers, ih, List.map_cons]

theorem mapFloats_ofNat (a : Nat) : (ofNat a).mapFloats f = ofNat a := by
  rw [ofNat, mapFloats]
  rfl

mutual

/-- the tokens of a value with other doubles -/
theorem spell_mapFloats (f : Binary64 → Binary64) : (v : Json) → (rest : List Token) →
    (v.mapFloats f).spell (rest.map (Token.mapFloat f)) = (v.spell rest).map (Token.mapFloat f)
  | null, rest => by rw [mapFloats, spell, spell]; rfl
  | bool b, rest => by rw [mapFloats, spell, spell]; rfl
  | number n, rest => by rw [mapFloats, spell, spell]; rfl
  | string s, rest => by rw [mapFloats, spell, spell]; rfl
  | array [], rest => by rw [mapFloats, mapFloatsItems, spell, spell]; rfl
  | array (v :: items), rest => by
    rw [mapFloats, mapFloatsItems, spell, spellItems_mapFloats f items, spell_mapFloats f v, spell]
    rfl
  | object [], rest => by rw [mapFloats, mapFloatsMembers, spell, spell]; rfl
  | object ((key, v) :: members), rest => by
    rw [mapFloats, mapFloatsMembers, spell, spellMembers_mapFloats f members, spell_mapFloats f v,
      spell]
    rfl

theorem spellItems_mapFloats (f : Binary64 → Binary64) : (items : List Json) → (rest : List Token) →
    spellItems (mapFloatsItems f items) (rest.map (Token.mapFloat f)) =
      (spellItems items rest).map (Token.mapFloat f)
  | [], rest => by rw [mapFloatsItems, spellItems, spellItems]; rfl
  | v :: items, rest => by
    rw [mapFloatsItems, spellItems, spellItems_mapFloats f items, spell_mapFloats f v, spellItems]
    rfl

theorem spellMembers_mapFloats (f : Binary64 → Binary64) : (members : List (String × Json)) →
    (rest : List Token) → spellMembers (mapFloatsMembers f members) (rest.map (Token.mapFloat f)) =
      (spellMembers members rest).map (Token.mapFloat f)
  | [], rest => by rw [mapFloatsMembers, spellMembers, spellMembers]; rfl
  | (key, v) :: members, rest => by
    rw [mapFloatsMembers, spellMembers, spellMembers_mapFloats f members, spell_mapFloats f v,
      spellMembers]
    rfl

end

theorem readable_mapFloats {n : Nat} {v : Json} (hf : ∀ x, (f x).isFinite = x.isFinite)
    (hv : v.Readable n) : (v.mapFloats f).Readable n := by
  induction hv with
  | null => rw [mapFloats]; exact .null
  | bool b => rw [mapFloats]; exact .bool b
  | @number _ x h =>
    rw [mapFloats]
    cases x with
    | integer i => exact .number h
    | float x => exact .number ((hf x).trans h)
  | string s => rw [mapFloats]; exact .string s
  | array _ ih =>
    rw [mapFloats_array]
    exact .array (List.forall_mem_map.mpr ih)
  | object hs _ ih =>
    rw [mapFloats_object]
    exact .object ((Entries.sorted_map _).mpr hs) (List.forall_mem_map.mpr ih)

/-- **What is read from the text of a value** is the value, its doubles reread -/
theorem eq_of_ofBytes? {lib : JsonLibrary} {n : Nat} {v w : Json} (hv : v.Readable n)
    (h : ofBytes? lib v.canonicalBytes = some w) : w = v.mapFloats lib.reread := by
  rw [ofBytes?_canonicalBytes_eq_bind hv] at h
  obtain ⟨ts, hts, h⟩ := Option.bind_eq_some_iff.mp h
  have htokens : ts = (v.mapFloats lib.reread).tokens := by
    rw [Token.eq_of_mapM_reread (scannable_tokens hv).fits hts]
    exact (spell_mapFloats lib.reread v []).symm
  have hread : (v.mapFloats lib.reread).Readable n := readable_mapFloats lib.isFinite_reread hv
  rw [htokens] at h
  by_cases hdeep : (v.mapFloats lib.reread).Readable lib.nestingLimit
  · rw [ofTokens?_tokens hdeep] at h
    exact (Option.some.inj h).symm
  · rw [ofTokens?_tokens_eq_none hread hdeep] at h
    cases h

end

end Json

/-! ## heaps -/

def Scalar.mapFloat (f : Binary64 → Binary64) : Scalar → Scalar
  | float x => float (f x)
  | s => s

def Arg.mapFloat (f : Binary64 → Binary64) : Arg Address → Arg Address
  | scalar s => scalar (s.mapFloat f)
  | nested a => nested a

/-- the cell with other doubles -/
def Cell.mapFloats (f : Binary64 → Binary64) (c : Cell) : Cell :=
  { c with args := ⟨c.args.entries.map fun e => (e.1, e.2.mapFloat f),
      (Entries.sorted_map _).mpr c.args.sorted⟩ }

/-- the heap with other doubles -/
def Heap.mapFloats (f : Binary64 → Binary64) (h : Heap) : Heap := ⟨h.cells.map (Cell.mapFloats f)⟩

section
variable {f : Binary64 → Binary64} (hf : ∀ x, (f x).isFinite = x.isFinite)

section
include hf

theorem Scalar.toJson_mapFloat (s : Scalar) : (s.mapFloat f).toJson = s.toJson.mapFloats f := by
  cases s with
  | integer i => rw [toJson, Json.mapFloats]; rfl
  | string s => rw [toJson, Json.mapFloats]; rfl
  | boolean b => rw [toJson, Json.mapFloats]; rfl
  | float x =>
    show (if (f x).isFinite = true then _ else _)
      = Json.mapFloats f (if x.isFinite = true then _ else _)
    rw [hf]
    split
    · rw [Json.mapFloats]
      rfl
    · rw [Json.mapFloats]

theorem Arg.toJson_mapFloat (v : Arg Address) : (v.mapFloat f).toJson = v.toJson.mapFloats f := by
  cases v with
  | scalar s => exact s.toJson_mapFloat hf
  | nested a => exact (Json.mapFloats_ofNat a).symm

theorem Cell.toJson_mapFloats (c : Cell) : (c.mapFloats f).toJson = c.toJson.mapFloats f := by
  have hargs : (c.mapFloats f).args.entries.map (fun e => (e.1, e.2.toJson)) =
      (c.args.entries.map fun e => (e.1, e.2.toJson)).map fun e => (e.1, e.2.mapFloats f) := by
    show (c.args.entries.map _).map _ = _
    rw [List.map_map, List.map_map]
    exact List.map_congr_left fun e _ => Prod.ext rfl (e.2.toJson_mapFloat hf)
  have hkind : (Json.string c.kind.name).mapFloats f = .string c.kind.name := by rw [Json.mapFloats]
  rw [toJson, toJson, Json.mapFloats_object, hargs]
  simp only [List.map_cons, List.map_nil, Json.mapFloats_object, Json.mapFloats_ofNat, hkind]
  rfl

theorem Heap.toJson_mapFloats (h : Heap) : (h.mapFloats f).toJson = h.toJson.mapFloats f := by
  rw [toJson, toJson, Json.mapFloats_array, List.map_map]
  show Json.array ((h.cells.map _).toList.map _) = _
  rw [Array.toList_map, List.map_map]
  congr 1
  exact List.map_congr_left fun c _ => c.toJson_mapFloats hf

theorem Cell.Typed.mapFloats {corpus : Corpus} {c : Cell} (hc : c.Typed corpus) :
    (c.mapFloats f).Typed corpus := by
  obtain ⟨shape, hshape, hargs⟩ := hc
  refine ⟨shape, hshape, List.forall_mem_map.mpr fun e he => ?_⟩
  obtain ⟨hfinite, spec, hspec, hdeclared⟩ := hargs e he
  obtain ⟨name, v⟩ := e
  cases v with
  | nested a => exact ⟨nofun, spec, hspec, hdeclared⟩
  | scalar s =>
    refine ⟨?_, spec, hspec, hdeclared⟩
    intro t ht x hx
    cases ht
    cases s with
    | float y =>
      cases hx
      exact (hf y).trans (hfinite (.float y) rfl y rfl)
    | _ => cases hx

end

theorem Cell.Fits.mapFloats {c : Cell} (hc : c.Fits) : (c.mapFloats f).Fits where
  links field := by
    have hlink := hc.links field
    cases field <;> exact hlink
  args := by
    refine List.forall_mem_map.mpr fun e he => ?_
    have harg := hc.args e he
    obtain ⟨name, v⟩ := e
    cases v with
    | scalar s => exact trivial
    | nested a => exact harg

namespace Heap

variable {h k : Heap} {corpus : Corpus} {lib : JsonLibrary}

theorem getElem?_mapFloats (a : Address) :
    (h.mapFloats f).cells[a]? = h.cells[a]?.map (Cell.mapFloats f) := Array.getElem?_map

/-- the cells stay linked as they are -/
theorem pointer?_mapFloats (a : Address) (p : Pointer) :
    (h.mapFloats f).pointer? a p = h.pointer? a p := by
  show (h.mapFloats f).cells[a]?.bind _ = h.cells[a]?.bind _
  rw [getElem?_mapFloats, Option.bind_map]
  refine Option.bind_congr fun c _ => ?_
  cases p with
  | next => rfl
  | body => rfl
  | arg name =>
    show (Entries.find? name (c.args.entries.map fun e => (e.1, e.2.mapFloat f))).bind _ =
      (Entries.find? name c.args.entries).bind _
    rw [Entries.find?_map, Option.bind_map]
    refine Option.bind_congr fun v _ => ?_
    cases v <;> rfl

theorem sameBut_mapFloats {h' : Heap} {a : Address} {p : Pointer} (hs : h.SameBut h' a p) :
    h.SameBut (h'.mapFloats f) a p where
  kind x := by
    rw [hs.kind, getElem?_mapFloats, Option.map_map]
    rfl
  pointer x q hne := (hs.pointer x q hne).trans (pointer?_mapFloats x q).symm

/-- **What is read from the text of a heap** is the heap, its doubles reread; it passes the check -/
theorem eq_of_ofBytes (ht : h.Typed corpus) (hfits : h.Fits)
    (hread : Heap.ofBytes lib corpus h.canonicalBytes = .ok k) :
    k = h.mapFloats lib.reread ∧ k.check corpus = .ok () := by
  have htyped : (h.mapFloats lib.reread).Typed corpus := by
    show ∀ c ∈ (h.cells.map _).toList, _
    rw [Array.toList_map]
    exact List.forall_mem_map.mpr fun c hc => (ht c hc).mapFloats lib.isFinite_reread
  have hwords : (h.mapFloats lib.reread).Fits := by
    show ∀ c ∈ (h.cells.map _).toList, _
    rw [Array.toList_map]
    exact List.forall_mem_map.mpr fun c hc => (hfits c hc).mapFloats
  unfold ofBytes at hread
  split at hread
  · cases hread
  · next v hv =>
    rw [Json.eq_of_ofBytes? (readable_toJson (n := 0) hfits) hv,
      ← toJson_mapFloats lib.isFinite_reread, ofJson_toJson htyped hwords] at hread
    obtain ⟨_, hcheck, rfl⟩ := map_eq_ok.mp hread
    exact ⟨rfl, (mapError_eq_ok _).mp hcheck⟩

end Heap

end

end ScriptHeap
