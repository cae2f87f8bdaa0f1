import ScriptHeap.Proofs.CanonicalText
import ScriptHeap.Proofs.HeapIdentity
import ScriptHeap.Proofs.ListedShapes
/-!
# The description of a corpus identifies it

* `ArgType.toJson_injective`, `BodyRule.toJson_injective`, `KindShape.toJson_injective`   what is described
                       in the same way is the same, level by level;
* `KindShape.readable_toJson`   descriptions are JSON values with their members in order;
* `Corpus.toJson_injective`   corpora with the same description are the same;
* `Corpus.ext_shape?`  so are corpora in which the same shapes are found;
* `Corpus.Collides`    SHA-256 collides on the descriptions of two corpora;
* `Corpus.description_identifies`   how canonical bytes, digests and corpora go together.
-/

namespace ScriptHeap

/-! ## descriptions tell apart -/

theorem Json.ofStrings_injective {l m : List String} (h : ofStrings l = ofStrings m) : l = m := by
  have hstring : Function.Injective Json.string := fun s t hst => Json.string.inj hst
  exact hstring.list_map (Json.array.inj h)

theorem Kind.names_injective {l m : List Kind} (h : names l = names m) : l = m := by
  have hname : Function.Injective Kind.name := fun _ _ => name_injective
  exact hname.list_map h

/-- an object of one member is told by its key and its value -/
theorem Json.object_singleton_inj {key key' : String} {v w : Json}
    (h : object [(key, v)] = object [(key', w)]) : key = key' ∧ v = w := by
  cases h
  exact ⟨rfl, rfl⟩

namespace ArgType

/-- types without parts are described by different strings, the others by different keys -/
theorem toJson_injective {t u : ArgType} (h : t.toJson = u.toJson) : t = u := by
  cases t with
  | choice options =>
    cases u with
    | choice options' => rw [Json.ofStrings_injective (Json.object_singleton_inj h).2]
    | node kinds => exact absurd (Json.object_singleton_inj h).1 (by decide)
    | _ => cases h
  | node kinds =>
    cases u with
    | choice options => exact absurd (Json.object_singleton_inj h).1 (by decide)
    | node kinds' =>
      have hnames := Json.ofStrings_injective (Json.object_singleton_inj h).2
      rw [Kind.names_injective hnames]
    | _ => cases h
  | _ =>
    cases u with
    | choice options => cases h
    | node kinds => cases h
    | _ => first | rfl | exact absurd (Json.string.inj h) (by decide)

end ArgType

theorem ArgSpec.toJson_injective {a b : ArgSpec}
    (h : Json.array [.string a.name, a.type.toJson] = .array [.string b.name, b.type.toJson]) :
    a = b := by
  obtain ⟨hname, hrest⟩ := List.cons_eq_cons.mp (Json.array.inj h)
  have htype := ArgType.toJson_injective (List.cons_eq_cons.mp hrest).1
  cases a
  cases b
  rw [ArgSpec.mk.injEq]
  exact ⟨Json.string.inj hname, htype⟩

theorem BodyRule.toJson_injective {b c : BodyRule} (h : b.toJson = c.toJson) : b = c := by
  cases b with
  | none =>
    cases c with
    | none => rfl
    | _ => cases h
  | block kinds =>
    cases c with
    | none => cases h
    | block kinds' =>
      have hnames := Json.ofStrings_injective (Json.object_singleton_inj h).2
      rw [Kind.names_injective hnames]
    | primary name => exact absurd (Json.object_singleton_inj h).1 (by decide)
  | primary name =>
    cases c with
    | none => cases h
    | block kinds => exact absurd (Json.object_singleton_inj h).1 (by decide)
    | primary name' => rw [Json.string.inj (Json.object_singleton_inj h).2]

theorem KindShape.toJson_injective {s t : KindShape} (h : s.toJson = t.toJson) : s = t := by
  obtain ⟨hargs, hrest⟩ := List.cons_eq_cons.mp (Json.object.inj h)
  obtain ⟨hbody, hrest⟩ := List.cons_eq_cons.mp hrest
  obtain ⟨hkind, _⟩ := List.cons_eq_cons.mp hrest
  have hspec : Function.Injective fun a : ArgSpec => Json.array [.string a.name, a.type.toJson] :=
    fun _ _ => ArgSpec.toJson_injective
  have hargs := hspec.list_map (Json.array.inj (Prod.mk.inj hargs).2)
  have hbody := BodyRule.toJson_injective (Prod.mk.inj hbody).2
  have hkind := Kind.name_injective (Json.string.inj (Prod.mk.inj hkind).2)
  cases s
  cases t
  simp only at hargs hbody hkind
  rw [hargs, hbody, hkind]

/-! ## descriptions are JSON values -/

section
variable {n : Nat}

theorem Json.readable_ofStrings (l : List String) : (ofStrings l).Readable (n + 1) := by
  refine .array fun v hv => ?_
  obtain ⟨s, _, rfl⟩ := List.mem_map.mp hv
  exact .string s

/-- an object of one member has it in order -/
theorem Json.readable_singleton {key : String} {v : Json} (hv : v.Readable n) :
    (object [(key, v)]).Readable (n + 1) :=
  .object (List.pairwise_singleton _ _) (List.forall_mem_singleton.mpr hv)

theorem ArgType.readable_toJson (t : ArgType) : t.toJson.Readable (n + 2) := by
  cases t with
  | choice options => exact Json.readable_singleton (Json.readable_ofStrings options)
  | node kinds => exact Json.readable_singleton (Json.readable_ofStrings _)
  | _ => exact .string _

theorem BodyRule.readable_toJson (b : BodyRule) : b.toJson.Readable (n + 2) := by
  cases b with
  | none => exact .null
  | block kinds => exact Json.readable_singleton (Json.readable_ofStrings _)
  | primary name => exact Json.readable_singleton (.string name)

theorem KindShape.readable_toJson (s : KindShape) : s.toJson.Readable (n + 5) := by
  have hargs : (Json.array (s.args.map fun a =>
      Json.array [.string a.name, a.type.toJson])).Readable (n + 4) := by
    refine .array fun v hv => ?_
    obtain ⟨a, _, rfl⟩ := List.mem_map.mp hv
    refine .array ?_
    simp only [List.forall_mem_cons]
    exact ⟨.string a.name, a.type.readable_toJson, nofun⟩
  refine .object ?_ ?_
  · exact (Entries.sorted_congr (by rfl)).mpr
      (show Entries.Sorted [("args", ()), ("body", ()), ("kind", ())] by decide)
  · simp only [List.forall_mem_cons]
    exact ⟨hargs, s.body.readable_toJson, .string _, nofun⟩

end

namespace Corpus

section
variable {c d : Corpus}

theorem readable_toJson (c : Corpus) : c.toJson.Readable 7 := by
  refine Json.readable_singleton (.array fun v hv => ?_)
  obtain ⟨s, _, rfl⟩ := List.mem_map.mp hv
  exact s.readable_toJson

/-- **Corpora with the same description are the same** -/
theorem toJson_injective (h : c.toJson = d.toJson) : c = d := by
  have hshape : Function.Injective KindShape.toJson := fun _ _ => KindShape.toJson_injective
  exact ext_shapes (hshape.list_map (Json.array.inj (Json.object_singleton_inj h).2))

/-- a corpus is the map from its kinds to their shapes -/
theorem ext_shape? (h : ∀ kind, c.shape? kind = d.shape? kind) : c = d := by
  have hnodup : ∀ e : Corpus, e.shapes.Nodup := fun e => e.consistent.kinds_nodup.of_map
  have hmem : ∀ s : KindShape, s ∈ c.shapes ↔ s ∈ d.shapes := by
    intro s
    have hfound : c.shape? s.kind = some s ↔ d.shape? s.kind = some s := by rw [h]
    rwa [shape?_eq_some_iff, shape?_eq_some_iff, and_iff_left rfl, and_iff_left rfl] at hfound
  have hperm := (List.perm_ext_iff_of_nodup (hnodup c) (hnodup d)).mpr hmem
  exact ext_shapes (eq_of_perm_of_sorted c.consistent.kinds_nodup c.sorted d.sorted hperm)

/-! ## bytes and digests -/

/-- SHA-256 does not tell two corpora apart although they are described differently -/
def Collides (c d : Corpus) : Prop :=
  Sha256.Collide (HashDomain.corpus.bytes ++ c.toJson.canonicalBytes.toList)
    (HashDomain.corpus.bytes ++ d.toJson.canonicalBytes.toList)

theorem eq_of_canonicalBytes (h : c.toJson.canonicalBytes = d.toJson.canonicalBytes) : c = d :=
  toJson_injective (Json.canonicalBytes_inj c.readable_toJson d.readable_toJson h)

end

/-- **The description of a corpus identifies it.** Corpora have the same canonical bytes exactly if
they are the same, that is if the same shapes are found in them, with all kinds, arguments and strings
and the order of each list; and they have the same digest exactly if they are the same, unless
SHA-256 collides on the two descriptions. -/
theorem description_identifies (c d : Corpus) :
    (c.toJson.canonicalBytes = d.toJson.canonicalBytes ↔ c = d) ∧
    (c = d ↔ ∀ kind, c.shape? kind = d.shape? kind) ∧
    (c.digest = d.digest ↔ c = d ∨ c.Collides d) := by
  have hbytes : c.toJson.canonicalBytes = d.toJson.canonicalBytes ↔ c = d :=
    ⟨eq_of_canonicalBytes, fun heq => by rw [heq]⟩
  have hdigest : c.digest = d.digest ↔
      c.toJson.canonicalBytes = d.toJson.canonicalBytes ∨ c.Collides d := contentHash_eq_iff
  refine ⟨hbytes, ⟨fun heq kind => by rw [heq], ext_shape?⟩, ?_⟩
  rw [hdigest, hbytes]

end Corpus

end ScriptHeap
