import ScriptHeap.Proofs.LookUp
/-!
# The corpus of a list of shapes

* `KindShape.Names`    a shape names a kind: as one of its statements, or of a node argument;
* `consistent_iff`     consistency in plain words;
* `eq_of_perm_of_sorted`   shapes of different kinds have one order;
* `Corpus.ofShapes_eq_ok_iff`   the corpus of consistent shapes has them in this order;
* `Corpus.shapeOf_ofShapes`, `Corpus.shapeOf_ofShapes_unlisted`   the listed shapes are found under the
                       names of their kinds, and under other names there is none;
* `Corpus.ofShapes_of_perm`   the order of the list does not matter;
* `Corpus.ofShapes_accepts_consistent`   all of this together.
-/

namespace ScriptHeap

/-! ## consistency -/

/-- a kind that a shape lists for its statements or for a node argument -/
inductive KindShape.Names (s : KindShape) (k : Kind) : Prop
  | block {kinds : List Kind} (hbody : s.body = .block kinds) (hk : k ∈ kinds)
  | arg {name : String} {kinds : List Kind} (ha : ⟨name, .node kinds⟩ ∈ s.args) (hk : k ∈ kinds)

namespace KindShape

section
variable {s : KindShape} {k : Kind}

theorem mem_references_iff : k ∈ s.references ↔ s.Names k := by
  unfold references
  rw [List.mem_append, List.mem_flatMap]
  constructor
  · rintro (h | ⟨⟨name, t⟩, ha, h⟩)
    · cases hbody : s.body with
      | block kinds =>
        rw [hbody] at h
        exact .block hbody h
      | _ => rw [hbody] at h; cases h
    · cases t with
      | node kinds => exact .arg ha h
      | _ => cases h
  · intro h
    cases h with
    | block hbody hk =>
      rw [hbody]
      exact .inl hk
    | arg ha hk => exact .inr ⟨_, ha, hk⟩

/-- the primary of a shape is found as a node argument exactly if it is declared as one -/
theorem primary_node_iff (hn : (s.args.map (·.name)).Nodup) (name : String) :
    (∃ a, s.arg? name = some a ∧ a.type.isNode = true) ↔
      ∃ kinds, ⟨name, .node kinds⟩ ∈ s.args := by
  constructor
  · rintro ⟨⟨name', t⟩, ha, ht⟩
    obtain ⟨hmem, rfl⟩ := mem_args_of_arg? ha
    obtain ⟨kinds, rfl⟩ := ArgType.isNode_iff.mp ht
    exact ⟨kinds, hmem⟩
  · rintro ⟨kinds, hmem⟩
    exact ⟨_, (arg?_eq_some_iff hn).mpr ⟨hmem, rfl⟩, rfl⟩

end

end KindShape

/-- **Consistency in plain words**: no kind and no argument name twice, primaries that are node
arguments, `nothing` among the kinds, and with a kind all those that its shape names -/
theorem consistent_iff {shapes : List KindShape} : Consistent shapes ↔
    (shapes.map (·.kind)).Nodup ∧ (∀ s ∈ shapes, (s.args.map (·.name)).Nodup) ∧
    (∀ s ∈ shapes, ∀ name, s.body = .primary name → ∃ kinds, ⟨name, .node kinds⟩ ∈ s.args) ∧
    (∃ s ∈ shapes, s.kind = .nothing) ∧
    ∀ s ∈ shapes, ∀ k, s.Names k → ∃ t ∈ shapes, t.kind = k := by
  have hregistered : ∀ k : Kind, k ∈ shapes.map (·.kind) ↔ ∃ t ∈ shapes, t.kind = k :=
    fun k => List.mem_map
  constructor
  · intro h
    refine ⟨h.kinds_nodup, h.args_nodup, fun s hs name hbody => ?_,
      (hregistered _).mp h.nothing_mem, fun s hs k hk => ?_⟩
    · have hprimary := h.primary_node s hs name (KindShape.primary?_eq_some_iff.mpr hbody)
      exact (KindShape.primary_node_iff (h.args_nodup s hs) name).mp hprimary
    · exact (hregistered k).mp (h.references_mem s hs k (KindShape.mem_references_iff.mpr hk))
  · rintro ⟨hkinds, hargs, hprimary, hnothing, hnames⟩
    refine ⟨hkinds, hargs, fun s hs name hp => ?_, (hregistered _).mpr hnothing, fun s hs k hk => ?_⟩
    · have hbody := KindShape.primary?_eq_some_iff.mp hp
      exact (KindShape.primary_node_iff (hargs s hs) name).mpr (hprimary s hs name hbody)
    · exact (hregistered k).mpr (hnames s hs k (KindShape.mem_references_iff.mp hk))

/-! ## order -/

/-- shapes of different kinds stand in order in one way only -/
theorem eq_of_perm_of_sorted {l m : List KindShape} (hkinds : (l.map (·.kind)).Nodup)
    (hl : l.Pairwise fun s t => s.kind.index ≤ t.kind.index)
    (hm : m.Pairwise fun s t => s.kind.index ≤ t.kind.index) (hp : l.Perm m) : l = m := by
  refine hp.eq_of_pairwise (fun s t hs ht hst hts => ?_) hl hm
  have hkind : s.kind = t.kind := Kind.index_injective (Nat.le_antisymm hst hts)
  exact List.inj_on_of_nodup_map hkinds hs (hp.mem_iff.mpr ht) hkind

/-- so they are put in one order, whatever order they come in -/
theorem sortShapes_eq_of_perm {shapes shapes' : List KindShape}
    (hkinds : (shapes.map (·.kind)).Nodup) (hp : shapes.Perm shapes') :
    sortShapes shapes = sortShapes shapes' := by
  have hsort := sortShapes_perm shapes
  have hperm : (sortShapes shapes).Perm (sortShapes shapes') :=
    hsort.trans (hp.trans (sortShapes_perm shapes').symm)
  exact eq_of_perm_of_sorted ((hsort.map _).nodup_iff.mpr hkinds) (sortShapes_pairwise shapes)
    (sortShapes_pairwise shapes') hperm

namespace Corpus

/-- a corpus has nothing but its shapes -/
theorem ext_shapes {c d : Corpus} (h : c.shapes = d.shapes) : c = d := by
  cases c
  cases d
  cases h
  rfl

section
variable {shapes shapes' : List KindShape} {c : Corpus}

theorem ofShapes_eq_ok_iff :
    ofShapes shapes = .ok c ↔ Consistent shapes ∧ c.shapes = sortShapes shapes := by
  unfold ofShapes
  split
  · next fault hfault =>
    refine ⟨nofun, fun ⟨hcons, _⟩ => ?_⟩
    rw [fault?_eq_none_iff.mpr hcons] at hfault
    cases hfault
  · next hnone =>
    rw [Except.ok.injEq]
    constructor
    · rintro rfl
      exact ⟨fault?_eq_none_iff.mp hnone, rfl⟩
    · rintro ⟨_, hshapes⟩
      exact ext_shapes hshapes.symm

theorem exists_ofShapes_iff : (∃ c, ofShapes shapes = .ok c) ↔ Consistent shapes := by
  constructor
  · rintro ⟨c, hc⟩
    exact (ofShapes_eq_ok_iff.mp hc).1
  · intro h
    have hsorted : Consistent (sortShapes shapes) := h.of_perm (sortShapes_perm shapes).symm
    exact ⟨⟨sortShapes shapes, sortShapes_pairwise shapes, hsorted⟩,
      ofShapes_eq_ok_iff.mpr ⟨h, rfl⟩⟩

/-! ## look-ups -/

theorem shapes_perm (h : ofShapes shapes = .ok c) : c.shapes.Perm shapes := by
  rw [(ofShapes_eq_ok_iff.mp h).2]
  exact sortShapes_perm shapes

/-- a listed shape is found under the name of its kind -/
theorem shapeOf_ofShapes (h : ofShapes shapes = .ok c) {s : KindShape} (hs : s ∈ shapes) :
    c.shapeOf s.kind.name = .ok s := by
  have hmem : s ∈ c.shapes := (shapes_perm h).mem_iff.mpr hs
  rw [shapeOf_eq_ok_iff, shapeOf?_eq_some_iff]
  exact ⟨shape?_eq_some_iff.mpr ⟨hmem, rfl⟩, rfl⟩

/-- under any other name there is no shape -/
theorem shapeOf_ofShapes_unlisted (h : ofShapes shapes = .ok c) {name : String}
    (hname : ∀ s ∈ shapes, s.kind.name ≠ name) : c.shapeOf name = .error ⟨name⟩ := by
  unfold shapeOf
  cases hs : c.shapeOf? name with
  | none => rfl
  | some s =>
    obtain ⟨hshape, hkind⟩ := shapeOf?_eq_some_iff.mp hs
    have hmem : s ∈ shapes := (shapes_perm h).mem_iff.mp (mem_of_shape? hshape).1
    exact absurd hkind (hname s hmem)

/-- the order of the list does not matter -/
theorem ofShapes_of_perm (h : ofShapes shapes = .ok c) (hp : shapes.Perm shapes') :
    ofShapes shapes' = .ok c := by
  obtain ⟨hcons, hshapes⟩ := ofShapes_eq_ok_iff.mp h
  rw [sortShapes_eq_of_perm hcons.kinds_nodup hp] at hshapes
  exact ofShapes_eq_ok_iff.mpr ⟨hcons.of_perm hp, hshapes⟩

end

/-- **The corpus of a list of shapes.** There is one exactly if the list is consistent. It has the
listed shapes, each under the name of its kind, and no others; and a list in any other order gives
the same corpus, with the same canonical bytes. -/
theorem ofShapes_accepts_consistent (shapes : List KindShape) :
    ((∃ c, ofShapes shapes = .ok c) ↔
      (shapes.map (·.kind)).Nodup ∧ (∀ s ∈ shapes, (s.args.map (·.name)).Nodup) ∧
      (∀ s ∈ shapes, ∀ name, s.body = .primary name → ∃ kinds, ⟨name, .node kinds⟩ ∈ s.args) ∧
      (∃ s ∈ shapes, s.kind = .nothing) ∧
      ∀ s ∈ shapes, ∀ k, s.Names k → ∃ t ∈ shapes, t.kind = k) ∧
    ∀ c, ofShapes shapes = .ok c →
      (∀ s ∈ shapes, c.shapeOf s.kind.name = .ok s) ∧
      (∀ name, (∀ s ∈ shapes, s.kind.name ≠ name) → c.shapeOf name = .error ⟨name⟩) ∧
      ∀ shapes', shapes.Perm shapes' → ∃ c', ofShapes shapes' = .ok c' ∧ c' = c ∧
        c'.toJson.canonicalBytes = c.toJson.canonicalBytes := by
  refine ⟨exists_ofShapes_iff.trans consistent_iff, fun c h => ⟨fun s hs => shapeOf_ofShapes h hs,
    fun name hname => shapeOf_ofShapes_unlisted h hname, fun shapes' hp => ?_⟩⟩
  exact ⟨c, ofShapes_of_perm h hp, rfl, rfl⟩

end Corpus

namespace Sample

/-- a declaration whose primary may be a sequence -/
def declarationShape : KindShape := ⟨.variableDeclaration, .primary "data_value",
  [⟨"label", .string⟩, ⟨"data_value", .node [.nothing, .sequence]⟩]⟩

/-- sequences of declarations and sequences -/
def scriptShape : KindShape := ⟨.sequence, .block [.variableDeclaration, .sequence], []⟩

/-- shapes that name themselves, each other, and `nothing` before it is listed -/
def scriptShapes : List KindShape := [declarationShape, scriptShape, ⟨.nothing, .none, []⟩]

theorem scriptShapes_accepted : ∃ c, Corpus.ofShapes scriptShapes = .ok c ∧
    c.shapeOf "variable_declaration" = .ok declarationShape ∧
    c.shapeOf "wait" = .error ⟨"wait"⟩ ∧ Corpus.ofShapes scriptShapes.reverse = .ok c := by
  obtain ⟨haccepted, hcorpus⟩ := Corpus.ofShapes_accepts_consistent scriptShapes
  have hprimary : ∀ s ∈ scriptShapes, ∀ name, s.body = .primary name →
      ∃ kinds, ⟨name, .node kinds⟩ ∈ s.args := by
    simp [scriptShapes, declarationShape, scriptShape]
  have hnames : ∀ s ∈ scriptShapes, ∀ k, s.Names k → ∃ t ∈ scriptShapes, t.kind = k := by
    intro s hs k hk
    have hall : ∀ s ∈ scriptShapes, ∀ k ∈ s.references, ∃ t ∈ scriptShapes, t.kind = k := by decide
    exact hall s hs k (KindShape.mem_references_iff.mpr hk)
  obtain ⟨c, hc⟩ := haccepted.mpr ⟨by decide, by decide, hprimary, by decide, hnames⟩
  obtain ⟨hlisted, hunlisted, hperm⟩ := hcorpus c hc
  obtain ⟨_, hreverse, rfl, _⟩ := hperm _ (List.reverse_perm scriptShapes).symm
  exact ⟨_, hc, hlisted declarationShape List.mem_cons_self, hunlisted "wait" (by decide), hreverse⟩

end Sample

end ScriptHeap
