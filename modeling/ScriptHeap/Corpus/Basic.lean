import ScriptHeap.Shape
import ScriptHeap.Json.Canonical
import ScriptHeap.Digest.ContentHash
/-!
# The corpus

* `Consistent`         what a list of shapes must fulfil;
* `CorpusFault`        the first thing wrong with a list of shapes, `CorpusFault.message` in words;
* `fault?_eq_none_iff` nothing is wrong with exactly the consistent lists;
* `Corpus`             consistent shapes in the order of their kinds;
* `Corpus.ofShapes`    the corpus of a list of shapes;
* `Corpus.shape?`, `Corpus.shapeOf?`   the shape of a kind, and of the kind with a name;
* `UnknownKind`        a name without a shape, `UnknownKind.message` in words;
* `Corpus.toJson`, `Corpus.digest`     the description of a corpus and its hash.
-/

namespace ScriptHeap

/-! ## consistency -/

/-- shapes that fit together: kinds and argument names do not repeat, a primary is a node argument,
`nothing` has a shape, and so has every kind that is named -/
structure Consistent (shapes : List KindShape) : Prop where
  kinds_nodup : (shapes.map (·.kind)).Nodup
  args_nodup : ∀ s ∈ shapes, (s.args.map (·.name)).Nodup
  primary_node : ∀ s ∈ shapes, ∀ name, s.primary? = some name →
    ∃ a, s.arg? name = some a ∧ a.type.isNode = true
  nothing_mem : Kind.nothing ∈ shapes.map (·.kind)
  references_mem : ∀ s ∈ shapes, ∀ k ∈ s.references, k ∈ shapes.map (·.kind)

/-- what is wrong with a list of shapes -/
inductive CorpusFault where
  | duplicateKind (kind : Kind)
  | duplicateArg (kind : Kind) (name : String)
  | nothingMissing
  | primaryNotNode (kind : Kind) (primary : String)
  | unregistered (kind referenced : Kind)
deriving DecidableEq

namespace CorpusFault

def message : CorpusFault → String
  | duplicateKind kind => "kind `" ++ kind.name ++ "` declared twice"
  | duplicateArg kind name => "argument `" ++ name ++ "` declared twice on `" ++ kind.name ++ "`"
  | nothingMissing => "kind `nothing` is not registered"
  | primaryNotNode kind primary =>
    "primary `" ++ primary ++ "` of `" ++ kind.name ++ "` is not a node argument"
  | unregistered kind referenced =>
    "`" ++ kind.name ++ "` references unregistered kind `" ++ referenced.name ++ "`"

end CorpusFault

section
variable {α : Type} [DecidableEq α]

/-- the first element that is among those seen before it -/
def firstRepeat (seen : List α) : List α → Option α
  | [] => none
  | x :: rest => if x ∈ seen then some x else firstRepeat (x :: seen) rest

theorem firstRepeat_eq_none_iff (seen l : List α) :
    firstRepeat seen l = none ↔ l.Nodup ∧ ∀ x ∈ l, x ∉ seen := by
  induction l generalizing seen with
  | nil => simp [firstRepeat]
  | cons x rest ih =>
    rw [firstRepeat]
    split
    · next h => simp [h]
    · next h =>
      rw [ih, List.nodup_cons]
      constructor
      · rintro ⟨hn, hs⟩
        refine ⟨⟨fun hx => hs x hx List.mem_cons_self, hn⟩, fun y hy => ?_⟩
        rcases List.mem_cons.mp hy with hy | hy
        · exact hy ▸ h
        · exact fun hys => hs y hy (List.mem_cons_of_mem _ hys)
      · rintro ⟨⟨hx, hn⟩, hs⟩
        refine ⟨hn, fun y hy hyx => ?_⟩
        rcases List.mem_cons.mp hyx with hyx | hyx
        · exact hx (hyx ▸ hy)
        · exact hs y (List.mem_cons_of_mem _ hy) hyx

end

/-- what is wrong with one shape by itself -/
def KindShape.fault? (s : KindShape) : Option CorpusFault :=
  match firstRepeat [] (s.args.map (·.name)) with
  | some name => some (.duplicateArg s.kind name)
  | none =>
    match s.primary? with
    | none => none
    | some name =>
      if (s.arg? name).any (·.type.isNode) then none else some (.primaryNotNode s.kind name)

theorem KindShape.fault?_eq_none_iff {s : KindShape} :
    s.fault? = none ↔ (s.args.map (·.name)).Nodup ∧
      ∀ name, s.primary? = some name → ∃ a, s.arg? name = some a ∧ a.type.isNode = true := by
  have hr := firstRepeat_eq_none_iff [] (s.args.map (·.name))
  unfold KindShape.fault?
  cases h : firstRepeat [] (s.args.map (·.name)) with
  | some name =>
    rw [h] at hr
    simp only [reduceCtorEq, false_iff, not_and] at hr ⊢
    exact fun hn => absurd (fun x _ => List.not_mem_nil) (hr hn)
  | none =>
    rw [h] at hr
    have hn := (hr.mp rfl).1
    cases hp : s.primary? with
    | none => simp [hn]
    | some name =>
      cases ha : s.arg? name with
      | none => simp [ha]
      | some a => simp [ha, hn]

/-- faults of single shapes and repeated kinds, in the order of the list -/
def shapesFault? (seen : List Kind) : List KindShape → Option CorpusFault
  | [] => none
  | s :: rest =>
    match s.fault? with
    | some fault => some fault
    | none => if s.kind ∈ seen then some (.duplicateKind s.kind) else shapesFault? (s.kind :: seen) rest

theorem shapesFault?_eq_none_iff (seen : List Kind) (shapes : List KindShape) :
    shapesFault? seen shapes = none ↔
      (∀ s ∈ shapes, s.fault? = none) ∧ firstRepeat seen (shapes.map (·.kind)) = none := by
  induction shapes generalizing seen with
  | nil => simp [shapesFault?, firstRepeat]
  | cons s rest ih =>
    rw [shapesFault?, List.map_cons, firstRepeat]
    cases h : s.fault? with
    | some fault => simp [h]
    | none =>
      by_cases hk : s.kind ∈ seen
      · simp [hk]
      · simp [hk, ih, h]

/-- a kind that a shape names and that has no shape, in the order of the list -/
def referenceFault? (registered : List Kind) (shapes : List KindShape) : Option CorpusFault :=
  shapes.findSome? fun s =>
    (s.references.find? fun k => !registered.contains k).map (.unregistered s.kind)

theorem referenceFault?_eq_none_iff (registered : List Kind) (shapes : List KindShape) :
    referenceFault? registered shapes = none ↔
      ∀ s ∈ shapes, ∀ k ∈ s.references, k ∈ registered := by
  simp [referenceFault?, List.findSome?_eq_none_iff]

/-- shapes in the order of their kinds -/
def sortShapes (shapes : List KindShape) : List KindShape :=
  shapes.mergeSort fun s t => decide (s.kind.index ≤ t.kind.index)

theorem sortShapes_perm (shapes : List KindShape) : (sortShapes shapes).Perm shapes :=
  List.mergeSort_perm _ _

theorem sortShapes_pairwise (shapes : List KindShape) :
    (sortShapes shapes).Pairwise fun s t => s.kind.index ≤ t.kind.index := by
  refine (List.pairwise_mergeSort ?_ ?_ shapes).imp (S := fun s t => s.kind.index ≤ t.kind.index)
    fun h => of_decide_eq_true h
  · intro a b c
    simp only [decide_eq_true_eq]
    omega
  · intro a b
    simp only [Bool.or_eq_true, decide_eq_true_eq]
    omega

/-- the first fault: single shapes and repeated kinds, then `nothing`, then the kinds that are named,
shape by shape in the order of kinds -/
def fault? (shapes : List KindShape) : Option CorpusFault :=
  match shapesFault? [] shapes with
  | some fault => some fault
  | none =>
    if Kind.nothing ∈ shapes.map (·.kind) then
      referenceFault? (shapes.map (·.kind)) (sortShapes shapes)
    else some .nothingMissing

theorem fault?_eq_none_iff {shapes : List KindShape} : fault? shapes = none ↔ Consistent shapes := by
  have hs := shapesFault?_eq_none_iff [] shapes
  have hr := referenceFault?_eq_none_iff (shapes.map (·.kind)) (sortShapes shapes)
  simp only [(sortShapes_perm shapes).mem_iff] at hr
  rw [firstRepeat_eq_none_iff] at hs
  unfold fault?
  constructor
  · intro h
    cases hf : shapesFault? [] shapes with
    | some fault => rw [hf] at h; cases h
    | none =>
      rw [hf] at h
      obtain ⟨h1, h2, -⟩ := hs.mp hf
      by_cases hn : Kind.nothing ∈ shapes.map (·.kind)
      · simp only [hn, if_true] at h
        exact ⟨h2, fun s hm => (KindShape.fault?_eq_none_iff.mp (h1 s hm)).1,
          fun s hm => (KindShape.fault?_eq_none_iff.mp (h1 s hm)).2, hn, hr.mp h⟩
      · simp only [hn, if_false] at h
        cases h
  · intro h
    have hf : shapesFault? [] shapes = none :=
      hs.mpr ⟨fun s hm => KindShape.fault?_eq_none_iff.mpr ⟨h.args_nodup s hm, h.primary_node s hm⟩,
        h.kinds_nodup, fun x _ => List.not_mem_nil⟩
    simp only [hf, h.nothing_mem, if_true]
    exact hr.mpr h.references_mem

/-- nothing wrong in a list as it stands, whatever its order -/
theorem Consistent.of_faults {shapes : List KindShape} (hs : shapesFault? [] shapes = none)
    (hn : Kind.nothing ∈ shapes.map (·.kind))
    (hr : referenceFault? (shapes.map (·.kind)) shapes = none) : Consistent shapes where
  kinds_nodup := ((firstRepeat_eq_none_iff _ _).mp ((shapesFault?_eq_none_iff _ _).mp hs).2).1
  args_nodup s hm :=
    (KindShape.fault?_eq_none_iff.mp (((shapesFault?_eq_none_iff _ _).mp hs).1 s hm)).1
  primary_node s hm :=
    (KindShape.fault?_eq_none_iff.mp (((shapesFault?_eq_none_iff _ _).mp hs).1 s hm)).2
  nothing_mem := hn
  references_mem := (referenceFault?_eq_none_iff _ _).mp hr

theorem Consistent.of_perm {shapes shapes' : List KindShape} (h : Consistent shapes)
    (hp : shapes.Perm shapes') : Consistent shapes' where
  kinds_nodup := (hp.map _).nodup_iff.mp h.kinds_nodup
  args_nodup s hs := h.args_nodup s (hp.mem_iff.mpr hs)
  primary_node s hs := h.primary_node s (hp.mem_iff.mpr hs)
  nothing_mem := (hp.map _).mem_iff.mp h.nothing_mem
  references_mem s hs k hk := (hp.map _).mem_iff.mp (h.references_mem s (hp.mem_iff.mpr hs) k hk)

/-! ## the corpus -/

/-- a name that is not the name of a registered kind -/
structure UnknownKind where
  name : String
deriving DecidableEq

def UnknownKind.message (u : UnknownKind) : String := "unknown node kind `" ++ u.name ++ "`"

/-- consistent shapes in the order of their kinds -/
structure Corpus where
  shapes : List KindShape
  sorted : shapes.Pairwise fun s t => s.kind.index ≤ t.kind.index
  consistent : Consistent shapes

namespace Corpus

def ofShapes (shapes : List KindShape) : Except CorpusFault Corpus :=
  match h : fault? shapes with
  | some fault => .error fault
  | none => .ok ⟨sortShapes shapes, sortShapes_pairwise shapes,
      (fault?_eq_none_iff.mp h).of_perm (sortShapes_perm shapes).symm⟩

def kinds (c : Corpus) : List Kind := c.shapes.map (·.kind)

def shape? (c : Corpus) (kind : Kind) : Option KindShape := c.shapes.find? fun s => s.kind == kind

def shapeOf? (c : Corpus) (name : String) : Option KindShape :=
  (Kind.ofName? name).bind c.shape?

/-- how many kinds are registered -/
def size (c : Corpus) : Nat := c.shapes.length

/-- the shape of the kind with a name, or why there is none -/
def shapeOf (c : Corpus) (name : String) : Except UnknownKind KindShape :=
  match c.shapeOf? name with
  | some s => .ok s
  | none => .error ⟨name⟩

theorem mem_of_shape? {c : Corpus} {kind : Kind} {s : KindShape} (h : c.shape? kind = some s) :
    s ∈ c.shapes ∧ s.kind = kind :=
  ⟨List.mem_of_find?_eq_some h, by simpa using List.find?_some h⟩

theorem shapeOf?_eq_some_iff {c : Corpus} {name : String} {s : KindShape} :
    c.shapeOf? name = some s ↔ c.shape? s.kind = some s ∧ s.kind.name = name := by
  unfold shapeOf?
  constructor
  · intro h
    obtain ⟨k, hk, hs⟩ := Option.bind_eq_some_iff.mp h
    have := (mem_of_shape? hs).2
    subst this
    exact ⟨hs, Kind.name_of_ofName? hk⟩
  · rintro ⟨hs, hn⟩
    rw [← hn, Kind.ofName?_name]
    exact hs

/-! ## description -/

def toJson (c : Corpus) : Json := .object [("kinds", .array (c.shapes.map KindShape.toJson))]

def digest (c : Corpus) : ContentHash := contentHash .corpus c.toJson.canonicalBytes.toList

end Corpus

end ScriptHeap
