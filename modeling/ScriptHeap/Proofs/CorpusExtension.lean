import ScriptHeap.Corpus.BuiltIn
import ScriptHeap.Proofs.Flattening
import ScriptHeap.Proofs.PersistedHeap
import ScriptHeap.Proofs.Rebuilt
import ScriptHeap.Proofs.ValidTree
/-!
# More kinds

* `Kept`               where a computation succeeds, another has the same outcome;
* `Corpus.Extends`     a corpus has all kinds of another, with the same shapes;
* `Node.check_kept`, `Node.flatten_kept`, `Heap.rebuild_kept`   what succeeds with a corpus succeeds
                       in the same way with one that extends it;
* `Heap.SameShapes`, `Heap.checkTree_congr`   the walk looks up the kinds of cells only;
* `Corpus.extension_keeps`   so nothing that was accepted is refused or read otherwise.
-/

namespace ScriptHeap

/-! ## outcomes that are kept -/

/-- where the first computation succeeds, the second has the same outcome -/
def Kept {ε α : Type} (x y : Except ε α) : Prop := ∀ a, x = .ok a → y = .ok a

namespace Kept

section
variable {ε δ α β : Type}

theorem refl (x : Except ε α) : Kept x x := fun _ h => h

theorem of_error (e : ε) (y : Except ε α) : Kept (.error e) y := nofun

theorem bind {x y : Except ε α} {f g : α → Except ε β} (hxy : Kept x y)
    (hfg : ∀ a, x = .ok a → Kept (f a) (g a)) : Kept (x >>= f) (y >>= g) := by
  intro b hb
  obtain ⟨a, ha, hb⟩ := bind_eq_ok.mp hb
  exact bind_eq_ok.mpr ⟨a, hxy a ha, hfg a ha b hb⟩

theorem map {x y : Except ε α} (hxy : Kept x y) (f : α → β) : Kept (x.map f) (y.map f) := by
  intro b hb
  obtain ⟨a, ha, rfl⟩ := map_eq_ok.mp hb
  exact map_eq_ok.mpr ⟨a, hxy a ha, rfl⟩

theorem mapError {x y : Except ε α} (hxy : Kept x y) (f : ε → δ) :
    Kept (x.mapError f) (y.mapError f) := by
  intro a ha
  rw [mapError_eq_ok] at ha ⊢
  exact hxy a ha

theorem forM {f g : α → Except ε Unit} {l : List α} (hfg : ∀ a ∈ l, Kept (f a) (g a)) :
    Kept (l.forM f) (l.forM g) := by
  intro _ h
  rw [forM_eq_ok] at h ⊢
  exact fun a ha => hfg a ha () (h a ha)

theorem mapM {f g : α → Except ε β} {l : List α} (hfg : ∀ a ∈ l, Kept (f a) (g a)) :
    Kept (l.mapM f) (l.mapM g) := by
  induction l with
  | nil => exact refl _
  | cons a l ih =>
    obtain ⟨ha, hl⟩ := List.forall_mem_cons.mp hfg
    rw [List.mapM_cons, List.mapM_cons]
    exact ha.bind fun b _ => (ih hl).bind fun bs _ => refl _

theorem foldlM {f g : β → α → Except ε β} {l : List α} (hfg : ∀ b, ∀ a ∈ l, Kept (f b a) (g b a))
    (b : β) : Kept (l.foldlM f b) (l.foldlM g b) := by
  induction l generalizing b with
  | nil => exact refl _
  | cons a l ih =>
    rw [List.foldlM_cons, List.foldlM_cons]
    refine (hfg b a List.mem_cons_self).bind fun b' _ => ?_
    exact ih (fun b a ha => hfg b a (List.mem_cons_of_mem _ ha)) b'

end

end Kept

/-! ## the extension of a corpus -/

namespace Corpus

/-- every kind of the second corpus is a kind of the first and has the same shape there -/
def Extends (large small : Corpus) : Prop :=
  ∀ kind shape, small.shape? kind = some shape → large.shape? kind = some shape

section
variable {large small : Corpus}

theorem extends_of_subset (h : ∀ s ∈ small.shapes, s ∈ large.shapes) : large.Extends small := by
  intro kind shape hs
  obtain ⟨hmem, hkind⟩ := mem_of_shape? hs
  exact shape?_eq_some_iff.mpr ⟨h shape hmem, hkind⟩

theorem Extends.shapeOf? (hext : large.Extends small) {name : String} {shape : KindShape}
    (hs : small.shapeOf? name = some shape) : large.shapeOf? name = some shape := by
  obtain ⟨kind, hkind, hs⟩ := Option.bind_eq_some_iff.mp hs
  exact Option.bind_eq_some_iff.mpr ⟨kind, hkind, hext kind shape hs⟩

theorem Extends.shapeOf (hext : large.Extends small) (name : String) :
    Kept (small.shapeOf name) (large.shapeOf name) := by
  intro shape hs
  rw [shapeOf_eq_ok_iff] at hs ⊢
  exact hext.shapeOf? hs

end

end Corpus

section
variable {large small : Corpus}

/-! ## trees -/

namespace Node

theorem checkAlone_kept (hext : large.Extends small) (allowed : Option (List Kind)) (n : Node) :
    Kept (n.checkAlone small allowed) (n.checkAlone large allowed) := by
  unfold checkAlone
  cases hs : small.shapeOf n.kind with
  | error u => exact .of_error _ _
  | ok shape =>
    rw [hext.shapeOf n.kind shape hs]
    exact .refl _

theorem checkBelow_kept (hext : large.Extends small) (limit levels : Nat) (trail : NodePath)
    (allowed : Option (List Kind)) (n : Node) :
    Kept (checkBelow small limit levels trail allowed n)
      (checkBelow large limit levels trail allowed n) := by
  induction levels generalizing trail allowed n with
  | zero => exact .refl _
  | succ levels ih =>
    exact ((checkAlone_kept hext allowed n).mapError _).bind fun visits _ =>
      .forM fun v _ => ih (v.step :: trail) (some v.allowed) v.node

theorem check_kept (hext : large.Extends small) (policy : Policy) (n : Node) :
    Kept (n.check small policy) (n.check large policy) := checkBelow_kept hext _ _ _ none n

theorem flattenBelow_kept (hext : large.Extends small) (policy : Policy) (levels : Nat)
    (parent : Address) (link : Address → Builder → Except BuildFault Builder) (n : Node)
    (b : Builder) : Kept (n.flattenBelow small policy levels parent link b)
      (n.flattenBelow large policy levels parent link b) := by
  induction levels generalizing parent link n b with
  | zero => exact .refl _
  | succ levels ih =>
    have hpart : ∀ (s : OpenCell × Builder) (p : Place × Node),
        Kept (addPart small policy levels s p) (addPart large policy levels s p) :=
      fun s p => (ih _ _ p.2 s.2).bind fun _ _ => .refl _
    rw [flattenBelow_succ, flattenBelow_succ]
    refine ((hext.shapeOf n.kind).mapError _).bind fun shape _ => ?_
    refine (Kept.refl _).bind fun r _ => (Kept.refl _).bind fun b _ => ?_
    refine (Kept.bind ?_ fun _ _ => .refl _).bind fun _ _ => .refl _
    exact .foldlM (fun s p _ => hpart s p) _

theorem flatten_kept (hext : large.Extends small) (policy : Policy) (n : Node) :
    Kept (n.flatten small policy) (n.flatten large policy) :=
  (flattenBelow_kept hext policy _ _ _ n _).bind fun _ _ => .refl _

end Node

namespace Heap

theorem openCell_kept (hext : large.Extends small) (h : Heap) (allowed : Option (List Kind))
    (a : Address) : Kept (h.openCell small allowed a) (h.openCell large allowed a) := by
  refine (Kept.refl _).bind fun c _ => Kept.bind (Kept.mapError ?_ _) fun shape _ => .refl _
  intro shape hs
  rw [openShape_eq_ok] at hs ⊢
  exact hext c.kind shape hs

theorem rebuildBelow_kept (hext : large.Extends small) (h : Heap) (limit levels : Nat)
    (allowed : Option (List Kind)) (a : Address) :
    Kept (h.rebuildBelow small limit levels allowed a)
      (h.rebuildBelow large limit levels allowed a) := by
  induction levels generalizing allowed a with
  | zero => exact .refl _
  | succ levels ih =>
    have hread : ∀ t : Target, Kept (h.rebuildBelow small limit levels (some t.allowed) t.address)
        (h.rebuildBelow large limit levels (some t.allowed) t.address) := fun t => ih _ t.address
    rw [rebuildBelow_succ_eq, rebuildBelow_succ_eq]
    refine ((openCell_kept hext h allowed a).mapError _).bind fun o _ => ?_
    refine (Kept.mapM fun e _ => ?_).bind fun args _ => (Kept.mapM fun t _ => hread t).bind
      fun body _ => .refl _
    obtain ⟨name, v⟩ := e
    cases v with
    | scalar s => exact .refl _
    | nested t => exact (hread t).map _

theorem rebuild_kept (hext : large.Extends small) (h : Heap) (policy : Policy) (root : Address) :
    Kept (h.rebuild small policy root) (h.rebuild large policy root) :=
  rebuildBelow_kept hext h _ _ none root

/-! ## the check of heaps -/

/-- two corpora have the same shapes for the kinds of all cells -/
def SameShapes (h : Heap) (large small : Corpus) : Prop := ∀ (a : Address) (c : Cell),
  h.cells[a]? = some c → large.shape? c.kind = small.shape? c.kind

section
variable {h : Heap}

theorem expand_congr (hs : h.SameShapes large small) (r : Reach) :
    h.expand large r = h.expand small r := by
  unfold expand
  cases hget : h.get r.address with
  | error fault => rfl
  | ok c =>
    have hbelow : h.below large c = h.below small c := by
      rw [below, below, hs r.address c (get_eq_ok.mp hget)]
    show (if _ then _ else h.below large c) = if _ then _ else h.below small c
    rw [hbelow]

theorem walk_congr (hs : h.SameShapes large small) (seen : Array Bool) (stack : List Reach) :
    h.walk large seen stack = h.walk small seen stack := by
  fun_induction walk h small seen stack with
  | case1 seen => rw [walk]
  | case2 seen r rest hr hseen => rw [walk, dif_pos hr, dif_pos hseen]
  | case3 seen r rest hr hseen f hf =>
    rw [walk, dif_pos hr, dif_neg hseen, expand_congr hs, hf]
  | case4 seen r rest hr hseen children hc ih =>
    rw [walk, dif_pos hr, dif_neg hseen, expand_congr hs, hc]
    exact ih
  | case5 seen r rest hr => rw [walk, dif_neg hr]

theorem checkTree_congr (hs : h.SameShapes large small) : h.checkTree large = h.checkTree small := by
  unfold checkTree
  simp only [walk_congr hs]

theorem checkCell_kept (hext : large.Extends small) (h : Heap) (a : Address) (c : Cell) :
    Kept (h.checkCell small a c) (h.checkCell large a c) := by
  unfold checkCell
  cases hs : small.shape? c.kind with
  | none => exact .of_error _ _
  | some shape =>
    rw [hext c.kind shape hs]
    exact .refl _

/-- a heap of which all kinds have shapes has the same ones in an extension -/
theorem Typed.sameShapes (hext : large.Extends small) (ht : h.Typed small) :
    h.SameShapes large small := by
  intro a c hc
  obtain ⟨shape, hs, _⟩ := ht c (mem_cells_iff.mpr ⟨a, hc⟩)
  rw [hs, hext c.kind shape hs]

theorem check_kept (hext : large.Extends small) (h : Heap) :
    Kept (h.check small) (h.check large) := by
  intro _ hok
  have hsame := (wellFormed_of_check hok).typed.sameShapes hext
  obtain ⟨hsentinel, hcells, htree⟩ := check_eq_ok.mp hok
  refine check_eq_ok.mpr ⟨hsentinel, fun a c ha hc => ?_, ?_⟩
  · exact checkCell_kept hext h a c () (hcells a c ha hc)
  · rw [checkTree_congr hsame, htree]

end

/-! ## records -/

theorem ofJson_cell_kept (hext : large.Extends small) (v : Json) :
    Kept (Cell.ofJson small v) (Cell.ofJson large v) := by
  refine (Kept.refl _).bind fun name _ => Kept.bind ?_ fun shape _ => .refl _
  cases hs : small.shapeOf? name with
  | none => exact .of_error _ _
  | some shape =>
    rw [hext.shapeOf? hs]
    exact .refl _

theorem readCells_kept (hext : large.Extends small) (a : Address) (records : List Json) :
    Kept (readCells small a records) (readCells large a records) := by
  induction records generalizing a with
  | nil => exact .refl _
  | cons v records ih =>
    exact ((ofJson_cell_kept hext v).mapError _).bind fun c _ => (ih _).bind fun cs _ => .refl _

theorem ofJson_kept (hext : large.Extends small) (v : Json) :
    Kept (Heap.ofJson small v) (Heap.ofJson large v) := by
  unfold Heap.ofJson
  cases v.items? with
  | none => exact .refl _
  | some records =>
    refine ((readCells_kept hext _ records).mapError _).bind fun cells _ => ?_
    exact ((check_kept hext ⟨cells.toArray⟩).mapError _).bind fun _ _ => .refl _

end Heap

end

/-! ## the law -/

/-- **A corpus that has all kinds of another with the same shapes keeps every success.** A tree that
is accepted stays accepted and has the same heap, a heap that is accepted stays accepted and is read
as the same tree from every address, and a record is decoded into the same heap. -/
theorem Corpus.extension_keeps {large small : Corpus} (hext : large.Extends small) :
    (∀ (p : Policy) (n : Node), n.check small p = .ok () → n.check large p = .ok ()) ∧
    (∀ (p : Policy) (n : Node) (h : Heap) (root : Address),
      n.flatten small p = .ok (h, root) → n.flatten large p = .ok (h, root)) ∧
    (∀ (p : Policy) (h : Heap) (root : Address) (n : Node),
      h.rebuild small p root = .ok n → h.rebuild large p root = .ok n) ∧
    (∀ h : Heap, h.check small = .ok () → h.check large = .ok ()) ∧
    ∀ (v : Json) (h : Heap), Heap.ofJson small v = .ok h → Heap.ofJson large v = .ok h :=
  ⟨fun p n => Node.check_kept hext p n (), fun p n h root => Node.flatten_kept hext p n (h, root),
    fun p h root n => Heap.rebuild_kept hext h p root n, fun h => Heap.check_kept hext h (),
    fun v h => Heap.ofJson_kept hext v h⟩

/-! ## calls as a small corpus -/

namespace Sample

/-- calls with parameters, without any other statements -/
def callCorpus : Corpus where
  shapes := Corpus.builtInShapes.filter fun s => [Kind.nothing, .parameterApplication, .coordinate,
    .identifier, .point, .tool, .execute].contains s.kind
  sorted := by decide
  consistent := .of_faults (by decide) (by decide) (by decide)

/-- a call with a place as its parameter -/
def call : Node :=
  (int (.ofKind "execute") "sequence_id" 7).withStatement
    (sub (str (.ofKind "parameter_application") "label" "parent") "data_value"
      (place 1 (.float half)))

/-- its heap -/
def callHeap : Heap where
  cells := #[.sentinel,
    ⟨.execute, .nothing, .nothing, 2, ⟨[("sequence_id", .scalar (.integer 7))], by decide⟩⟩,
    ⟨.parameterApplication, .root, .nothing, 3,
      ⟨[("data_value", .nested 3), ("label", .scalar (.string "parent"))], by decide⟩⟩,
    ⟨.coordinate, 2, .nothing, .nothing, ⟨[("x", .scalar (.integer 1)), ("y", .scalar (.integer 0)),
      ("z", .scalar (.float half))], by decide⟩⟩]

theorem builtIn_extends_callCorpus : Corpus.builtIn.Extends callCorpus :=
  Corpus.extends_of_subset (by decide)

theorem call_kept : Corpus.builtIn.Extends callCorpus ∧ callCorpus.size < Corpus.builtIn.size ∧
    Sample.call.check Corpus.builtIn .default = .ok () ∧
    Sample.call.flatten Corpus.builtIn .default = .ok (callHeap, .root) ∧
    callHeap.rebuild Corpus.builtIn .default .root = .ok Sample.call ∧
    callHeap.check Corpus.builtIn = .ok () ∧
    Heap.ofJson Corpus.builtIn callHeap.toJson = .ok callHeap := by
  obtain ⟨hcheck, hflat, hback, hheap, hread⟩ :=
    Corpus.extension_keeps builtIn_extends_callCorpus
  have hok : callHeap.check callCorpus = .ok () := by decide +kernel
  have hfits : callHeap.Fits := Heap.fits_of_check hok (by decide)
  refine ⟨builtIn_extends_callCorpus, by decide, hcheck _ _ rfl, hflat _ _ _ _ ?_, hback _ _ _ _ ?_,
    hheap _ hok, hread _ _ ?_⟩
  · decide +kernel
  · rfl
  · rw [Heap.ofJson_toJson (Heap.wellFormed_of_check hok).typed hfits, hok]
    rfl

end Sample

end ScriptHeap
