import ScriptHeap.Proofs.FlattenedCheck
/-!
# The depth limit

* `AgreesUnless`       two computations have the same outcome, unless the first has a certain fault;
* `Node.checkBelow_agrees`, `Node.flattenFault?_agrees`, `Heap.rebuildBelow_agrees`   more levels
                       change nothing, unless there were too few;
* `Node.Valid.depth_le`, `Node.Valid.of_depth_le`   a tree that is valid with some levels is valid
                       with as many as it is deep, and with no fewer;
* `Node.depth_limit`   the limit decides exactly, and decides nothing else.
-/

namespace ScriptHeap

/-! ## outcomes that a fault hides -/

/-- the outcomes are the same, unless the first is a certain fault -/
def AgreesUnless {ε α : Type} (fault : ε) (x y : Except ε α) : Prop := x = .error fault ∨ x = y

namespace AgreesUnless

section
variable {ε δ α β : Type} {fault : ε}

theorem refl (x : Except ε α) : AgreesUnless fault x x := .inr rfl

theorem eq_of_ne {x y : Except ε α} (h : AgreesUnless fault x y) (hne : x ≠ .error fault) : y = x :=
  (h.resolve_left hne).symm

theorem bind {x y : Except ε α} {f g : α → Except ε β} (hxy : AgreesUnless fault x y)
    (hfg : ∀ a, AgreesUnless fault (f a) (g a)) : AgreesUnless fault (x >>= f) (y >>= g) := by
  rcases hxy with rfl | rfl
  · exact .inl rfl
  · cases x with
    | error e => exact .inr rfl
    | ok a => exact hfg a

theorem map {x y : Except ε α} (hxy : AgreesUnless fault x y) (f : α → β) :
    AgreesUnless fault (x.map f) (y.map f) := by
  rcases hxy with rfl | rfl
  · exact .inl rfl
  · exact .inr rfl

theorem mapM {f g : α → Except ε β} {l : List α}
    (hfg : ∀ a ∈ l, AgreesUnless fault (f a) (g a)) : AgreesUnless fault (l.mapM f) (l.mapM g) := by
  induction l with
  | nil => exact refl _
  | cons a l ih =>
    obtain ⟨ha, hl⟩ := List.forall_mem_cons.mp hfg
    rw [List.mapM_cons, List.mapM_cons]
    exact ha.bind fun b => (ih hl).bind fun bs => refl _

theorem forM {f g : α → Except ε Unit} {l : List α}
    (hfg : ∀ a ∈ l, AgreesUnless fault (f a) (g a)) : AgreesUnless fault (l.forM f) (l.forM g) := by
  induction l with
  | nil => exact refl _
  | cons a l ih =>
    obtain ⟨ha, hl⟩ := List.forall_mem_cons.mp hfg
    show AgreesUnless fault (f a >>= fun _ => l.forM f) (g a >>= fun _ => l.forM g)
    exact ha.bind fun _ => ih hl

end

end AgreesUnless

/-! ## more levels -/

section
variable {corpus : Corpus} {limit limit' levels levels' : Nat} {allowed : Option (List Kind)}

/-- more levels do not change the check of a tree, unless there were too few -/
theorem Node.checkBelow_agrees (hle : levels ≤ levels') (trail : NodePath) (n : Node) :
    AgreesUnless (.depthExceeded limit) (checkBelow corpus limit levels trail allowed n)
      (checkBelow corpus limit' levels' trail allowed n) := by
  induction levels generalizing levels' trail allowed n with
  | zero => exact .inl rfl
  | succ levels ih =>
    cases levels' with
    | zero => exact absurd hle (Nat.not_succ_le_zero levels)
    | succ levels' =>
      exact (AgreesUnless.refl _).bind fun visits => AgreesUnless.forM fun v _ =>
        ih (Nat.le_of_succ_le_succ hle) (v.step :: trail) v.node

variable (corpus limit limit') in
/-- more levels do not change the fault of flattening, unless there were too few -/
theorem Node.flattenFault?_agrees (hle : levels ≤ levels') (n : Node) :
    n.flattenFault? corpus limit levels = some (.depthExceeded limit) ∨
      n.flattenFault? corpus limit levels = n.flattenFault? corpus limit' levels' := by
  induction levels generalizing levels' n with
  | zero => exact .inl rfl
  | succ levels ih =>
    cases levels' with
    | zero => exact absurd hle (Nat.not_succ_le_zero levels)
    | succ levels' =>
      rw [flattenFault?, flattenFault?]
      cases corpus.shapeOf? n.kind with
      | none => exact .inr rfl
      | some shape =>
        show List.findSome? _ _ = _ ∨ List.findSome? _ _ = List.findSome? _ _
        -- the first part that has a fault decides
        induction n.parts shape with
        | nil => exact .inr rfl
        | cons p ps ihps =>
          rw [List.findSome?_cons, List.findSome?_cons]
          rcases ih (Nat.le_of_succ_le_succ hle) p.2 with h | h
          · rw [h]
            exact .inl rfl
          · rw [← h]
            cases p.2.flattenFault? corpus limit levels with
            | none => exact ihps
            | some fault => exact .inr rfl

/-- more levels do not change what is read from a heap, unless there were too few -/
theorem Heap.rebuildBelow_agrees (hle : levels ≤ levels') (h : Heap) (a : Address) :
    AgreesUnless (.depthExceeded limit) (h.rebuildBelow corpus limit levels allowed a)
      (h.rebuildBelow corpus limit' levels' allowed a) := by
  induction levels generalizing levels' allowed a with
  | zero => exact .inl rfl
  | succ levels ih =>
    cases levels' with
    | zero => exact absurd hle (Nat.not_succ_le_zero levels)
    | succ levels' =>
      have hread : ∀ t : Target, AgreesUnless (.depthExceeded limit)
          (h.rebuildBelow corpus limit levels (some t.allowed) t.address)
          (h.rebuildBelow corpus limit' levels' (some t.allowed) t.address) := fun t =>
        ih (Nat.le_of_succ_le_succ hle) t.address
      rw [rebuildBelow_succ_eq, rebuildBelow_succ_eq]
      refine (AgreesUnless.refl _).bind fun o => ?_
      refine (AgreesUnless.mapM fun e _ => ?_).bind fun args =>
        (AgreesUnless.mapM fun t _ => hread t).bind fun body => .refl _
      obtain ⟨name, v⟩ := e
      cases v with
      | scalar s => exact .refl _
      | nested t => exact (hread t).map _

end

/-! ## depth -/

namespace Node

theorem depth_le_iff {n : Node} {levels : Nat} :
    n.depth ≤ levels + 1 ↔ ∀ c ∈ n.children, c.depth ≤ levels := by
  have hmax : (n.children.map depth).max?.getD 0 ≤ levels ↔
      ∀ d ∈ n.children.map depth, d ≤ levels := by
    cases hm : (n.children.map depth).max? with
    | none => simp [List.max?_eq_none_iff.mp hm]
    | some d => exact List.max?_le_iff hm
  rw [depth_eq, Nat.add_comm 1, Nat.add_le_add_iff_right, hmax, List.forall_mem_map]

theorem depth_pos (n : Node) : 0 < n.depth := by
  rw [depth_eq]
  omega

section
variable {corpus : Corpus} {n : Node}

/-- a valid tree is no deeper than there are levels -/
theorem Valid.depth_le {levels : Nat} {allowed : Option (List Kind)} (hn : n.Ordered)
    (hv : n.Valid corpus levels allowed) : n.depth ≤ levels := by
  induction levels generalizing n allowed with
  | zero => cases hv
  | succ levels ih =>
    obtain ⟨shape, _, _, hf⟩ := hv
    obtain ⟨hsorted, hchildren⟩ := hn
    refine depth_le_iff.mpr fun c hc => ?_
    obtain ⟨kinds, hvalid⟩ := hf.of_mem_children hsorted hc
    exact ih (hchildren c hc) hvalid

/-- a valid tree is valid with as many levels as it is deep -/
theorem Valid.of_depth_le {wide levels : Nat} {allowed : Option (List Kind)}
    (hv : n.Valid corpus wide allowed) (hd : n.depth ≤ levels) : n.Valid corpus levels allowed := by
  induction levels generalizing n wide allowed with
  | zero => exact absurd hd (Nat.not_le_of_gt n.depth_pos)
  | succ levels ih =>
    cases wide with
    | zero => cases hv
    | succ wide =>
      obtain ⟨shape, hs, hk, hf⟩ := hv
      exact ⟨shape, hs, hk, hf.imp fun _ c hc h => ih h (depth_le_iff.mp hd c hc)⟩

/-- a valid tree that has a heap is no deeper than there were levels for its cells -/
theorem depth_le_of_flattenFault? {limit wide levels : Nat} {allowed : Option (List Kind)}
    (hn : n.Ordered) (hv : n.Valid corpus wide allowed)
    (hf : n.flattenFault? corpus limit levels = none) : n.depth ≤ levels := by
  induction levels generalizing n wide allowed with
  | zero => cases hf
  | succ levels ih =>
    cases wide with
    | zero => cases hv
    | succ wide =>
      obtain ⟨shape, hs, _, hfits⟩ := hv
      obtain ⟨hsorted, hchildren⟩ := hn
      rw [flattenFault?, hs] at hf
      change (n.parts shape).findSome? _ = none at hf
      rw [List.findSome?_eq_none_iff] at hf
      have hregistered := Corpus.shape?_of_shapeOf? hs
      refine depth_le_iff.mpr fun c hc => ?_
      obtain ⟨p, hp, rfl⟩ := List.mem_map.mp
        ((parts_perm_children hregistered hfits hsorted).mem_iff.mpr hc)
      obtain ⟨kinds, hvalid⟩ := hfits.of_mem_children hsorted hc
      exact ih (hchildren _ hc) hvalid (hf p hp)

/-! ## the limit -/

theorem check_agrees {p q : Policy} (hle : p.maxDepth ≤ q.maxDepth) :
    AgreesUnless (.depthExceeded p.maxDepth) (n.check corpus p) (n.check corpus q) :=
  checkBelow_agrees hle _ n

theorem flatten_agrees {p q : Policy} (hle : p.maxDepth ≤ q.maxDepth)
    (hlinkage : p.linkage = q.linkage) :
    AgreesUnless (.depthExceeded p.maxDepth) (n.flatten corpus p) (n.flatten corpus q) := by
  rw [flatten_eq, flatten_eq, hlinkage]
  rcases flattenFault?_agrees corpus p.maxDepth q.maxDepth hle n with h | h
  · rw [h]
    exact .inl rfl
  · rw [h]
    exact .refl _

/-- a valid tree that is too deep fails for that reason: with enough levels it would not fail, and
only too few levels make a difference -/
theorem exceeds_of_valid {p : Policy} {wide : Nat} (hn : n.Ordered)
    (hv : n.Valid corpus wide none) (hd : p.maxDepth < n.depth) :
    n.check corpus p = .error (.depthExceeded p.maxDepth) ∧
      n.flatten corpus p = .error (.depthExceeded p.maxDepth) := by
  let q := p.withMaxDepth n.depth
  have hle : p.maxDepth ≤ q.maxDepth := Nat.le_trans (Nat.le_of_lt hd) (Nat.le_max_left _ _)
  have hq : n.Valid corpus q.maxDepth none := hv.of_depth_le (Nat.le_max_left _ _)
  constructor
  · refine (check_agrees hle).resolve_right fun heq => ?_
    rw [check_eq_ok.mpr hq, check_eq_ok] at heq
    exact absurd (heq.depth_le hn) (Nat.not_le_of_gt hd)
  · refine (flatten_agrees hle rfl).resolve_right fun heq => ?_
    rw [flatten_eq_ok.mpr ⟨flattenFault?_of_valid hq, rfl⟩] at heq
    have hf := (flatten_eq_ok.mp heq).1
    exact absurd (depth_le_of_flattenFault? hn hv hf) (Nat.not_le_of_gt hd)

end

end Node

section
variable {corpus : Corpus} {n : Node}

theorem Heap.rebuild_agrees {p q : Policy} (hle : p.maxDepth ≤ q.maxDepth) (h : Heap)
    (root : Address) : AgreesUnless (.depthExceeded p.maxDepth) (h.rebuild corpus p root)
      (h.rebuild corpus q root) :=
  rebuildBelow_agrees hle h root

/-- the heap of a valid tree that is too deep is not read, for that reason -/
theorem Heap.exceeds_of_valid {p : Policy} {linkage : ParentLinkage} {wide : Nat} (hn : n.Ordered)
    (hv : n.Valid corpus wide none) (hd : p.maxDepth < n.depth) :
    (n.heap corpus linkage).rebuild corpus p .root = .error (.depthExceeded p.maxDepth) := by
  let q := (p.withMaxDepth n.depth).withLinkage linkage
  have hle : p.maxDepth ≤ q.maxDepth := Nat.le_trans (Nat.le_of_lt hd) (Nat.le_max_left _ _)
  have hq : n.Valid corpus q.maxDepth none := hv.of_depth_le (Nat.le_max_left _ _)
  refine (rebuild_agrees hle _ _).resolve_right fun heq => ?_
  have hback : (n.heap corpus linkage).rebuild corpus q .root = .ok n :=
    (Node.rebuild_flatten hn hq).2
  rw [hback] at heq
  exact absurd ((valid_of_rebuildBelow heq).depth_le hn) (Nat.not_le_of_gt hd)

/-- **The depth limit** lets a valid tree through exactly if the tree is no deeper: in the check, on
the way to a heap, and on the way back from it; a deeper one fails for that reason. Whatever the tree or
the heap, an outcome that is no such failure is the outcome with every greater limit. -/
theorem Node.depth_limit (corpus : Corpus) :
    (∀ (n : Node) (wide sliced p : Policy) (h : Heap) (root : Address), n.Ordered →
      n.check corpus wide = .ok () → n.flatten corpus sliced = .ok (h, root) →
      (n.depth ≤ p.maxDepth → n.check corpus p = .ok () ∧ (∃ r, n.flatten corpus p = .ok r) ∧
        h.rebuild corpus p root = .ok n) ∧
      (p.maxDepth < n.depth → n.check corpus p = .error (.depthExceeded p.maxDepth) ∧
        n.flatten corpus p = .error (.depthExceeded p.maxDepth) ∧
        h.rebuild corpus p root = .error (.depthExceeded p.maxDepth))) ∧
    ∀ (p : Policy) (m : Nat), p.maxDepth ≤ m →
      (∀ n : Node, n.check corpus p ≠ .error (.depthExceeded p.maxDepth) →
        n.check corpus (p.withMaxDepth m) = n.check corpus p) ∧
      (∀ n : Node, n.flatten corpus p ≠ .error (.depthExceeded p.maxDepth) →
        n.flatten corpus (p.withMaxDepth m) = n.flatten corpus p) ∧
      ∀ (h : Heap) (root : Address), h.rebuild corpus p root ≠ .error (.depthExceeded p.maxDepth) →
        h.rebuild corpus (p.withMaxDepth m) root = h.rebuild corpus p root := by
  refine ⟨fun n wide sliced p h root hn hcheck hflat => ?_, fun p m hm => ?_⟩
  · have hv : n.Valid corpus wide.maxDepth none := check_eq_ok.mp hcheck
    obtain ⟨rfl, rfl⟩ := Prod.mk.inj (flatten_eq_ok.mp hflat).2
    refine ⟨fun hd => ?_, fun hd => ?_⟩
    · have hp : n.Valid corpus p.maxDepth none := hv.of_depth_le hd
      have hp' : n.Valid corpus (p.withLinkage sliced.linkage).maxDepth none := hp
      have hback : (n.heap corpus sliced.linkage).rebuild corpus p .root = .ok n :=
        (rebuild_flatten hn hp').2
      exact ⟨check_eq_ok.mpr hp, ⟨_, (rebuild_flatten hn hp).1⟩, hback⟩
    · obtain ⟨hcheck', hflat'⟩ := exceeds_of_valid hn hv hd
      exact ⟨hcheck', hflat', Heap.exceeds_of_valid hn hv hd⟩
  · have hle : p.maxDepth ≤ (p.withMaxDepth m).maxDepth := Nat.le_trans hm (Nat.le_max_left _ _)
    exact ⟨fun n => (check_agrees hle).eq_of_ne, fun n => (flatten_agrees hle rfl).eq_of_ne,
      fun h root => (Heap.rebuild_agrees hle h root).eq_of_ne⟩

theorem Sample.greeting_depth_limit : Sample.greeting.depth = 3 ∧
    ∃ h root, Sample.greeting.flatten Corpus.builtIn .default = .ok (h, root) ∧
      h.rebuild Corpus.builtIn (Policy.default.withMaxDepth 2) root = .error (.depthExceeded 2) ∧
      h.rebuild Corpus.builtIn (Policy.default.withMaxDepth 3) root = .ok Sample.greeting ∧
      h.rebuild Corpus.builtIn (Policy.default.withMaxDepth 4) root = .ok Sample.greeting := by
  have hdepth : Sample.greeting.depth = 3 := by decide +kernel
  have hcheck : Sample.greeting.check Corpus.builtIn .default = .ok () := rfl
  have hflat := (Node.rebuild_flatten Sample.greeting_ordered (Node.check_eq_ok.mp hcheck)).1
  obtain ⟨hlimit, hmore⟩ := Node.depth_limit Corpus.builtIn
  have htwo := (hlimit _ _ _ (Policy.default.withMaxDepth 2) _ _ Sample.greeting_ordered hcheck
    hflat).2 (Nat.le_of_eq hdepth.symm)
  have hthree := (hlimit _ _ _ (Policy.default.withMaxDepth 3) _ _ Sample.greeting_ordered hcheck
    hflat).1 (Nat.le_of_eq hdepth)
  have hfour := (hmore (Policy.default.withMaxDepth 3) 4 (by decide)).2.2 _ .root
    (by rw [hthree.2.2]; exact nofun)
  exact ⟨hdepth, _, _, hflat, htwo.2.2, hthree.2.2, hfour.trans hthree.2.2⟩

end

end ScriptHeap
