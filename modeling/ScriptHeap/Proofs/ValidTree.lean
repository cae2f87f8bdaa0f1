import ScriptHeap.Node.Check
import ScriptHeap.Proofs.LookUp
import ScriptHeap.Proofs.Outcome
/-!
# Valid trees

* `Admits`             the kinds that a place admits;
* `Node.Fits`          a node has the declared arguments and statements, told by look-ups;
* `Node.Valid`         every node of a tree fits its shape, within so many levels;
* `Node.checkBelow_eq_ok`, `Node.check_eq_ok`   the check accepts exactly the valid trees.
-/

namespace ScriptHeap

/-! ## one node -/

/-- a place admits a kind; the place of the root admits every kind -/
def Admits (allowed : Option (List Kind)) (kind : Kind) : Prop :=
  ∀ kinds, allowed = some kinds → kind ∈ kinds

theorem admits_none (kind : Kind) : Admits none kind := fun _ h => by cases h
theorem admits_some {kinds : List Kind} {kind : Kind} : Admits (some kinds) kind ↔ kind ∈ kinds :=
  ⟨fun h => h kinds rfl, fun h _ hk => by cases hk; exact h⟩

/-- an argument is what its declaration says; `R` is asked of a nested node and the kinds of its
place -/
inductive ArgFits (R : List Kind → Node → Prop) : Option ArgSpec → Option (Arg Node) → Prop
  | absent : ArgFits R none none
  | scalar {spec : ArgSpec} {s : Scalar} (h : spec.type.accepts s = true) :
    ArgFits R (some spec) (some (.scalar s))
  | nested {spec : ArgSpec} {kinds : List Kind} {c : Node} (ht : spec.type = .node kinds)
    (h : R kinds c) : ArgFits R (some spec) (some (.nested c))

theorem ArgFits.imp {R S : List Kind → Node → Prop} {spec : Option ArgSpec} {v : Option (Arg Node)}
    (hRS : ∀ kinds c, v = some (.nested c) → R kinds c → S kinds c) (h : ArgFits R spec v) :
    ArgFits S spec v := by
  cases h with
  | absent => exact .absent
  | scalar h => exact .scalar h
  | nested ht h => exact .nested ht (hRS _ _ rfl h)

namespace Node

/-- a node has the arguments that its shape declares, and statements only if it is a block -/
structure Fits (R : List Kind → Node → Prop) (shape : KindShape) (n : Node) : Prop where
  args : ∀ name, ArgFits R (shape.arg? name) (n.arg? name)
  body : ∀ c ∈ n.body, ∃ kinds, shape.body = .block kinds ∧ R kinds c

theorem Fits.body_eq_nil {R : List Kind → Node → Prop} {shape : KindShape} {n : Node}
    (hf : n.Fits R shape) (hb : shape.isBlock = false) : n.body = [] := by
  refine List.eq_nil_iff_forall_not_mem.mpr fun c hc => ?_
  obtain ⟨kinds, hk, _⟩ := hf.body c hc
  rw [KindShape.isBlock_iff.mpr ⟨kinds, hk⟩] at hb
  cases hb

theorem Fits.imp {R S : List Kind → Node → Prop} {shape : KindShape} {n : Node}
    (hRS : ∀ kinds, ∀ c ∈ n.children, R kinds c → S kinds c) (hf : n.Fits R shape) :
    n.Fits S shape where
  args name := (hf.args name).imp fun kinds c hc => hRS kinds c (mem_children_of_arg? hc)
  body c hc := by
    obtain ⟨kinds, hb, h⟩ := hf.body c hc
    exact ⟨kinds, hb, hRS kinds c (List.mem_append_right _ hc) h⟩

/-- a node below one that fits its shape is what its place asks for -/
theorem Fits.of_mem_children {R : List Kind → Node → Prop} {shape : KindShape} {n : Node}
    (hf : n.Fits R shape) (hn : Entries.Sorted n.args) {c : Node} (hc : c ∈ n.children) :
    ∃ kinds, R kinds c := by
  rcases List.mem_append.mp hc with hc | hc
  · obtain ⟨name, hmem⟩ := mem_argNodes.mp hc
    have hfit := hf.args name
    rw [show n.arg? name = some (.nested c) from Entries.find?_of_mem hn hmem] at hfit
    generalize shape.arg? name = spec? at hfit
    cases hfit with
    | nested _ h => exact ⟨_, h⟩
  · obtain ⟨kinds, _, h⟩ := hf.body c hc
    exact ⟨kinds, h⟩

theorem checkKind_eq_ok {n : Node} {kind : Kind} {allowed : Option (List Kind)} :
    n.checkKind kind allowed = .ok () ↔ Admits allowed kind := by
  cases allowed with
  | none => exact ⟨fun _ => admits_none kind, fun _ => rfl⟩
  | some kinds =>
    rw [admits_some, checkKind]
    split <;> simp_all

theorem checkNames_eq_ok {n : Node} {shape : KindShape} :
    n.checkNames shape = .ok () ↔ ∀ name, shape.arg? name = none → n.arg? name = none := by
  have hnames : (∀ name, shape.arg? name = none → n.arg? name = none) ↔
      shape.undeclared? (n.args.map Prod.fst) = none := by
    rw [KindShape.undeclared?_eq_none_iff]
    exact forall₂_congr fun name _ => Entries.find?_eq_none_iff_not_mem
  rw [hnames, checkNames]
  split <;> simp_all

section
variable {n : Node} {spec : ArgSpec} {specs : List ArgSpec}

theorem checkArgs_scalar {s : Scalar} (hv : n.arg? spec.name = some (.scalar s)) :
    n.checkArgs (spec :: specs) = if spec.type.accepts s then n.checkArgs specs
      else .error (.typeMismatch spec.name spec.type (Arg.scalar s).describe) := by
  rw [checkArgs, hv]
  cases spec.type <;> rfl

theorem checkArgs_nested {c : Node} (hv : n.arg? spec.name = some (.nested c)) :
    n.checkArgs (spec :: specs) = match spec.type with
      | .node kinds => (n.checkArgs specs).map (⟨.arg spec.name, c, kinds⟩ :: ·)
      | type => .error (.typeMismatch spec.name type (Arg.nested c).describe) := by
  rw [checkArgs, hv]
  cases spec.type <;> rfl

/-- the check of the arguments succeeds, with visits that fulfil `P`, when all arguments fit -/
theorem checkArgs_visits {P : List Kind → Node → Prop} :
    (∃ vs, n.checkArgs specs = .ok vs ∧ ∀ v ∈ vs, P v.allowed v.node) ↔
      ∀ spec ∈ specs, ArgFits P (some spec) (n.arg? spec.name) := by
  induction specs with
  | nil => exact ⟨fun _ spec h => absurd h List.not_mem_nil, fun _ => ⟨[], rfl, by simp⟩⟩
  | cons spec specs ih =>
    rw [List.forall_mem_cons, ← ih]
    cases hv : n.arg? spec.name with
    | none =>
      rw [checkArgs, hv]
      refine ⟨fun ⟨_, h, _⟩ => ?_, fun ⟨h, _⟩ => ?_⟩
      · cases h
      · cases h
    | some value =>
      cases value with
      | scalar s =>
        rw [checkArgs_scalar hv]
        constructor
        · intro ⟨vs, hvs, hP⟩
          split at hvs
          · next ha => exact ⟨.scalar ha, vs, hvs, hP⟩
          · cases hvs
        · intro ⟨ha, vs, hvs, hP⟩
          cases ha with
          | scalar ha => exact ⟨vs, by rw [if_pos ha, hvs], hP⟩
      | nested c =>
        rw [checkArgs_nested hv]
        constructor
        · intro ⟨vs, hvs, hP⟩
          split at hvs
          · next kinds ht =>
            obtain ⟨ws, hws, rfl⟩ := map_eq_ok.mp hvs
            rw [List.forall_mem_cons] at hP
            exact ⟨.nested ht hP.1, ws, hws, hP.2⟩
          · cases hvs
        · intro ⟨ha, ws, hws, hP⟩
          cases ha with
          | @nested _ kinds _ ht hc =>
            refine ⟨⟨.arg spec.name, c, kinds⟩ :: ws, ?_, ?_⟩
            · rw [ht, hws]
              rfl
            · exact List.forall_mem_cons.mpr ⟨hc, hP⟩

end

theorem statementVisits_forall {P : List Kind → Node → Prop} {kinds : List Kind} {index : Nat}
    {body : List Node} :
    (∀ v ∈ statementVisits kinds index body, P v.allowed v.node) ↔ ∀ c ∈ body, P kinds c := by
  induction body generalizing index with
  | nil => simp [statementVisits]
  | cons c body ih => rw [statementVisits, List.forall_mem_cons, ih, List.forall_mem_cons]

theorem checkBody_leaf {n : Node} {rule : BodyRule} (h : ∀ kinds, rule ≠ .block kinds) :
    n.checkBody rule
      = if n.body.isEmpty then .ok [] else .error (.unexpectedBody n.body.length) := by
  cases rule with
  | block kinds => exact absurd rfl (h kinds)
  | none => rfl
  | primary name => rfl

theorem checkBody_visits {P : List Kind → Node → Prop} {n : Node} {rule : BodyRule} :
    (∃ vs, n.checkBody rule = .ok vs ∧ ∀ v ∈ vs, P v.allowed v.node) ↔
      ∀ c ∈ n.body, ∃ kinds, rule = .block kinds ∧ P kinds c := by
  by_cases hr : ∃ kinds, rule = .block kinds
  · obtain ⟨kinds, rfl⟩ := hr
    constructor
    · intro ⟨vs, hvs, hP⟩ c hc
      cases hvs
      exact ⟨kinds, rfl, statementVisits_forall.mp hP c hc⟩
    · intro h
      refine ⟨_, rfl, statementVisits_forall.mpr fun c hc => ?_⟩
      obtain ⟨_, hk, hP⟩ := h c hc
      cases hk
      exact hP
  · have hne : ∀ kinds, rule ≠ .block kinds := fun kinds h => hr ⟨kinds, h⟩
    rw [checkBody_leaf hne]
    constructor
    · intro ⟨vs, hvs, _⟩ c hc
      split at hvs
      · next he => rw [List.isEmpty_iff.mp he] at hc; cases hc
      · cases hvs
    · intro h
      cases hb : n.body with
      | nil => exact ⟨[], rfl, by simp⟩
      | cons c body =>
        obtain ⟨kinds, hk, _⟩ := h c (hb ▸ List.mem_cons_self)
        exact absurd hk (hne kinds)

theorem checkShape_eq_ok {n : Node} {shape : KindShape} {allowed : Option (List Kind)}
    {vs : List Visit} :
    n.checkShape shape allowed = .ok vs ↔ Admits allowed shape.kind ∧
      (∀ name, shape.arg? name = none → n.arg? name = none) ∧
      ∃ args statements, n.checkArgs shape.args = .ok args ∧
        n.checkBody shape.body = .ok statements ∧ args ++ statements = vs := by
  rw [← checkKind_eq_ok (n := n), ← checkNames_eq_ok]
  constructor
  · intro h
    obtain ⟨_, hk, h⟩ := bind_eq_ok.mp h
    obtain ⟨_, hn, h⟩ := bind_eq_ok.mp h
    obtain ⟨args, ha, h⟩ := bind_eq_ok.mp h
    obtain ⟨statements, hb, h⟩ := bind_eq_ok.mp h
    cases h
    exact ⟨hk, hn, args, statements, ha, hb, rfl⟩
  · rintro ⟨hk, hn, args, statements, ha, hb, rfl⟩
    show (n.checkKind shape.kind allowed >>= _) = _
    exact bind_eq_ok.mpr ⟨(), hk, bind_eq_ok.mpr ⟨(), hn, bind_eq_ok.mpr ⟨args, ha,
      bind_eq_ok.mpr ⟨statements, hb, rfl⟩⟩⟩⟩

/-- the check of one node succeeds, with visits that fulfil `P`, when the node fits its shape -/
theorem checkAlone_visits {P : List Kind → Node → Prop} {corpus : Corpus}
    {allowed : Option (List Kind)} {n : Node} :
    (∃ vs, n.checkAlone corpus allowed = .ok vs ∧ ∀ v ∈ vs, P v.allowed v.node) ↔
      ∃ shape, corpus.shapeOf? n.kind = some shape ∧ Admits allowed shape.kind ∧
        n.Fits P shape := by
  unfold checkAlone
  cases hs : corpus.shapeOf n.kind with
  | error u =>
    refine ⟨fun ⟨_, h, _⟩ => ?_, fun ⟨shape, h, _⟩ => ?_⟩
    · cases h
    · rw [← Corpus.shapeOf_eq_ok_iff, hs] at h
      cases h
  | ok shape =>
    have hshape := Corpus.shapeOf_eq_ok_iff.mp hs
    have hargs : (∀ name, ArgFits P (shape.arg? name) (n.arg? name)) ↔
        (∀ spec ∈ shape.args, ArgFits P (some spec) (n.arg? spec.name)) ∧
          ∀ name, shape.arg? name = none → n.arg? name = none := by
      rw [KindShape.forall_arg? (P := fun spec name => ArgFits P spec (n.arg? name))
        (Corpus.args_nodup (Corpus.shape?_of_shapeOf? hshape))]
      refine and_congr_right fun _ => forall₂_congr fun name _ => ⟨fun h => ?_, fun h => ?_⟩
      · cases hv : n.arg? name with
        | none => rfl
        | some v => rw [hv] at h; cases h
      · rw [h]
        exact .absent
    constructor
    · intro ⟨vs, hvs, hP⟩
      obtain ⟨hk, hn, args, statements, ha, hb, rfl⟩ :=
        checkShape_eq_ok.mp ((mapError_eq_ok _).mp hvs)
      rw [List.forall_mem_append] at hP
      exact ⟨shape, hshape, hk, hargs.mpr ⟨checkArgs_visits.mp ⟨args, ha, hP.1⟩, hn⟩,
        checkBody_visits.mp ⟨statements, hb, hP.2⟩⟩
    · intro ⟨shape', hs', hk, hf⟩
      obtain rfl := Option.some.inj (hshape.symm.trans hs')
      obtain ⟨hd, hn⟩ := hargs.mp hf.args
      obtain ⟨args, ha, hPa⟩ := checkArgs_visits.mpr hd
      obtain ⟨statements, hb, hPb⟩ := checkBody_visits.mpr hf.body
      exact ⟨args ++ statements, (mapError_eq_ok _).mpr (checkShape_eq_ok.mpr
        ⟨hk, hn, args, statements, ha, hb, rfl⟩), List.forall_mem_append.mpr ⟨hPa, hPb⟩⟩

/-! ## trees -/

/-- a tree of which every node fits its shape, with so many levels left -/
def Valid (corpus : Corpus) : (levels : Nat) → Option (List Kind) → Node → Prop
  | 0, _, _ => False
  | levels + 1, allowed, n => ∃ shape, corpus.shapeOf? n.kind = some shape ∧
      Admits allowed shape.kind ∧ n.Fits (fun kinds c => Valid corpus levels (some kinds) c) shape

theorem checkBelow_eq_ok {corpus : Corpus} {limit levels : Nat} {trail : NodePath}
    {allowed : Option (List Kind)} {n : Node} :
    checkBelow corpus limit levels trail allowed n = .ok () ↔ n.Valid corpus levels allowed := by
  induction levels generalizing trail allowed n with
  | zero => exact ⟨nofun, False.elim⟩
  | succ levels ih =>
    rw [checkBelow, bind_eq_ok, Valid, ← checkAlone_visits]
    refine exists_congr fun vs => and_congr (mapError_eq_ok _) ?_
    rw [forM_eq_ok]
    exact forall₂_congr fun v _ => ih

/-- the check accepts exactly the valid trees -/
theorem check_eq_ok {corpus : Corpus} {policy : Policy} {n : Node} :
    n.check corpus policy = .ok () ↔ n.Valid corpus policy.maxDepth none := checkBelow_eq_ok

end Node

end ScriptHeap
