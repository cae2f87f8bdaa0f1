import ScriptHeap.Proofs.Walk
/-!
# The check of one cell

* `Heap.CellSound`     what the check of a cell asks for;
* `Heap.checkCell_eq_ok`   the check accepts exactly the sound cells;
* `Heap.CellLinked`    the same without asking that arguments are there and of the right kinds;
* `Heap.checkCell_of_linked`   the check of such a cell finds nothing else.
-/

namespace ScriptHeap

namespace Heap

/-! ## sound cells -/

/-- the links of a cell stay within the heap, its arguments are the declared ones and of their types,
and its body is what the rule says -/
structure CellSound (h : Heap) (shape : KindShape) (c : Cell) : Prop where
  parent : c.parent < h.size
  next : c.next < h.size
  body : c.body < h.size
  names : ∀ name, (c.arg? name).isSome ↔ (shape.arg? name).isSome
  scalars : ∀ spec ∈ shape.args, spec.type.isNode = false →
    ∃ s, c.arg? spec.name = some (.scalar s) ∧ spec.type.accepts s = true
  nodes : ∀ spec ∈ shape.args, ∀ kinds, spec.type = .node kinds → ∃ b d,
    c.arg? spec.name = some (.nested b) ∧ b ≠ .nothing ∧ h.cells[b]? = some d ∧ d.kind ∈ kinds
  primary : ∀ name, shape.body = .primary name → c.arg? name = some (.nested c.body)
  leaf : shape.body = .none → c.body = .nothing

/-- the value of a declared argument, if there is one, is of the declared sort -/
def ArgLinked (h : Heap) (spec : ArgSpec) : Arg Address → Prop
  | .scalar s => spec.type.accepts s = true
  | .nested b => spec.type.isNode = true ∧ b ≠ .nothing ∧ b < h.size

/-- the same without asking that arguments are there and of the right kinds -/
structure CellLinked (h : Heap) (shape : KindShape) (c : Cell) : Prop where
  parent : c.parent < h.size
  next : c.next < h.size
  body : c.body < h.size
  declared : ∀ name, shape.arg? name = none → c.arg? name = none
  args : ∀ spec ∈ shape.args, ∀ v, c.arg? spec.name = some v → h.ArgLinked spec v
  primary : ∀ name, shape.body = .primary name →
    c.body = ((c.arg? name).bind Arg.nested?).getD .nothing
  leaf : shape.body = .none → c.body = .nothing

/-! ## the parts of the check -/

section
variable {h : Heap} {a : Address} {c : Cell} {shape : KindShape} {spec : ArgSpec}

theorem checkLinks_eq_ok : h.checkLinks a c = .ok () ↔
    c.parent < h.size ∧ c.next < h.size ∧ c.body < h.size := by
  have hfind : [LinkField.parent, .next, .body].find? (fun field => decide (h.size ≤ c.link field))
      = none ↔ c.parent < h.size ∧ c.next < h.size ∧ c.body < h.size := by
    rw [List.find?_eq_none]
    simp only [List.forall_mem_cons, decide_eq_true_eq, Nat.not_le]
    exact ⟨fun ⟨hp, hn, hb, _⟩ => ⟨hp, hn, hb⟩,
      fun ⟨hp, hn, hb⟩ => ⟨hp, hn, hb, nofun⟩⟩
  rw [← hfind, checkLinks]
  split
  · next hf => exact iff_of_true rfl hf
  · next field hf =>
    rw [hf]
    exact ⟨nofun, nofun⟩

theorem checkNames_eq_ok : checkNames a c shape = .ok () ↔
    ∀ name, shape.arg? name = none → c.arg? name = none := by
  show _ ↔ ∀ name, shape.arg? name = none → c.args.find? name = none
  rw [← KindShape.undeclared?_names_eq_none_iff, checkNames]
  split <;> simp_all

theorem checkTarget_eq_ok {name : String} {kinds : List Kind} {b : Address} :
    h.checkTarget a name kinds b = .ok () ↔
      b ≠ .nothing ∧ ∃ d, h.cells[b]? = some d ∧ d.kind ∈ kinds := by
  unfold checkTarget
  split
  · next hsize =>
    refine ⟨nofun, fun ⟨_, d, hd, _⟩ => ?_⟩
    exact absurd (lt_size_of_getElem? hd) (Nat.not_lt.mpr hsize)
  · split
    · next hb => exact ⟨nofun, fun h => absurd hb h.1⟩
    · next hb =>
      rw [bind_eq_ok]
      constructor
      · intro ⟨d, hd, hk⟩
        split at hk
        · next hmem => exact ⟨hb, d, get_eq_ok.mp hd, List.contains_iff_mem.mp hmem⟩
        · cases hk
      · intro ⟨_, d, hd, hk⟩
        exact ⟨d, get_eq_ok.mpr hd, if_pos (List.contains_iff_mem.mpr hk)⟩

theorem checkTarget_eq_error {name : String} {kinds : List Kind} {b : Address} {f : Corruption}
    (hb : b ≠ .nothing) (hlt : b < h.size) (hf : h.checkTarget a name kinds b = .error f) :
    Lacking f := by
  rw [checkTarget, if_neg (Nat.not_le.mpr hlt), if_neg hb] at hf
  rcases bind_eq_error.mp hf with hget | ⟨d, _, hk⟩
  · exact absurd (get_eq_error hget).1 (Nat.not_le.mpr hlt)
  · split at hk
    · cases hk
    · cases hk
      exact .inr ⟨_, _, rfl⟩

/-- the check of an argument by what the cell holds -/
theorem checkArg_eq : h.checkArg a c spec = match c.arg? spec.name with
    | none => .error ⟨a, .missingArg spec.name⟩
    | some (.scalar s) =>
      if spec.type.accepts s then .ok () else .error ⟨a, .argTypeMismatch spec.name spec.type⟩
    | some (.nested b) =>
      match spec.type with
      | .node kinds => h.checkTarget a spec.name kinds b
      | type => .error ⟨a, .argTypeMismatch spec.name type⟩ := by
  unfold checkArg
  rcases c.arg? spec.name with _ | (s | b)
  · rfl
  · cases spec.type <;> rfl
  · cases spec.type <;> rfl

theorem checkArg_scalar_eq_ok (ht : spec.type.isNode = false) : h.checkArg a c spec = .ok () ↔
    ∃ s, c.arg? spec.name = some (.scalar s) ∧ spec.type.accepts s = true := by
  rw [checkArg_eq]
  rcases hv : c.arg? spec.name with _ | (s | b)
  · simp
  · simp
  · refine ⟨fun h => ?_, fun ⟨s, heq, _⟩ => (by cases heq)⟩
    cases htype : spec.type with
    | node kinds =>
      rw [htype] at ht
      cases ht
    | _ =>
      rw [htype] at h
      cases h

theorem checkArg_node_eq_ok {kinds : List Kind} (ht : spec.type = .node kinds) :
    h.checkArg a c spec = .ok () ↔ ∃ b d, c.arg? spec.name = some (.nested b) ∧ b ≠ .nothing ∧
      h.cells[b]? = some d ∧ d.kind ∈ kinds := by
  rw [checkArg_eq]
  rcases hv : c.arg? spec.name with _ | (s | b)
  · simp
  · simp [ht, ArgType.accepts_node]
  · rw [ht]
    show h.checkTarget a spec.name kinds b = _ ↔ _
    rw [checkTarget_eq_ok]
    constructor
    · intro ⟨hb, d, hd, hk⟩
      exact ⟨b, d, rfl, hb, hd, hk⟩
    · intro ⟨b', d, heq, hb, hd, hk⟩
      cases heq
      exact ⟨hb, d, hd, hk⟩

theorem checkBody_eq_ok {rule : BodyRule} : checkBody a c rule = .ok () ↔
    (∀ name, rule = .primary name → c.body = ((c.arg? name).bind Arg.nested?).getD .nothing) ∧
      (rule = .none → c.body = .nothing) := by
  cases rule with
  | block kinds => exact ⟨fun _ => ⟨nofun, nofun⟩, fun _ => rfl⟩
  | primary name =>
    rw [checkBody]
    by_cases hb : c.body = ((c.arg? name).bind Arg.nested?).getD .nothing
    · rw [if_pos hb]
      refine ⟨fun _ => ⟨fun name' hname => ?_, nofun⟩, fun _ => rfl⟩
      cases hname
      exact hb
    · rw [if_neg hb]
      exact ⟨nofun, fun h => absurd (h.1 name rfl) hb⟩
  | none =>
    rw [checkBody]
    by_cases hb : c.body = .nothing
    · rw [if_pos hb]
      exact ⟨fun _ => ⟨nofun, fun _ => hb⟩, fun _ => rfl⟩
    · rw [if_neg hb]
      exact ⟨nofun, fun h => absurd (h.2 rfl) hb⟩

/-! ## the whole check -/

theorem checkCell_eq {corpus : Corpus} (hs : corpus.shape? c.kind = some shape) :
    h.checkCell corpus a c = h.checkLinks a c >>= fun _ => checkNames a c shape >>= fun _ =>
      shape.args.forM (h.checkArg a c) >>= fun _ => checkBody a c shape.body := by
  rw [checkCell, hs]

/-- the declared arguments are there, and no others -/
theorem names_of_declared (hu : ∀ name, shape.arg? name = none → c.arg? name = none)
    (hd : ∀ spec ∈ shape.args, ∃ v, c.arg? spec.name = some v) (name : String) :
    (c.arg? name).isSome ↔ (shape.arg? name).isSome := by
  cases hspec : shape.arg? name with
  | none => simp [hu name hspec]
  | some spec =>
    obtain ⟨hmem, rfl⟩ := KindShape.mem_args_of_arg? hspec
    obtain ⟨v, hv⟩ := hd spec hmem
    rw [hv]
    exact iff_of_true rfl rfl

/-- a check that went through has seen a sound cell -/
theorem cellSound_of_checkCell {corpus : Corpus} (hs : corpus.shape? c.kind = some shape)
    (hok : h.checkCell corpus a c = .ok ()) : h.CellSound shape c := by
  rw [checkCell_eq hs] at hok
  obtain ⟨_, hlinks, hok⟩ := bind_eq_ok.mp hok
  obtain ⟨_, hnames, hok⟩ := bind_eq_ok.mp hok
  obtain ⟨_, hargs, hbody⟩ := bind_eq_ok.mp hok
  rw [checkLinks_eq_ok] at hlinks
  rw [checkNames_eq_ok] at hnames
  rw [forM_eq_ok] at hargs
  rw [checkBody_eq_ok] at hbody
  have hscalars : ∀ spec ∈ shape.args, spec.type.isNode = false →
      ∃ s, c.arg? spec.name = some (.scalar s) ∧ spec.type.accepts s = true :=
    fun spec hspec ht => (checkArg_scalar_eq_ok ht).mp (hargs spec hspec)
  have hnodes : ∀ spec ∈ shape.args, ∀ kinds, spec.type = .node kinds → ∃ b d,
      c.arg? spec.name = some (.nested b) ∧ b ≠ .nothing ∧ h.cells[b]? = some d ∧
        d.kind ∈ kinds :=
    fun spec hspec kinds ht => (checkArg_node_eq_ok ht).mp (hargs spec hspec)
  refine ⟨hlinks.1, hlinks.2.1, hlinks.2.2, ?_, hscalars, hnodes, ?_, hbody.2⟩
  · refine names_of_declared hnames fun spec hspec => ?_
    cases ht : spec.type.isNode with
    | false =>
      obtain ⟨s, hv, _⟩ := hscalars spec hspec ht
      exact ⟨_, hv⟩
    | true =>
      obtain ⟨kinds, hk⟩ := ArgType.isNode_iff.mp ht
      obtain ⟨b, _, hv, _⟩ := hnodes spec hspec kinds hk
      exact ⟨_, hv⟩
  · intro name hp
    obtain ⟨spec, kinds, hspec, hk⟩ := Corpus.exists_primary hs hp
    obtain ⟨hmem, rfl⟩ := KindShape.mem_args_of_arg? hspec
    obtain ⟨b, _, hv, _⟩ := hnodes spec hmem kinds hk
    have hb := hbody.1 _ hp
    rw [hv] at hb
    rw [hv, hb]
    rfl

theorem CellSound.declared (hsound : h.CellSound shape c) {name : String}
    (hname : shape.arg? name = none) : c.arg? name = none := by
  have hiff := hsound.names name
  rw [hname] at hiff
  exact Option.not_isSome_iff_eq_none.mp fun h => absurd (hiff.mp h) (by simp)

theorem CellSound.checkCell {corpus : Corpus} (hsound : h.CellSound shape c)
    (hs : corpus.shape? c.kind = some shape) : h.checkCell corpus a c = .ok () := by
  have hnames : checkNames a c shape = .ok () :=
    checkNames_eq_ok.mpr fun _ hname => hsound.declared hname
  have hargs : shape.args.forM (h.checkArg a c) = .ok () := forM_eq_ok.mpr fun spec hspec => by
    cases ht : spec.type.isNode with
    | false => exact (checkArg_scalar_eq_ok ht).mpr (hsound.scalars spec hspec ht)
    | true =>
      obtain ⟨kinds, hk⟩ := ArgType.isNode_iff.mp ht
      exact (checkArg_node_eq_ok hk).mpr (hsound.nodes spec hspec kinds hk)
  have hbody : checkBody a c shape.body = .ok () := by
    refine checkBody_eq_ok.mpr ⟨fun name hp => ?_, hsound.leaf⟩
    rw [hsound.primary name hp]
    rfl
  have hlinks := checkLinks_eq_ok (a := a).mpr ⟨hsound.parent, hsound.next, hsound.body⟩
  rw [checkCell_eq hs]
  exact bind_eq_ok.mpr ⟨(), hlinks, bind_eq_ok.mpr ⟨(), hnames, bind_eq_ok.mpr ⟨(), hargs, hbody⟩⟩⟩

/-- the check of a cell accepts exactly the sound cells of registered kinds -/
theorem checkCell_eq_ok {corpus : Corpus} : h.checkCell corpus a c = .ok () ↔
    ∃ shape, corpus.shape? c.kind = some shape ∧ h.CellSound shape c := by
  constructor
  · intro hok
    cases hs : corpus.shape? c.kind with
    | none =>
      rw [checkCell, hs] at hok
      cases hok
    | some shape => exact ⟨shape, rfl, cellSound_of_checkCell hs hok⟩
  · intro ⟨shape, hs, hsound⟩
    exact hsound.checkCell hs

/-- the check of a cell with the right links finds at most a lack -/
theorem checkCell_of_linked {corpus : Corpus} (hs : corpus.shape? c.kind = some shape)
    (hl : h.CellLinked shape c) {f : Corruption} (hf : h.checkCell corpus a c = .error f) :
    Lacking f := by
  rw [checkCell_eq hs, checkLinks_eq_ok.mpr ⟨hl.parent, hl.next, hl.body⟩] at hf
  change (checkNames a c shape >>= _) = _ at hf
  rw [checkNames_eq_ok.mpr hl.declared] at hf
  change (shape.args.forM (h.checkArg a c) >>= _) = _ at hf
  rcases bind_eq_error.mp hf with hf | ⟨_, _, hf⟩
  · obtain ⟨spec, hspec, hf⟩ := forM_eq_error hf
    rw [checkArg_eq] at hf
    cases hv : c.arg? spec.name with
    | none =>
      rw [hv] at hf
      cases hf
      exact .inl ⟨_, rfl⟩
    | some v =>
      have hlinked := hl.args spec hspec v hv
      rw [hv] at hf
      cases v with
      | scalar s =>
        change (if spec.type.accepts s = true then _ else _) = _ at hf
        have hacc : spec.type.accepts s = true := hlinked
        rw [if_pos hacc] at hf
        cases hf
      | nested b =>
        obtain ⟨ht, hb, hlt⟩ := hlinked
        obtain ⟨kinds, hk⟩ := ArgType.isNode_iff.mp ht
        rw [hk] at hf
        exact checkTarget_eq_error hb hlt hf
  · rw [checkBody_eq_ok.mpr ⟨hl.primary, hl.leaf⟩] at hf
    cases hf

end

end Heap

end ScriptHeap
