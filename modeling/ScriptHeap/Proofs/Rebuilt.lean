import ScriptHeap.Corpus.BuiltIn
import ScriptHeap.Heap.Check
import ScriptHeap.Heap.Rebuild
import ScriptHeap.Proofs.Chain
import ScriptHeap.Proofs.ValidTree
import ScriptHeap.Sample
/-!
# Rebuilt trees

* `ArgShows`, `Cell.Shows`   a cell shows a node: the same kind, arguments and statements, where
                       addresses stand for the nodes below;
* `Heap.rebuildBelow_succ`   one level of the reading, in terms of `Cell.Shows`;
* `Heap.valid_of_rebuildBelow`, `Heap.ordered_of_rebuildBelow`   what is read is a valid tree in
                       order, whatever the heap;
* `Heap.check_of_rebuild`   so it passes the check.
-/

namespace ScriptHeap

/-! ## one cell -/

/-- an argument of a cell shows an argument of a node; `R` relates the address of a nested node to
the node and the kinds of its place -/
inductive ArgShows (R : List Kind → Address → Node → Prop) :
    Option ArgSpec → Option (Arg Address) → Option (Arg Node) → Prop
  | absent : ArgShows R none none none
  | scalar {spec : ArgSpec} {s : Scalar} (h : spec.type.accepts s = true) :
    ArgShows R (some spec) (some (.scalar s)) (some (.scalar s))
  | nested {spec : ArgSpec} {kinds : List Kind} {a : Address} {c : Node}
    (ht : spec.type = .node kinds) (ha : a ≠ .nothing) (h : R kinds a c) :
    ArgShows R (some spec) (some (.nested a)) (some (.nested c))

/-- the body of a cell shows the statements of a node -/
inductive BodyShows (h : Heap) (R : List Kind → Address → Node → Prop) (c : Cell) :
    BodyRule → List Node → Prop
  | block {kinds : List Kind} {l : List (Address × Cell)} {body : List Node}
    (hl : h.Follows c.body l) (hb : List.Forall₂ (fun e n => R kinds e.1 n) l body) :
    BodyShows h R c (.block kinds) body
  | primary {name : String} (hp : c.arg? name = some (.nested c.body)) :
    BodyShows h R c (.primary name) []
  | none (hn : c.body = .nothing) : BodyShows h R c .none []

/-- a cell shows a node -/
structure Cell.Shows (h : Heap) (R : List Kind → Address → Node → Prop) (shape : KindShape)
    (c : Cell) (n : Node) : Prop where
  kind : n.kind = c.kind.name
  sorted : Entries.Sorted n.args
  args : ∀ name, ArgShows R (shape.arg? name) (c.arg? name) (n.arg? name)
  body : BodyShows h R c shape.body n.body

section
variable {R R' : List Kind → Address → Node → Prop}

theorem ArgShows.imp (hR : ∀ kinds a c, R kinds a c → R' kinds a c) {spec : Option ArgSpec}
    {u : Option (Arg Address)} {v : Option (Arg Node)} (h : ArgShows R spec u v) :
    ArgShows R' spec u v := by
  cases h with
  | absent => exact .absent
  | scalar h => exact .scalar h
  | nested ht ha h => exact .nested ht ha (hR _ _ _ h)

theorem BodyShows.imp (hR : ∀ kinds a c, R kinds a c → R' kinds a c) {h : Heap} {c : Cell}
    {rule : BodyRule} {body : List Node} (hb : BodyShows h R c rule body) :
    BodyShows h R' c rule body := by
  cases hb with
  | block hl hb => exact .block hl (hb.imp fun _ _ he => hR _ _ _ he)
  | primary hp => exact .primary hp
  | none hn => exact .none hn

theorem Cell.Shows.imp (hR : ∀ kinds a c, R kinds a c → R' kinds a c) {h : Heap}
    {shape : KindShape} {c : Cell} {n : Node} (hs : c.Shows h R shape n) : c.Shows h R' shape n :=
  ⟨hs.kind, hs.sorted, fun name => (hs.args name).imp hR, hs.body.imp hR⟩

end

section
variable {R : List Kind → Address → Node → Prop} {S : List Kind → Node → Prop}

theorem ArgShows.of_none {u : Option (Arg Address)} {v : Option (Arg Node)}
    (h : ArgShows R none u v) : u = none ∧ v = none := by
  cases h
  exact ⟨rfl, rfl⟩

theorem ArgShows.of_some {spec : ArgSpec} {u : Option (Arg Address)} {v : Option (Arg Node)}
    (h : ArgShows R (some spec) u v) : ∃ x y, u = some x ∧ v = some y := by
  cases h with
  | scalar _ => exact ⟨_, _, rfl, rfl⟩
  | nested _ _ _ => exact ⟨_, _, rfl, rfl⟩

theorem ArgShows.fits (hRS : ∀ kinds a c, R kinds a c → S kinds c) {spec : Option ArgSpec}
    {u : Option (Arg Address)} {v : Option (Arg Node)} (h : ArgShows R spec u v) :
    ArgFits S spec v := by
  cases h with
  | absent => exact .absent
  | scalar h => exact .scalar h
  | nested ht _ h => exact .nested ht (hRS _ _ _ h)

theorem BodyShows.of_block {h : Heap} {c : Cell} {rule : BodyRule} {body : List Node}
    (hb : BodyShows h R c rule body) {kinds : List Kind} (hrule : rule = .block kinds) :
    ∃ l, h.Follows c.body l ∧ List.Forall₂ (fun e n => R kinds e.1 n) l body := by
  subst hrule
  cases hb with
  | block hl hb => exact ⟨_, hl, hb⟩

theorem BodyShows.fits (hRS : ∀ kinds a c, R kinds a c → S kinds c) {h : Heap} {c : Cell}
    {rule : BodyRule} {body : List Node} (hb : BodyShows h R c rule body) :
    ∀ m ∈ body, ∃ kinds, rule = .block kinds ∧ S kinds m := by
  intro m hm
  cases hb with
  | @block kinds l _ _ hb =>
    obtain ⟨e, _, he⟩ := exists_mem_of_forall₂ hb hm
    exact ⟨kinds, rfl, hRS _ _ _ he⟩
  | primary _ => cases hm
  | none _ => cases hm

/-- a node that a cell shows fits the shape of the cell -/
theorem Cell.Shows.fits (hRS : ∀ kinds a c, R kinds a c → S kinds c) {h : Heap} {shape : KindShape}
    {c : Cell} {n : Node} (hs : c.Shows h R shape n) : n.Fits S shape :=
  ⟨fun name => (hs.args name).fits hRS, hs.body.fits hRS⟩

end

namespace Heap

/-! ## reading one cell -/

section
variable {c : Cell} {spec : ArgSpec} {specs : List ArgSpec}

theorem openArgs_scalar {s : Scalar} (hv : c.arg? spec.name = some (.scalar s)) :
    openArgs c (spec :: specs) = if spec.type.accepts s then
        (openArgs c specs).map ((spec.name, .scalar s) :: ·)
      else .error (.argTypeMismatch spec.name spec.type) := by
  rw [openArgs, hv]
  cases spec.type <;> rfl

theorem openArgs_nested {a : Address} (hv : c.arg? spec.name = some (.nested a)) :
    openArgs c (spec :: specs) = match spec.type with
      | .node kinds =>
        if a = .nothing then .error (.sentinelArg spec.name)
        else (openArgs c specs).map ((spec.name, .nested ⟨a, kinds⟩) :: ·)
      | type => .error (.argTypeMismatch spec.name type) := by
  rw [openArgs, hv]
  cases spec.type <;> rfl

/-- an argument of a node, given how nodes below are read -/
def readArg (f : Target → Except RebuildFault Node) :
    String × Arg Target → Except RebuildFault (String × Arg Node)
  | (name, .scalar s) => .ok (name, .scalar s)
  | (name, .nested t) => (f t).map fun c => (name, .nested c)

/-- a declared argument that is there and of its type, with the kinds that its place admits -/
inductive Opens (c : Cell) (spec : ArgSpec) : Arg Target → Prop
  | scalar {s : Scalar} (hv : c.arg? spec.name = some (.scalar s))
    (h : spec.type.accepts s = true) : Opens c spec (.scalar s)
  | nested {a : Address} {kinds : List Kind} (hv : c.arg? spec.name = some (.nested a))
    (ht : spec.type = .node kinds) (ha : a ≠ .nothing) : Opens c spec (.nested ⟨a, kinds⟩)

theorem openArgs_cons_eq_ok {opened : List (String × Arg Target)} :
    openArgs c (spec :: specs) = .ok opened ↔ ∃ v rest, Opens c spec v ∧
      openArgs c specs = .ok rest ∧ opened = (spec.name, v) :: rest := by
  constructor
  · intro ho
    cases hv : c.arg? spec.name with
    | none => rw [openArgs, hv] at ho; cases ho
    | some value =>
      cases value with
      | scalar s =>
        rw [openArgs_scalar hv] at ho
        split at ho
        · next hacc =>
          obtain ⟨rest, hrest, rfl⟩ := map_eq_ok.mp ho
          exact ⟨_, rest, .scalar hv hacc, hrest, rfl⟩
        · cases ho
      | nested a =>
        rw [openArgs_nested hv] at ho
        split at ho
        · next kinds ht =>
          split at ho
          · cases ho
          · next ha =>
            obtain ⟨rest, hrest, rfl⟩ := map_eq_ok.mp ho
            exact ⟨_, rest, .nested hv ht ha, hrest, rfl⟩
        · cases ho
  · rintro ⟨v, rest, hv, hrest, rfl⟩
    cases hv with
    | scalar hv hacc =>
      rw [openArgs_scalar hv, if_pos hacc, hrest]
      rfl
    | nested hv ht ha =>
      rw [openArgs_nested hv, ht]
      show (if _ then _ else _) = _
      rw [if_neg ha, hrest]
      rfl

/-- what is opened is read as what the cell shows -/
theorem exists_opens_iff {f : Target → Except RebuildFault Node} {e : String × Arg Node} :
    (∃ v, Opens c spec v ∧ readArg f (spec.name, v) = .ok e) ↔ e.1 = spec.name ∧
      ArgShows (fun kinds a m => f ⟨a, kinds⟩ = .ok m) (some spec) (c.arg? spec.name)
        (some e.2) := by
  constructor
  · intro ⟨v, hv, he⟩
    cases hv with
    | scalar hv hacc =>
      cases he
      rw [hv]
      exact ⟨rfl, .scalar hacc⟩
    | nested hv ht ha =>
      obtain ⟨m, hm, rfl⟩ := map_eq_ok.mp he
      rw [hv]
      exact ⟨rfl, .nested ht ha hm⟩
  · obtain ⟨name, value⟩ := e
    rintro ⟨rfl, hshow⟩
    generalize hv : c.arg? spec.name = u at hshow
    cases hshow with
    | scalar hacc => exact ⟨_, .scalar hv hacc, rfl⟩
    | nested ht ha hm => exact ⟨_, .nested hv ht ha, map_eq_ok.mpr ⟨_, hm, rfl⟩⟩

/-- the declared arguments are read as the ones that the cell shows, in the order of declaration -/
theorem mapM_readArg_openArgs {f : Target → Except RebuildFault Node}
    {args : List (String × Arg Node)} :
    (∃ opened, openArgs c specs = .ok opened ∧ opened.mapM (readArg f) = .ok args) ↔
      List.Forall₂ (fun spec e => e.1 = spec.name ∧
        ArgShows (fun kinds a m => f ⟨a, kinds⟩ = .ok m) (some spec) (c.arg? spec.name) (some e.2))
        specs args := by
  induction specs generalizing args with
  | nil =>
    rw [List.forall₂_nil_left_iff]
    refine ⟨fun ⟨opened, ho, hm⟩ => ?_, fun h => ⟨[], rfl, h ▸ rfl⟩⟩
    cases ho
    cases hm
    rfl
  | cons spec specs ih =>
    rw [List.forall₂_cons_left_iff]
    constructor
    · intro ⟨opened, ho, hm⟩
      obtain ⟨v, rest, hv, hrest, rfl⟩ := openArgs_cons_eq_ok.mp ho
      rw [mapM_eq_ok, List.forall₂_cons_left_iff] at hm
      obtain ⟨e, es, he, hes, rfl⟩ := hm
      exact ⟨e, es, exists_opens_iff.mp ⟨v, hv, he⟩, ih.mp ⟨rest, hrest, mapM_eq_ok.mpr hes⟩, rfl⟩
    · rintro ⟨e, es, he, hes, rfl⟩
      obtain ⟨v, hv, hread⟩ := exists_opens_iff.mpr he
      obtain ⟨rest, hrest, hm⟩ := ih.mpr hes
      refine ⟨_, openArgs_cons_eq_ok.mpr ⟨v, rest, hv, hrest, rfl⟩, ?_⟩
      rw [mapM_eq_ok]
      exact .cons hread (mapM_eq_ok.mp hm)

end

section
variable {h : Heap} {R : List Kind → Address → Node → Prop} {shape : KindShape} {c : Cell}

theorem map_fst_of_forall₂ {P : ArgSpec → String × Arg Node → Prop} {specs : List ArgSpec}
    {args : List (String × Arg Node)}
    (hargs : List.Forall₂ (fun spec e => e.1 = spec.name ∧ P spec e) specs args) :
    args.map Prod.fst = specs.map (·.name) := by
  induction hargs with
  | nil => rfl
  | cons he _ ih => rw [List.map_cons, List.map_cons, he.1, ih]

/-- arguments listed as declared and put in order are the arguments that the cell shows -/
theorem argShows_ofList (hn : (shape.args.map (·.name)).Nodup)
    (hu : ∀ name, shape.arg? name = none → c.arg? name = none) {args : List (String × Arg Node)}
    (hargs : List.Forall₂ (fun spec e => e.1 = spec.name ∧
      ArgShows R (some spec) (c.arg? spec.name) (some e.2)) shape.args args) (name : String) :
    ArgShows R (shape.arg? name) (c.arg? name) (Entries.find? name (Entries.ofList args)) := by
  have hnames := map_fst_of_forall₂ hargs
  have hnodup : (args.map Prod.fst).Nodup := hnames ▸ hn
  rw [Entries.find?_ofList hnodup]
  revert name
  rw [KindShape.forall_arg? (P := fun spec name =>
    ArgShows R spec (c.arg? name) (Entries.find? name args)) hn]
  constructor
  · intro spec hspec
    obtain ⟨e, he, hname, hshow⟩ := exists_mem_of_forall₂ hargs.flip hspec
    have hfind : Entries.find? spec.name args = some e.2 :=
      (Entries.find?_eq_some_iff hnodup).mpr (hname ▸ he)
    rw [hfind]
    exact hshow
  · intro name hname
    have hnone : Entries.find? name args = none := by
      rw [Entries.find?_eq_none_iff_not_mem, hnames]
      exact KindShape.not_mem_names_of_arg? hn hname
    rw [hnone, hu name hname]
    exact .absent

/-- the arguments that a cell shows can be listed as declared -/
theorem exists_args_of_argShows (hn : (shape.args.map (·.name)).Nodup) {m : Entries (Arg Node)}
    (hm : Entries.Sorted m)
    (hargs : ∀ name, ArgShows R (shape.arg? name) (c.arg? name) (Entries.find? name m)) :
    ∃ args, List.Forall₂ (fun spec e => e.1 = spec.name ∧
      ArgShows R (some spec) (c.arg? spec.name) (some e.2)) shape.args args ∧
      Entries.ofList args = m := by
  have hspec : ∀ spec ∈ shape.args, ∃ e : String × Arg Node, e.1 = spec.name ∧
      (ArgShows R (some spec) (c.arg? spec.name) (some e.2) ∧
        Entries.find? spec.name m = some e.2) := by
    intro spec hspec
    have hshow := hargs spec.name
    rw [(KindShape.arg?_eq_some_iff hn).mpr ⟨hspec, rfl⟩] at hshow
    obtain ⟨_, v, _, hv⟩ := hshow.of_some
    rw [hv] at hshow
    exact ⟨(spec.name, v), rfl, hshow, hv⟩
  obtain ⟨args, hfa⟩ := exists_forall₂ hspec
  have hnames := map_fst_of_forall₂ hfa
  have hnodup : (args.map Prod.fst).Nodup := hnames ▸ hn
  refine ⟨args, hfa.imp fun _ _ he => ⟨he.1, he.2.1⟩, ?_⟩
  refine Entries.ext_find? (Entries.sorted_ofList args) hm fun name => ?_
  rw [Entries.find?_ofList hnodup]
  revert name
  rw [KindShape.forall_arg? (s := shape) (P := fun _ name =>
    Entries.find? name args = Entries.find? name m) hn]
  constructor
  · intro spec hmem
    obtain ⟨e, he, hname, _, hfind⟩ := exists_mem_of_forall₂ hfa.flip hmem
    rw [hfind, Entries.find?_eq_some_iff hnodup]
    exact hname ▸ he
  · intro name hname
    have hshow := hargs name
    rw [hname] at hshow
    rw [hshow.of_none.2, Entries.find?_eq_none_iff_not_mem, hnames]
    exact KindShape.not_mem_names_of_arg? hn hname

theorem mapM_openBody {f : Target → Except RebuildFault Node} {a : Address} {rule : BodyRule}
    {body : List Node} :
    (∃ ts, h.openBody a c rule = .ok ts ∧ ts.mapM f = .ok body) ↔
      BodyShows h (fun kinds a m => f ⟨a, kinds⟩ = .ok m) c rule body := by
  cases rule with
  | block kinds =>
    constructor
    · intro ⟨ts, hts, hm⟩
      obtain ⟨l, hl, rfl⟩ := map_eq_ok.mp hts
      rw [mapM_eq_ok, List.forall₂_map_left_iff] at hm
      exact .block (complete_chain_iff.mp hl) hm
    · intro hb
      cases hb with
      | @block _ l _ hl hb =>
        refine ⟨_, map_eq_ok.mpr ⟨l, complete_chain_iff.mpr hl, rfl⟩, ?_⟩
        rw [mapM_eq_ok, List.forall₂_map_left_iff]
        exact hb
  | primary name =>
    have hp : (c.arg? name).bind Arg.nested? = some c.body ↔ c.arg? name = some (.nested c.body) := by
      rcases c.arg? name with _ | (s | b) <;> simp [Arg.nested?]
    constructor
    · intro ⟨ts, hts, hm⟩
      rw [openBody] at hts
      split at hts
      · next hb =>
        cases hts
        cases hm
        exact .primary (hp.mp hb)
      · cases hts
    · intro hb
      cases hb with
      | primary hb => exact ⟨[], if_pos (hp.mpr hb), rfl⟩
  | none =>
    constructor
    · intro ⟨ts, hts, hm⟩
      rw [openBody] at hts
      split at hts
      · next hb =>
        cases hts
        cases hm
        exact .none hb
      · cases hts
    · intro hb
      cases hb with
      | none hb => exact ⟨[], if_pos hb, rfl⟩

theorem openKind_eq_ok {kind : Kind} {allowed : Option (List Kind)} :
    openKind kind allowed = .ok () ↔ Admits allowed kind := by
  cases allowed with
  | none => exact ⟨fun _ => admits_none kind, fun _ => rfl⟩
  | some kinds =>
    rw [admits_some, openKind]
    split <;> simp_all

theorem openNames_eq_ok :
    openNames c shape = .ok () ↔ ∀ name, shape.arg? name = none → c.arg? name = none := by
  show _ ↔ ∀ name, shape.arg? name = none → c.args.find? name = none
  rw [← KindShape.undeclared?_names_eq_none_iff, openNames]
  split <;> simp_all

theorem openShape_eq_ok {corpus : Corpus} :
    openShape corpus c = .ok shape ↔ corpus.shape? c.kind = some shape := by
  unfold openShape
  split
  · next hs => exact ⟨nofun, fun h => (by rw [hs] at h; cases h)⟩
  · next hs => exact ⟨fun h => (by cases h; exact hs), fun h => (by rw [hs] at h; cases h; rfl)⟩

theorem openCell_eq_ok {corpus : Corpus} {allowed : Option (List Kind)} {a : Address}
    {o : OpenedCell} :
    h.openCell corpus allowed a = .ok o ↔ ∃ c shape, h.cells[a]? = some c ∧
      corpus.shape? c.kind = some shape ∧ Admits allowed c.kind ∧
      (∀ name, shape.arg? name = none → c.arg? name = none) ∧
      ∃ args statements, openArgs c shape.args = .ok args ∧
        h.openBody a c shape.body = .ok statements ∧ o = ⟨c.kind, args, statements⟩ := by
  constructor
  · intro ho
    obtain ⟨c, hc, ho⟩ := bind_eq_ok.mp ho
    obtain ⟨shape, hs, ho⟩ := bind_eq_ok.mp ho
    obtain ⟨_, hk, ho⟩ := bind_eq_ok.mp ho
    obtain ⟨_, hn, ho⟩ := bind_eq_ok.mp ho
    obtain ⟨args, ha, ho⟩ := bind_eq_ok.mp ho
    obtain ⟨statements, hb, ho⟩ := bind_eq_ok.mp ho
    cases ho
    rw [mapError_eq_ok] at hs hk hn ha
    exact ⟨c, shape, get_eq_ok.mp hc, openShape_eq_ok.mp hs, openKind_eq_ok.mp hk,
      openNames_eq_ok.mp hn, args, statements, ha, hb, rfl⟩
  · rintro ⟨c, shape, hc, hs, hk, hn, args, statements, ha, hb, rfl⟩
    show (h.get a >>= _) = _
    exact bind_eq_ok.mpr ⟨c, get_eq_ok.mpr hc,
      bind_eq_ok.mpr ⟨shape, (mapError_eq_ok _).mpr (openShape_eq_ok.mpr hs),
      bind_eq_ok.mpr ⟨(), (mapError_eq_ok _).mpr (openKind_eq_ok.mpr hk),
      bind_eq_ok.mpr ⟨(), (mapError_eq_ok _).mpr (openNames_eq_ok.mpr hn),
      bind_eq_ok.mpr ⟨args, (mapError_eq_ok _).mpr ha,
      bind_eq_ok.mpr ⟨statements, hb, rfl⟩⟩⟩⟩⟩⟩

end

/-! ## trees -/

section
variable {h : Heap} {corpus : Corpus} {limit levels : Nat} {allowed : Option (List Kind)}
  {a : Address} {n : Node}

theorem rebuildBelow_succ_eq :
    h.rebuildBelow corpus limit (levels + 1) allowed a
      = (h.openCell corpus allowed a).mapError .corrupt >>= fun o =>
        o.args.mapM (readArg fun t =>
          h.rebuildBelow corpus limit levels (some t.allowed) t.address) >>= fun args =>
        o.statements.mapM (fun t =>
          h.rebuildBelow corpus limit levels (some t.allowed) t.address) >>= fun body =>
        .ok ⟨o.kind.name, Entries.ofList args, body⟩ := by
  rw [rebuildBelow]
  refine bind_congr fun o => ?_
  congr 2
  funext ⟨name, value⟩
  cases value <;> rfl

/-- one level of the reading, with the arguments in the order of declaration -/
theorem rebuildBelow_succ_args :
    h.rebuildBelow corpus limit (levels + 1) allowed a = .ok n ↔ ∃ c shape,
      h.cells[a]? = some c ∧ corpus.shape? c.kind = some shape ∧ Admits allowed c.kind ∧
      (∀ name, shape.arg? name = none → c.arg? name = none) ∧
      ∃ args body, List.Forall₂ (fun spec e => e.1 = spec.name ∧ ArgShows (fun kinds b m =>
          h.rebuildBelow corpus limit levels (some kinds) b = .ok m)
          (some spec) (c.arg? spec.name) (some e.2)) shape.args args ∧
        BodyShows h (fun kinds b m => h.rebuildBelow corpus limit levels (some kinds) b = .ok m)
          c shape.body body ∧
        n = ⟨c.kind.name, Entries.ofList args, body⟩ := by
  rw [rebuildBelow_succ_eq]
  constructor
  · intro hr
    obtain ⟨o, ho, hr⟩ := bind_eq_ok.mp hr
    obtain ⟨args, hargs, hr⟩ := bind_eq_ok.mp hr
    obtain ⟨body, hbody, hr⟩ := bind_eq_ok.mp hr
    rw [mapError_eq_ok] at ho
    obtain ⟨c, shape, hc, hs, hk, hn, opened, statements, hoa, hob, rfl⟩ := openCell_eq_ok.mp ho
    cases hr
    exact ⟨c, shape, hc, hs, hk, hn, args, body, mapM_readArg_openArgs.mp ⟨opened, hoa, hargs⟩,
      mapM_openBody.mp ⟨statements, hob, hbody⟩, rfl⟩
  · rintro ⟨c, shape, hc, hs, hk, hn, args, body, hargs, hbody, rfl⟩
    let f : Target → Except RebuildFault Node := fun t =>
      h.rebuildBelow corpus limit levels (some t.allowed) t.address
    obtain ⟨opened, hoa, hma⟩ := (mapM_readArg_openArgs (f := f)).mpr hargs
    obtain ⟨statements, hob, hmb⟩ := (mapM_openBody (a := a) (f := f)).mpr hbody
    have ho := openCell_eq_ok.mpr ⟨c, shape, hc, hs, hk, hn, opened, statements, hoa, hob, rfl⟩
    exact bind_eq_ok.mpr ⟨_, (mapError_eq_ok _).mpr ho, bind_eq_ok.mpr ⟨args, hma,
      bind_eq_ok.mpr ⟨body, hmb, rfl⟩⟩⟩

/-- one level of the reading: the cell shows the node -/
theorem rebuildBelow_succ :
    h.rebuildBelow corpus limit (levels + 1) allowed a = .ok n ↔ ∃ c shape,
      h.cells[a]? = some c ∧ corpus.shape? c.kind = some shape ∧ Admits allowed c.kind ∧
      c.Shows h (fun kinds b m => h.rebuildBelow corpus limit levels (some kinds) b = .ok m)
        shape n := by
  rw [rebuildBelow_succ_args]
  refine exists_congr fun c => exists_congr fun shape => and_congr_right fun hc =>
    and_congr_right fun hs => and_congr_right fun hk => ?_
  have hnodup := Corpus.args_nodup hs
  constructor
  · rintro ⟨hn, args, body, hargs, hbody, rfl⟩
    exact ⟨rfl, Entries.sorted_ofList args, argShows_ofList hnodup hn hargs, hbody⟩
  · intro ⟨hkind, hsorted, hargs, hbody⟩
    obtain ⟨args, hfa, hof⟩ := exists_args_of_argShows hnodup hsorted hargs
    refine ⟨fun name hname => ?_, args, n.body, hfa, hbody, ?_⟩
    · have hshow := hargs name
      rw [hname] at hshow
      exact hshow.of_none.1
    · cases n
      rw [hof, ← hkind]

/-- what is read from a heap is a valid tree, whatever the heap is -/
theorem valid_of_rebuildBelow (hr : h.rebuildBelow corpus limit levels allowed a = .ok n) :
    n.Valid corpus levels allowed := by
  induction levels generalizing allowed a n with
  | zero => cases hr
  | succ levels ih =>
    obtain ⟨c, shape, _, hs, hk, hshow⟩ := rebuildBelow_succ.mp hr
    refine ⟨shape, ?_, ?_, hshow.fits fun kinds b m hm => ih hm⟩
    · rw [hshow.kind]
      exact Corpus.shapeOf?_name hs
    · rw [Corpus.kind_of_shape? hs]
      exact hk

/-- what is read has its arguments in the order of their names -/
theorem ordered_of_rebuildBelow (hr : h.rebuildBelow corpus limit levels allowed a = .ok n) :
    n.Ordered := by
  induction levels generalizing allowed a n with
  | zero => cases hr
  | succ levels ih =>
    obtain ⟨c, shape, _, _, _, hshow⟩ := rebuildBelow_succ.mp hr
    refine ⟨hshow.sorted, fun m hm => ?_⟩
    rcases List.mem_append.mp hm with hm | hm
    · obtain ⟨name, hm⟩ := Node.mem_argNodes.mp hm
      have harg : n.arg? name = some (.nested m) := Entries.find?_of_mem hshow.sorted hm
      have hargs := hshow.args name
      rw [harg] at hargs
      generalize shape.arg? name = u, c.arg? name = v at hargs
      cases hargs with
      | nested _ _ hread => exact ih hread
    · have hbody := hshow.body
      generalize shape.body = rule, n.body = body at hbody hm
      cases hbody with
      | block _ hrel =>
        obtain ⟨e, _, hread⟩ := exists_mem_of_forall₂ hrel hm
        exact ih hread
      | primary _ => cases hm
      | none _ => cases hm

/-- **What is read from a heap passes the check of trees**, whatever the heap is: nothing is asked of
its sentinel, of the cells that are not read, or of how often a cell is reached. The tree comes with
its arguments in the order of their names. -/
theorem check_of_rebuild {policy : Policy} {root : Address}
    (hr : h.rebuild corpus policy root = .ok n) :
    n.Ordered ∧ n.check corpus policy = .ok () := by
  have hv : n.Valid corpus policy.maxDepth none := valid_of_rebuildBelow hr
  exact ⟨ordered_of_rebuildBelow hr, Node.check_eq_ok.mpr hv⟩

end

end Heap

/-- a conditional with one cell for both of its branches, which has a next link back to it; the
sentinel is edited, and a cell that nothing leads to has links out of the heap -/
def Sample.tangled : Heap where
  cells := #[{ Cell.sentinel with next := 7 },
    ⟨.conditional, 9, .nothing, .nothing, ⟨[("_else", .nested 2), ("_then", .nested 2),
      ("lhs", .scalar (.string "x")), ("op", .scalar (.string "is")), ("rhs", .scalar (.integer 0))],
      by decide⟩⟩,
    ⟨.execute, .nothing, .root, .nothing, ⟨[("sequence_id", .scalar (.integer 1))], by decide⟩⟩,
    { Cell.ofKind .sequence with next := 3, body := 8 }]

/-- its tree, in which the branch stands twice -/
def Sample.untangled : Node :=
  let branch := Sample.int (.ofKind "execute") "sequence_id" 1
  let test := Sample.int (Sample.str (Sample.str (.ofKind "_if") "lhs" "x") "op" "is") "rhs" 0
  Sample.sub (Sample.sub test "_then" branch) "_else" branch

theorem Sample.tangled_is_read : (∃ f, Sample.tangled.check Corpus.builtIn = .error f) ∧
    Sample.tangled.rebuild Corpus.builtIn .default .root = .ok Sample.untangled ∧
    Sample.untangled.Ordered ∧ Sample.untangled.check Corpus.builtIn .default = .ok () := by
  have hr : Sample.tangled.rebuild Corpus.builtIn .default .root = .ok Sample.untangled := rfl
  exact ⟨⟨_, rfl⟩, hr, Heap.check_of_rebuild hr⟩

end ScriptHeap
