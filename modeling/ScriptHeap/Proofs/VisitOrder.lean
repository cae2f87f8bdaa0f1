import ScriptHeap.Proofs.ValidTree
/-!
# The order of the check

* `Node.FitsAlone`     what the check of one node asks for, whatever the nodes below are;
* `Node.HasFault`      what a fault says of a node in its place;
* `Node.visits`, `Node.stops`   the nodes below a node, and all nodes of a tree in pre-order, told
                       without a check;
* `Node.check_eq_forM` the check of a tree is the check of its stops, one after the other;
* `Node.Leads`         the steps of a path lead from the root of a tree to a node;
* `Node.leads_of_mem_stops`, `Node.mem_stops_of_leads`   the stops are nodes of the tree at the ends of
                       their paths, and are all of them if no stop has a fault.
-/

namespace ScriptHeap

namespace Node

/-! ## one node -/

/-- a node is of a registered kind that its place admits, with the declared arguments, each of its
type, and with statements only if the kind is a block -/
def FitsAlone (corpus : Corpus) (allowed : Option (List Kind)) (n : Node) : Prop :=
  ∃ shape, corpus.shapeOf? n.kind = some shape ∧ Admits allowed shape.kind ∧
    n.Fits (fun _ _ => True) shape

/-- a fault is true of a node in its place -/
inductive HasFault (corpus : Corpus) (allowed : Option (List Kind)) (n : Node) : NodeFault → Prop
  | unknownKind (hs : corpus.shapeOf? n.kind = none) :
    HasFault corpus allowed n (.unknownKind ⟨n.kind⟩)
  | disallowedKind {shape : KindShape} {kinds : List Kind}
    (hs : corpus.shapeOf? n.kind = some shape) (ha : allowed = some kinds) (hk : shape.kind ∉ kinds) :
    HasFault corpus allowed n (.invalid (.disallowedKind n.kind kinds))
  | unknownArg {shape : KindShape} {name : String} {value : Arg Node}
    (hs : corpus.shapeOf? n.kind = some shape) (hn : shape.arg? name = none)
    (hv : n.arg? name = some value) : HasFault corpus allowed n (.invalid (.unknownArg name))
  | missingArg {shape : KindShape} {spec : ArgSpec} (hs : corpus.shapeOf? n.kind = some shape)
    (hspec : spec ∈ shape.args) (hv : n.arg? spec.name = none) :
    HasFault corpus allowed n (.invalid (.missingArg spec.name))
  | typeMismatch {shape : KindShape} {spec : ArgSpec} {value : Arg Node}
    (hs : corpus.shapeOf? n.kind = some shape) (hspec : spec ∈ shape.args)
    (hv : n.arg? spec.name = some value)
    (ht : ¬ ArgFits (fun _ _ => True) (some spec) (some value)) :
    HasFault corpus allowed n (.invalid (.typeMismatch spec.name spec.type value.describe))
  | unexpectedBody {shape : KindShape} (hs : corpus.shapeOf? n.kind = some shape)
    (hb : shape.isBlock = false) (hne : n.body ≠ []) :
    HasFault corpus allowed n (.invalid (.unexpectedBody n.body.length))

section
variable {corpus : Corpus} {allowed : Option (List Kind)} {n : Node} {shape : KindShape}

theorem exists_checkAlone_iff :
    (∃ vs, n.checkAlone corpus allowed = .ok vs) ↔ n.FitsAlone corpus allowed := by
  rw [FitsAlone, ← checkAlone_visits]
  exact exists_congr fun vs => ⟨fun h => ⟨h, fun _ _ => trivial⟩, fun h => h.1⟩

theorem checkKind_eq_error {kind : Kind} {reason : NodeReason}
    (h : n.checkKind kind allowed = .error reason) :
    ∃ kinds, allowed = some kinds ∧ kind ∉ kinds ∧ reason = .disallowedKind n.kind kinds := by
  cases allowed with
  | none => cases h
  | some kinds =>
    rw [checkKind] at h
    split at h
    · cases h
    · next hk =>
      cases h
      exact ⟨kinds, rfl, fun hmem => hk (List.contains_iff_mem.mpr hmem), rfl⟩

theorem checkNames_eq_error {reason : NodeReason} (h : n.checkNames shape = .error reason) :
    ∃ name value, shape.arg? name = none ∧ n.arg? name = some value ∧
      reason = .unknownArg name := by
  rw [checkNames] at h
  split at h
  · cases h
  · next name hname =>
    cases h
    have hmem : name ∈ n.args.map Prod.fst := List.mem_of_find?_eq_some hname
    have hundeclared : (shape.arg? name).isNone = true := by simpa using List.find?_some hname
    obtain ⟨value, hv⟩ := Option.isSome_iff_exists.mp (Entries.isSome_find?_iff.mpr hmem)
    exact ⟨name, value, Option.isNone_iff_eq_none.mp hundeclared, hv, rfl⟩

/-- the check of the arguments fails on one that is missing or not of its type -/
theorem checkArgs_eq_error {specs : List ArgSpec} {reason : NodeReason}
    (h : n.checkArgs specs = .error reason) : ∃ spec ∈ specs,
      (n.arg? spec.name = none ∧ reason = .missingArg spec.name) ∨
      ∃ value, n.arg? spec.name = some value ∧
        ¬ ArgFits (fun _ _ => True) (some spec) (some value) ∧
        reason = .typeMismatch spec.name spec.type value.describe := by
  induction specs with
  | nil => cases h
  | cons spec specs ih =>
    have hrest : n.checkArgs specs = .error reason → ∃ spec' ∈ spec :: specs, _ := fun hr =>
      let ⟨spec', hmem, hspec⟩ := ih hr
      ⟨spec', List.mem_cons_of_mem _ hmem, hspec⟩
    cases hv : n.arg? spec.name with
    | none =>
      rw [checkArgs, hv] at h
      cases h
      exact ⟨spec, List.mem_cons_self, .inl ⟨hv, rfl⟩⟩
    | some value =>
      cases value with
      | scalar s =>
        rw [checkArgs_scalar hv] at h
        split at h
        · exact hrest h
        · next hacc =>
          cases h
          refine ⟨spec, List.mem_cons_self, .inr ⟨_, hv, fun hfit => ?_, rfl⟩⟩
          cases hfit with
          | scalar hacc' => exact hacc hacc'
      | nested c =>
        rw [checkArgs_nested hv] at h
        split at h
        · cases hr : n.checkArgs specs with
          | ok vs =>
            rw [hr] at h
            cases h
          | error reason' =>
            rw [hr] at h
            cases h
            exact hrest hr
        · next ht =>
          cases h
          refine ⟨spec, List.mem_cons_self, .inr ⟨_, hv, fun hfit => ?_, rfl⟩⟩
          cases hfit with
          | nested hnode _ => exact ht _ hnode

theorem checkBody_eq_error {rule : BodyRule} {reason : NodeReason}
    (h : n.checkBody rule = .error reason) : (∀ kinds, rule ≠ .block kinds) ∧ n.body ≠ [] ∧
      reason = .unexpectedBody n.body.length := by
  have hleaf : ∀ kinds, rule ≠ .block kinds := by
    rintro kinds rfl
    cases h
  rw [checkBody_leaf hleaf] at h
  split at h
  · cases h
  · next hne =>
    cases h
    exact ⟨hleaf, fun hnil => hne (List.isEmpty_iff.mpr hnil), rfl⟩

/-- what the check of a node finds is true of the node -/
theorem hasFault_of_checkAlone {fault : NodeFault}
    (h : n.checkAlone corpus allowed = .error fault) : n.HasFault corpus allowed fault := by
  unfold checkAlone Corpus.shapeOf at h
  cases hs : corpus.shapeOf? n.kind with
  | none =>
    rw [hs] at h
    cases h
    exact .unknownKind hs
  | some shape =>
    rw [hs] at h
    change (n.checkShape shape allowed).mapError _ = _ at h
    cases hc : n.checkShape shape allowed with
    | ok vs =>
      rw [hc] at h
      cases h
    | error reason =>
      rw [hc] at h
      cases h
      rcases bind_eq_error.mp hc with hk | ⟨_, _, hc⟩
      · obtain ⟨kinds, ha, hnot, rfl⟩ := checkKind_eq_error hk
        exact .disallowedKind hs ha hnot
      rcases bind_eq_error.mp hc with hn | ⟨_, _, hc⟩
      · obtain ⟨name, value, hnone, hv, rfl⟩ := checkNames_eq_error hn
        exact .unknownArg hs hnone hv
      rcases bind_eq_error.mp hc with ha | ⟨_, _, hc⟩
      · obtain ⟨spec, hspec, ⟨hv, rfl⟩ | ⟨value, hv, ht, rfl⟩⟩ := checkArgs_eq_error ha
        · exact .missingArg hs hspec hv
        · exact .typeMismatch hs hspec hv ht
      rcases bind_eq_error.mp hc with hb | ⟨_, _, hc⟩
      · obtain ⟨hleaf, hne, rfl⟩ := checkBody_eq_error hb
        refine .unexpectedBody hs (Bool.eq_false_iff.mpr fun hblock => ?_) hne
        obtain ⟨kinds, hk⟩ := KindShape.isBlock_iff.mp hblock
        exact hleaf kinds hk
      · cases hc

end

/-! ## the nodes below -/

/-- the node in a declared node argument -/
def argVisit? (n : Node) (spec : ArgSpec) : Option Visit :=
  match spec.type, n.arg? spec.name with
  | .node kinds, some (.nested c) => some ⟨.arg spec.name, c, kinds⟩
  | _, _ => none

/-- the statements of a block -/
def bodyVisits (n : Node) : BodyRule → List Visit
  | .block kinds => statementVisits kinds 0 n.body
  | _ => []

/-- the nodes below: node arguments as they are declared, then statements -/
def visits (corpus : Corpus) (n : Node) : List Visit :=
  match corpus.shapeOf? n.kind with
  | none => []
  | some shape => shape.args.filterMap n.argVisit? ++ n.bodyVisits shape.body

section
variable {corpus : Corpus} {n : Node} {shape : KindShape}

theorem visits_eq (hs : corpus.shapeOf? n.kind = some shape) :
    n.visits corpus = shape.args.filterMap n.argVisit? ++ n.bodyVisits shape.body := by
  rw [visits, hs]

theorem argVisit?_eq_some_iff {spec : ArgSpec} {v : Visit} : n.argVisit? spec = some v ↔
    spec.type = .node v.allowed ∧ n.arg? spec.name = some (.nested v.node) ∧
      v.via = .arg spec.name := by
  unfold argVisit?
  split
  · next kinds c ht hv =>
    rw [ht, hv]
    constructor
    · intro h
      cases h
      exact ⟨rfl, rfl, rfl⟩
    · obtain ⟨via, node, allowed⟩ := v
      rintro ⟨hk, hc, rfl⟩
      cases hk
      cases hc
      rfl
  · next hnone => exact ⟨nofun, fun ⟨ht, hv, _⟩ => absurd hv (hnone _ _ ht)⟩

theorem mem_statementVisits {kinds : List Kind} {index : Nat} {body : List Node} {v : Visit} :
    v ∈ statementVisits kinds index body ↔
      ∃ i, body[i]? = some v.node ∧ v.via = .body (index + i) ∧ v.allowed = kinds := by
  induction body generalizing index with
  | nil => simp [statementVisits]
  | cons c body ih =>
    rw [statementVisits, List.mem_cons, ih]
    constructor
    · rintro (rfl | ⟨i, hi, hvia, hk⟩)
      · exact ⟨0, rfl, rfl, rfl⟩
      · exact ⟨i + 1, hi, by rw [hvia, Nat.add_right_comm, Nat.add_assoc], hk⟩
    · rintro ⟨i, hi, hvia, hk⟩
      obtain ⟨via, node, allowed⟩ := v
      cases i with
      | zero =>
        cases hi
        exact .inl (by rw [← hk, show via = .body index from hvia])
      | succ i => exact .inr ⟨i, hi, by rw [hvia, Nat.add_right_comm, Nat.add_assoc], hk⟩

theorem mem_bodyVisits {rule : BodyRule} {v : Visit} : v ∈ n.bodyVisits rule ↔
    ∃ kinds i, rule = .block kinds ∧ n.body[i]? = some v.node ∧ v.via = .body i ∧
      v.allowed = kinds := by
  cases rule with
  | block kinds =>
    rw [bodyVisits, mem_statementVisits]
    constructor
    · intro ⟨i, hi, hvia, hk⟩
      exact ⟨kinds, i, rfl, hi, by rw [hvia, Nat.zero_add], hk⟩
    · rintro ⟨_, i, hrule, hi, hvia, hk⟩
      cases hrule
      exact ⟨i, hi, by rw [hvia, Nat.zero_add], hk⟩
  | primary name => exact ⟨nofun, fun ⟨_, _, hrule, _⟩ => nomatch hrule⟩
  | none => exact ⟨nofun, fun ⟨_, _, hrule, _⟩ => nomatch hrule⟩

theorem mem_children_of_mem_visits {v : Visit} (h : v ∈ n.visits corpus) : v.node ∈ n.children := by
  unfold visits at h
  split at h
  · cases h
  · rcases List.mem_append.mp h with h | h
    · obtain ⟨spec, _, hv⟩ := List.mem_filterMap.mp h
      exact mem_children_of_arg? (argVisit?_eq_some_iff.mp hv).2.1
    · obtain ⟨_, _, _, hi, _⟩ := mem_bodyVisits.mp h
      exact List.mem_append_right _ (List.mem_of_getElem? hi)

theorem checkArgs_eq_visits {specs : List ArgSpec} {vs : List Visit}
    (h : n.checkArgs specs = .ok vs) : vs = specs.filterMap n.argVisit? := by
  induction specs generalizing vs with
  | nil =>
    cases h
    rfl
  | cons spec specs ih =>
    cases hv : n.arg? spec.name with
    | none =>
      rw [checkArgs, hv] at h
      cases h
    | some value =>
      cases value with
      | scalar s =>
        have hnone : n.argVisit? spec = none := by
          unfold argVisit?
          rw [hv]
          cases spec.type <;> rfl
        rw [checkArgs_scalar hv] at h
        split at h
        · rw [List.filterMap_cons, hnone]
          exact ih h
        · cases h
      | nested c =>
        rw [checkArgs_nested hv] at h
        split at h
        · next kinds ht =>
          obtain ⟨ws, hws, rfl⟩ := map_eq_ok.mp h
          have hsome : n.argVisit? spec = some ⟨.arg spec.name, c, kinds⟩ :=
            argVisit?_eq_some_iff.mpr ⟨ht, hv, rfl⟩
          rw [List.filterMap_cons, hsome, ih hws]
        · cases h

/-- a check that goes through gives the nodes below -/
theorem checkAlone_eq_visits {allowed : Option (List Kind)} {vs : List Visit}
    (h : n.checkAlone corpus allowed = .ok vs) : vs = n.visits corpus := by
  unfold checkAlone at h
  cases hs : corpus.shapeOf n.kind with
  | error u =>
    rw [hs] at h
    cases h
  | ok shape =>
    rw [hs] at h
    obtain ⟨_, _, args, statements, ha, hb, rfl⟩ := checkShape_eq_ok.mp ((mapError_eq_ok _).mp h)
    have hbody : statements = n.bodyVisits shape.body := by
      cases hr : shape.body with
      | block kinds =>
        rw [hr] at hb
        cases hb
        rfl
      | _ =>
        rw [hr, checkBody_leaf fun _ heq => by cases heq] at hb
        split at hb
        · cases hb
          rfl
        · cases hb
    rw [visits_eq (Corpus.shapeOf_eq_ok_iff.mp hs), checkArgs_eq_visits ha, hbody]

end

end Node

/-! ## stops -/

/-- a node of a tree, the path to it and the kinds that its place admits -/
structure Stop where
  path : NodePath
  allowed : Option (List Kind)
  node : Node

namespace Stop

/-- a stop is entered if it lies within the limit and its node has no fault; that gives the nodes below -/
def enter (corpus : Corpus) (limit : Nat) (s : Stop) : Except CheckFault (List Visit) :=
  if limit < s.path.length then .error (.depthExceeded limit)
  else (s.node.checkAlone corpus s.allowed).mapError (.node s.path)

def check (corpus : Corpus) (limit : Nat) (s : Stop) : Except CheckFault Unit :=
  (s.enter corpus limit).map fun _ => ()

/-- what the check of a stop asks for -/
structure Passes (corpus : Corpus) (limit : Nat) (s : Stop) : Prop where
  depth : s.path.length ≤ limit
  fits : s.node.FitsAlone corpus s.allowed

section
variable {corpus : Corpus} {limit : Nat} {s : Stop}

theorem enter_of_le (h : s.path.length ≤ limit) :
    s.enter corpus limit = (s.node.checkAlone corpus s.allowed).mapError (.node s.path) :=
  if_neg (Nat.not_lt.mpr h)

theorem enter_of_lt (h : limit < s.path.length) :
    s.enter corpus limit = .error (.depthExceeded limit) := if_pos h

theorem check_eq_ok : s.check corpus limit = .ok () ↔ s.Passes corpus limit := by
  rw [check, map_eq_ok]
  constructor
  · intro ⟨vs, hvs, _⟩
    rcases Nat.lt_or_ge limit s.path.length with hdepth | hdepth
    · rw [enter_of_lt hdepth] at hvs
      cases hvs
    · rw [enter_of_le hdepth, mapError_eq_ok] at hvs
      exact ⟨hdepth, Node.exists_checkAlone_iff.mp ⟨vs, hvs⟩⟩
  · intro h
    obtain ⟨vs, hvs⟩ := Node.exists_checkAlone_iff.mpr h.fits
    rw [enter_of_le h.depth]
    exact ⟨vs, (mapError_eq_ok _).mpr hvs, rfl⟩

/-- a fault with a path is one of the node at the stop, and its path is that of the stop -/
theorem check_eq_error {path : NodePath} {fault : NodeFault}
    (h : s.check corpus limit = .error (.node path fault)) :
    path = s.path ∧ s.node.HasFault corpus s.allowed fault := by
  rw [check] at h
  rcases Nat.lt_or_ge limit s.path.length with hdepth | hdepth
  · rw [enter_of_lt hdepth] at h
    cases h
  · rw [enter_of_le hdepth] at h
    cases hc : s.node.checkAlone corpus s.allowed with
    | ok vs =>
      rw [hc] at h
      cases h
    | error fault' =>
      rw [hc] at h
      cases h
      exact ⟨rfl, Node.hasFault_of_checkAlone hc⟩

end

end Stop

namespace Node

/-- a node at the end of a path, and all nodes below it, each before those below it -/
def stopsBelow (corpus : Corpus) (path : NodePath) (allowed : Option (List Kind)) (n : Node) :
    List Stop :=
  ⟨path, allowed, n⟩ :: (n.visits corpus).attach.flatMap fun v =>
    stopsBelow corpus (path ++ [v.1.step]) (some v.1.allowed) v.1.node
termination_by sizeOf n
decreasing_by exact sizeOf_lt_of_mem_children (mem_children_of_mem_visits v.2)

/-- all nodes of a tree in pre-order -/
def stops (corpus : Corpus) (n : Node) : List Stop :=
  n.stopsBelow corpus [⟨.root, n.kind⟩] none

section
variable {corpus : Corpus} {path : NodePath} {allowed : Option (List Kind)} {n : Node}

theorem stopsBelow_eq : n.stopsBelow corpus path allowed = ⟨path, allowed, n⟩ ::
    (n.visits corpus).flatMap fun v =>
      v.node.stopsBelow corpus (path ++ [v.step]) (some v.allowed) := by
  rw [stopsBelow]
  congr 1
  conv_rhs => rw [← List.attach_map_subtype_val (n.visits corpus), List.flatMap_map]

/-- what is checked below a node are its stops, one after the other; the levels that are left are those
that the trail has not used -/
theorem checkBelow_eq_forM {limit levels : Nat} {trail : NodePath}
    (h : trail.length + levels = limit + 1) : checkBelow corpus limit levels trail allowed n
      = (n.stopsBelow corpus trail.reverse allowed).forM (Stop.check corpus limit) := by
  induction levels generalizing trail allowed n with
  | zero =>
    have hdepth : limit < trail.reverse.length := by
      rw [List.length_reverse]
      omega
    rw [stopsBelow_eq]
    show _ = Stop.check corpus limit ⟨trail.reverse, allowed, n⟩ >>= _
    rw [Stop.check, Stop.enter_of_lt hdepth]
    rfl
  | succ levels ih =>
    have hdepth : trail.reverse.length ≤ limit := by
      rw [List.length_reverse]
      omega
    rw [checkBelow, stopsBelow_eq]
    show _ = Stop.check corpus limit ⟨trail.reverse, allowed, n⟩ >>= _
    rw [Stop.check, Stop.enter_of_le hdepth]
    cases hc : n.checkAlone corpus allowed with
    | error fault => rfl
    | ok vs =>
      obtain rfl := checkAlone_eq_visits hc
      show (n.visits corpus).forM _ = List.forM _ _
      rw [forM_flatMap]
      congr 1
      funext v
      have hlength : (v.step :: trail).length + levels = limit + 1 := by
        rw [List.length_cons]
        omega
      rw [ih hlength, List.reverse_cons]

/-- the check of a tree visits its nodes in pre-order and stops at the first that has a fault -/
theorem check_eq_forM {policy : Policy} :
    n.check corpus policy = (n.stops corpus).forM (Stop.check corpus policy.maxDepth) :=
  checkBelow_eq_forM (Nat.add_comm 1 policy.maxDepth)

end

/-! ## paths -/

/-- the kinds that an argument admits -/
def argKinds (corpus : Corpus) (n : Node) (name : String) : List Kind :=
  ((corpus.shapeOf? n.kind).bind fun shape => shape.arg? name).elim [] fun spec => spec.type.kinds

/-- the kinds that the statements may have -/
def bodyKinds (corpus : Corpus) (n : Node) : List Kind :=
  (corpus.shapeOf? n.kind).elim [] fun shape => shape.body.kinds

/-- the steps of a path lead from the root of a tree to a node, whose place admits these kinds; every
step names the kind of the node that it leads to -/
inductive Leads (corpus : Corpus) (n : Node) : NodePath → Option (List Kind) → Node → Prop
  | root : Leads corpus n [⟨.root, n.kind⟩] none n
  | arg {path : NodePath} {allowed : Option (List Kind)} {m c : Node} {name : String}
    (hm : Leads corpus n path allowed m) (hc : m.arg? name = some (.nested c)) :
    Leads corpus n (path ++ [⟨.arg name, c.kind⟩]) (some (m.argKinds corpus name)) c
  | body {path : NodePath} {allowed : Option (List Kind)} {m c : Node} {i : Nat}
    (hm : Leads corpus n path allowed m) (hc : m.body[i]? = some c) :
    Leads corpus n (path ++ [⟨.body i, c.kind⟩]) (some (m.bodyKinds corpus)) c

section
variable {corpus : Corpus} {path : NodePath} {allowed : Option (List Kind)} {n m : Node}

theorem Leads.visit (h : n.Leads corpus path allowed m) {v : Visit} (hv : v ∈ m.visits corpus) :
    n.Leads corpus (path ++ [v.step]) (some v.allowed) v.node := by
  obtain ⟨via, c, kinds⟩ := v
  cases hs : corpus.shapeOf? m.kind with
  | none =>
    rw [visits, hs] at hv
    cases hv
  | some shape =>
    rw [visits_eq hs] at hv
    rcases List.mem_append.mp hv with hv | hv
    · obtain ⟨spec, hspec, hvisit⟩ := List.mem_filterMap.mp hv
      obtain ⟨ht, hc, rfl⟩ := argVisit?_eq_some_iff.mp hvisit
      have hfind := (KindShape.arg?_eq_some_iff
        (Corpus.args_nodup (Corpus.shape?_of_shapeOf? hs))).mpr ⟨hspec, rfl⟩
      have hkinds : m.argKinds corpus spec.name = kinds := by
        rw [argKinds, hs, Option.bind_some, hfind, Option.elim_some, ht]
        rfl
      exact hkinds ▸ h.arg hc
    · obtain ⟨_, i, hb, hc, rfl, rfl⟩ := mem_bodyVisits.mp hv
      have hkinds : m.bodyKinds corpus = kinds := by
        rw [bodyKinds, hs, Option.elim_some, hb]
        rfl
      exact hkinds ▸ h.body hc

theorem Leads.of_mem_stopsBelow (h : n.Leads corpus path allowed m) :
    ∀ s ∈ m.stopsBelow corpus path allowed, n.Leads corpus s.path s.allowed s.node := by
  induction m using Node.induction generalizing path allowed with
  | h m ih =>
    intro s hs
    rw [stopsBelow_eq] at hs
    rcases List.mem_cons.mp hs with rfl | hs
    · exact h
    · obtain ⟨v, hv, hs⟩ := List.mem_flatMap.mp hs
      exact ih v.node (mem_children_of_mem_visits hv) (h.visit hv) s hs

/-- a stop is a node of the tree, at the end of its path -/
theorem leads_of_mem_stops {s : Stop} (hs : s ∈ n.stops corpus) :
    n.Leads corpus s.path s.allowed s.node := Leads.root.of_mem_stopsBelow s hs

/-- the nodes below a stop are stops -/
theorem mem_stopsBelow_of_visit {s : Stop} (hs : s ∈ m.stopsBelow corpus path allowed) {v : Visit}
    (hv : v ∈ s.node.visits corpus) :
    ⟨s.path ++ [v.step], some v.allowed, v.node⟩ ∈ m.stopsBelow corpus path allowed := by
  induction m using Node.induction generalizing path allowed with
  | h m ih =>
    rw [stopsBelow_eq] at hs ⊢
    refine List.mem_cons_of_mem _ (List.mem_flatMap.mpr ?_)
    rcases List.mem_cons.mp hs with rfl | hs
    · refine ⟨v, hv, ?_⟩
      rw [stopsBelow_eq]
      exact List.mem_cons_self
    · obtain ⟨w, hw, hs⟩ := List.mem_flatMap.mp hs
      exact ⟨w, hw, ih w.node (mem_children_of_mem_visits hw) hs⟩

/-- a nested node of a node that fits is visited -/
theorem FitsAlone.visit_arg (hf : m.FitsAlone corpus allowed) {name : String} {c : Node}
    (hc : m.arg? name = some (.nested c)) : ⟨.arg name, c, m.argKinds corpus name⟩ ∈ m.visits corpus := by
  obtain ⟨shape, hs, _, hfits⟩ := hf
  have hfit := hfits.args name
  rw [hc] at hfit
  cases hspec : shape.arg? name with
  | none =>
    rw [hspec] at hfit
    cases hfit
  | some spec =>
    rw [hspec] at hfit
    cases hfit with
    | @nested _ kinds _ ht _ =>
      obtain ⟨hmem, rfl⟩ := KindShape.mem_args_of_arg? hspec
      have hkinds : m.argKinds corpus spec.name = kinds := by
        rw [argKinds, hs, Option.bind_some, hspec, Option.elim_some, ht]
        rfl
      rw [visits_eq hs, hkinds]
      exact List.mem_append_left _
        (List.mem_filterMap.mpr ⟨spec, hmem, argVisit?_eq_some_iff.mpr ⟨ht, hc, rfl⟩⟩)

/-- a statement of a node that fits is visited -/
theorem FitsAlone.visit_body (hf : m.FitsAlone corpus allowed) {i : Nat} {c : Node}
    (hc : m.body[i]? = some c) : ⟨.body i, c, m.bodyKinds corpus⟩ ∈ m.visits corpus := by
  obtain ⟨shape, hs, _, hfits⟩ := hf
  obtain ⟨kinds, hb, _⟩ := hfits.body c (List.mem_of_getElem? hc)
  have hkinds : m.bodyKinds corpus = kinds := by
    rw [bodyKinds, hs, Option.elim_some, hb]
    rfl
  rw [visits_eq hs, hkinds]
  exact List.mem_append_right _ (mem_bodyVisits.mpr ⟨kinds, i, hb, hc, rfl, rfl⟩)

/-- if no stop has a fault, the stops are all nodes of the tree -/
theorem mem_stops_of_leads (hfits : ∀ s ∈ n.stops corpus, s.node.FitsAlone corpus s.allowed)
    (h : n.Leads corpus path allowed m) : ⟨path, allowed, m⟩ ∈ n.stops corpus := by
  induction h with
  | root =>
    rw [stops, stopsBelow_eq]
    exact List.mem_cons_self
  | arg _ hc ih => exact mem_stopsBelow_of_visit ih ((hfits _ ih).visit_arg hc)
  | body _ hc ih => exact mem_stopsBelow_of_visit ih ((hfits _ ih).visit_body hc)

/-- a check goes through if every node of the tree passes -/
theorem check_eq_ok_iff_leads {policy : Policy} : n.check corpus policy = .ok () ↔
    ∀ path allowed m, n.Leads corpus path allowed m →
      Stop.Passes corpus policy.maxDepth ⟨path, allowed, m⟩ := by
  rw [check_eq_forM, forM_eq_ok]
  constructor
  · intro hall path allowed m hm
    have hpass : ∀ s ∈ n.stops corpus, s.Passes corpus policy.maxDepth :=
      fun s hs => Stop.check_eq_ok.mp (hall s hs)
    exact hpass _ (mem_stops_of_leads (fun s hs => (hpass s hs).fits) hm)
  · intro hall s hs
    exact Stop.check_eq_ok.mpr (hall _ _ _ (leads_of_mem_stops hs))

end

end Node

end ScriptHeap
