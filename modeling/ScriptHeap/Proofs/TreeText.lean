import ScriptHeap.Proofs.DepthLimit
import ScriptHeap.Proofs.JsonText
import ScriptHeap.Proofs.TreeJson
/-!
# The canonical text of trees

* `Node.readable_toJson_iff`   the form of a tree nests exactly twice as deep as the tree;
* `Sample.nested_check`   the check lets sequences through to twice the depth up to which they are
                       read;
* `Node.text_read_to_depth`   a library that reads doubles back and lets 127 arrays and objects be open
                       reads a tree from its canonical bytes up to a depth of 63, and from 64 on
                       takes them for no JSON text.
-/

namespace ScriptHeap

namespace Node

/-! ## nesting -/

theorem argsToJson_eq_map (l : List (String × Arg Node)) :
    argsToJson l = l.map fun e => (e.1, argToJson e.2) := by
  induction l with
  | nil => rw [argsToJson, List.map_nil]
  | cons e l ih => rw [argsToJson_cons, ih, List.map_cons]

theorem bodyToJson_eq_map (l : List Node) : bodyToJson l = l.map toJson := by
  induction l with
  | nil => rw [bodyToJson, List.map_nil]
  | cons c l ih => rw [bodyToJson, ih, List.map_cons]

section
variable {n : Node} {levels : Nat}

/-- scalars do not nest -/
theorem readable_argToJson_iff {v : Arg Node} :
    (argToJson v).Readable levels ↔ ∀ c, v = .nested c → c.toJson.Readable levels := by
  cases v with
  | scalar s => exact ⟨fun _ => nofun, fun _ => s.readable_toJson⟩
  | nested c => exact ⟨fun h d hd => by cases hd; exact h, fun h => h c rfl⟩

theorem readable_args_iff (hs : Entries.Sorted n.args) :
    (Json.object (argsToJson n.args)).Readable (levels + 1) ↔
      ∀ c ∈ n.argNodes, c.toJson.Readable levels := by
  have hsorted : Entries.Sorted (n.args.map fun e => (e.1, argToJson e.2)) :=
    (Entries.sorted_map argToJson).mpr hs
  rw [argsToJson_eq_map, Json.readable_object_iff, and_iff_right hsorted]
  simp only [List.forall_mem_map, readable_argToJson_iff, mem_argNodes]
  exact ⟨fun h c ⟨name, hc⟩ => h _ hc c rfl, fun h e he c hc => h c ⟨e.1, hc ▸ he⟩⟩

theorem readable_body_iff :
    (∀ v ∈ bodyForm? n.body, v.Readable (levels + 1)) ↔ ∀ c ∈ n.body, c.toJson.Readable levels := by
  cases hbody : n.body with
  | nil => simp [bodyForm?]
  | cons c body =>
    simp only [bodyForm?, Option.mem_some_iff, forall_eq', Json.readable_array_iff,
      bodyToJson_eq_map, List.forall_mem_map]

/-- two brackets are open around the nodes below a node: those of the node, and those of its arguments
or of its statements -/
theorem readable_toJson_children (hs : Entries.Sorted n.args) :
    n.toJson.Readable (levels + 2) ↔ ∀ c ∈ n.children, c.toJson.Readable levels := by
  have hmembers : (∀ e ∈ record (some (.object (argsToJson n.args))) (bodyForm? n.body) n.kind,
      e.2.Readable (levels + 1)) ↔ (Json.object (argsToJson n.args)).Readable (levels + 1) ∧
        ∀ v ∈ bodyForm? n.body, v.Readable (levels + 1) := by
    have hkind : (Json.string n.kind).Readable (levels + 1) := .string _
    cases hbody : bodyForm? n.body <;> simp [record, hkind]
  rw [toJson_eq, Json.readable_object_iff, and_iff_right (sorted_record _ _ _), hmembers,
    readable_args_iff hs, readable_body_iff]
  exact List.forall_mem_append.symm

theorem depth_children_iff :
    2 * n.depth ≤ levels + 2 ↔ ∀ c ∈ n.children, 2 * c.depth ≤ levels := by
  have hhalf : ∀ {d k : Nat}, 2 * d ≤ k ↔ d ≤ k / 2 := by
    intro d k
    omega
  simp only [hhalf]
  rw [show (levels + 2) / 2 = levels / 2 + 1 by omega, depth_le_iff]

/-- **The form of a tree nests twice as deep as the tree**, however it nests -/
theorem readable_toJson_iff (hn : n.Ordered) : n.toJson.Readable levels ↔ 2 * n.depth ≤ levels := by
  induction hn generalizing levels with
  | @mk n hs _ ih =>
    match levels with
    | 0 =>
      have hdepth := n.depth_pos
      rw [toJson_eq]
      exact iff_of_false Json.not_readable_zero_object (by omega)
    | 1 =>
      have hdepth := n.depth_pos
      refine iff_of_false (fun h => ?_) (by omega)
      rw [toJson_eq, Json.readable_object_iff] at h
      exact Json.not_readable_zero_object (h.2 _ List.mem_cons_self)
    | levels + 2 =>
      rw [readable_toJson_children hs, depth_children_iff]
      exact forall₂_congr fun c hc => ih c hc

/-! ## reading the text -/

theorem ofBytes_eq_ok {lib : JsonLibrary} {bytes : ByteArray} {v : Json}
    (hbytes : Json.ofBytes? lib bytes = some v) (hv : ofJson v = .ok n) :
    ofBytes lib bytes = .ok n := by
  unfold ofBytes
  simp only [hbytes, hv]
  rfl

/-- the text of a tree is read as the tree up to a depth of 63; from 64 on it has 128 brackets open at
once, one more than the reader allows -/
theorem ofBytes_toJson {lib : JsonLibrary} (hlib : lib.ReadsBack) (hlimit : lib.nestingLimit = 127)
    (hn : n.Ordered) (hf : n.Finite) :
    ofBytes lib n.toJson.canonicalBytes = if n.depth ≤ 63 then .ok n else .error .syntaxError := by
  have hread : n.toJson.Readable lib.nestingLimit ↔ n.depth ≤ 63 := by
    rw [readable_toJson_iff hn, hlimit]
    omega
  split
  · next hdepth =>
    exact ofBytes_eq_ok (Json.ofBytes?_canonicalBytes hlib (hread.mpr hdepth))
      ((settles_toJson hn []).1 hf)
  · next hdepth =>
    have hdeep : n.toJson.Readable (2 * n.depth) := (readable_toJson_iff hn).mpr (Nat.le_refl _)
    have hnone := Json.ofBytes?_canonicalBytes_eq_none hlib hdeep (mt hread.mp hdepth)
    unfold ofBytes
    rw [hnone]

end

end Node

/-! ## sequences in sequences -/

namespace Sample

theorem children_nestedBelow (k : Nat) : (nestedBelow (k + 1)).children = [nestedBelow k] := rfl

theorem depth_nestedBelow (k : Nat) : (nestedBelow k).depth = k + 1 := by
  induction k with
  | zero => rw [Node.depth_eq]; rfl
  | succ k ih =>
    rw [Node.depth_eq, children_nestedBelow, List.map_singleton, ih]
    exact Nat.add_comm 1 (k + 1)

theorem nestedBelow_ordered (k : Nat) : (nestedBelow k).Ordered := by
  induction k with
  | zero => exact ⟨Entries.sorted_nil, nofun⟩
  | succ k ih => exact ⟨Entries.sorted_nil, fun c hc => List.mem_singleton.mp hc ▸ ih⟩

theorem nestedBelow_finite (k : Nat) : (nestedBelow k).Finite := by
  induction k with
  | zero => exact ⟨nofun, nofun⟩
  | succ k ih => exact ⟨nofun, fun c hc => List.mem_singleton.mp hc ▸ ih⟩

theorem nestedBelow_valid {allowed : Option (List Kind)} (ha : Admits allowed .sequence) (k : Nat) :
    (nestedBelow k).Valid nestingCorpus (k + 1) allowed := by
  have hshape : nestingCorpus.shapeOf? "sequence" = some ⟨.sequence, .block [.sequence], []⟩ := rfl
  induction k generalizing allowed with
  | zero => exact ⟨_, hshape, ha, fun _ => .absent, nofun⟩
  | succ k ih =>
    refine ⟨_, hshape, ha, fun _ => .absent, fun c hc => ⟨[.sequence], rfl, ?_⟩⟩
    rw [List.mem_singleton.mp hc]
    exact ih (admits_some.mpr List.mem_cons_self)

/-- nested sequences are accepted up to the limit -/
theorem nested_check {d : Nat} (hpos : 0 < d) (hd : d ≤ 128) :
    (nested d).check nestingCorpus .default = .ok () ∧ (nested d).depth = d := by
  have hdepth : (nested d).depth = d := (depth_nestedBelow (d - 1)).trans (Nat.sub_add_cancel hpos)
  have hle : (nested d).depth ≤ Policy.default.maxDepth := hdepth.trans_le hd
  exact ⟨Node.check_eq_ok.mpr ((nestedBelow_valid (admits_none _) (d - 1)).of_depth_le hle), hdepth⟩

theorem nested_finite (d : Nat) : (nested d).Finite := nestedBelow_finite (d - 1)

theorem nested_ordered (d : Nat) : (nested d).Ordered := nestedBelow_ordered (d - 1)

end Sample

/-- **The text of a tree is read as the tree up to a depth of 63**, whatever the tree looks like
otherwise, and is no JSON text from 64 on: for a library that reads doubles back, accepts 127 open
arrays and objects and refuses the next. So from 64 up to the default limit of 128 there are, at every
depth, trees that are accepted and that cannot be read from their own text. -/
theorem Node.text_read_to_depth {lib : JsonLibrary} (hlib : lib.ReadsBack)
    (hlimit : lib.nestingLimit = 127) :
    (∀ n : Node, n.Ordered → n.Finite → Node.ofBytes lib n.toJson.canonicalBytes =
      if n.depth ≤ 63 then .ok n else .error .syntaxError) ∧
    ∀ d, 64 ≤ d → d ≤ Policy.default.maxDepth → ∃ (corpus : Corpus) (n : Node), n.depth = d ∧
      n.check corpus .default = .ok () ∧
      Node.ofBytes lib n.toJson.canonicalBytes = .error .syntaxError := by
  refine ⟨fun n => ofBytes_toJson hlib hlimit, fun d hlow hhigh => ?_⟩
  obtain ⟨hcheck, hdepth⟩ := Sample.nested_check (by omega) hhigh
  refine ⟨Sample.nestingCorpus, Sample.nested d, hdepth, hcheck, ?_⟩
  rw [ofBytes_toJson hlib hlimit (Sample.nested_ordered d) (Sample.nested_finite d), hdepth]
  exact if_neg (by omega)

theorem Sample.nested_text :
    Node.ofBytes .nearest (nested 63).toJson.canonicalBytes = .ok (nested 63) ∧
    (nested 64).check nestingCorpus .default = .ok () ∧
    Node.ofBytes .nearest (nested 64).toJson.canonicalBytes = .error .syntaxError ∧
    ∃ (corpus : Corpus) (n : Node), n.depth = 128 ∧ n.check corpus .default = .ok () ∧
      Node.ofBytes .nearest n.toJson.canonicalBytes = .error .syntaxError := by
  obtain ⟨hread, hdeep⟩ := Node.text_read_to_depth JsonLibrary.nearest_readsBack rfl
  have hin := hread (nested 63) (nested_ordered 63) (nested_finite 63)
  have hout := hread (nested 64) (nested_ordered 64) (nested_finite 64)
  rw [(nested_check (by decide) (by decide)).2] at hin hout
  exact ⟨hin, (nested_check (by decide) (by decide)).1, hout, hdeep 128 (by decide) (Nat.le_refl _)⟩

end ScriptHeap
