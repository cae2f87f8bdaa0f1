import ScriptHeap.Proofs.TreeJson
/-!
# The grammar of trees

* `Json.IsScalar`, `Json.IsArg`, `Json.IsArgs`, `Json.IsBody`   what an argument may be, and what may
                       stand under `args` and under `body`;
* `Json.IsNode`        the values that spell a node, told without a reader;
* `Json.Part`, `Json.part_induction`   the values that stand as arguments and statements of a value,
                       and induction over them;
* `Node.exists_argsOf_iff`, `Node.exists_bodyOf_iff`   the parts of a node are read exactly if they are
                       in the grammar;
* `Node.exists_readNode_iff`   so is a node.
-/

namespace ScriptHeap

/-! ## the grammar -/

namespace Json

/-- a boolean, a string, an integer of 64 bits or a float -/
inductive IsScalar : Json → Prop
  | bool (b : Bool) : IsScalar (bool b)
  | string (s : String) : IsScalar (string s)
  | integer {i : Int} (h : Int64.minValue.toInt ≤ i ∧ i ≤ Int64.maxValue.toInt) :
    IsScalar (number (.integer i))
  | float (x : Binary64) : IsScalar (number (.float x))

/-- the keys that a node may have -/
def IsKey (key : String) : Prop := key = "kind" ∨ key = "args" ∨ key = "body"

/-- the kind of a node is a string, and there are no keys but those of a node -/
structure IsHead (members : Entries Json) : Prop where
  kind : ∃ kind, Entries.find? "kind" members = some (.string kind)
  keys : ∀ e ∈ members, IsKey e.1

mutual

/-- the values that spell a node -/
inductive IsNode : Json → Prop
  | object {members : Entries Json} (head : IsHead members)
    (args : IsArgs (Entries.find? "args" members)) (body : IsBody (Entries.find? "body" members)) :
    IsNode (object members)

/-- a scalar or a node -/
inductive IsArg : Json → Prop
  | scalar {v : Json} (h : IsScalar v) : IsArg v
  | node {v : Json} (h : IsNode v) : IsArg v

/-- what may stand under `args`: nothing, or an object of arguments -/
inductive IsArgs : Option Json → Prop
  | missing : IsArgs none
  | object {args : Entries Json} (h : ∀ e ∈ args, IsArg e.2) : IsArgs (some (object args))

/-- what may stand under `body`: nothing, null, or an array of nodes -/
inductive IsBody : Option Json → Prop
  | missing : IsBody none
  | null : IsBody (some null)
  | array {items : List Json} (h : ∀ v ∈ items, IsNode v) : IsBody (some (array items))

end

theorem isNode_object_iff {members : Entries Json} : (object members).IsNode ↔ IsHead members ∧
    IsArgs (Entries.find? "args" members) ∧
    IsBody (Entries.find? "body" members) := by
  constructor
  · intro h
    cases h with
    | object head args body => exact ⟨head, args, body⟩
  · rintro ⟨head, args, body⟩
    exact .object head args body

theorem IsNode.isObject {v : Json} (h : v.IsNode) : v.isObject = true := by
  cases h
  rfl

theorem IsScalar.isObject {v : Json} (h : v.IsScalar) : v.isObject = false := by
  cases h <;> rfl

theorem isKey_iff {key : String} : IsKey key ↔ key ∈ Node.keys := by
  unfold IsKey Node.keys
  simp only [List.mem_cons, List.not_mem_nil, or_false]
  constructor
  · rintro (h | h | h)
    · exact .inr (.inr h)
    · exact .inl h
    · exact .inr (.inl h)
  · rintro (h | h | h)
    · exact .inr (.inl h)
    · exact .inr (.inr h)
    · exact .inl h

/-! ## parts -/

/-- the values that stand in `args` or in `body` of a value -/
inductive Part : Json → Json → Prop
  | arg {members args : Entries Json} {name : String} {w : Json}
    (hargs : Entries.find? "args" members = some (.object args)) (hw : (name, w) ∈ args) :
    Part w (.object members)
  | item {members : Entries Json} {items : List Json} {w : Json}
    (hbody : Entries.find? "body" members = some (.array items)) (hw : w ∈ items) :
    Part w (.object members)

section
variable {v w : Json}

theorem Part.sizeOf_lt (h : w.Part v) : sizeOf w < sizeOf v := by
  cases h with
  | @arg members args name w hargs hw =>
    have hmember := sizeOf_lt_of_member? (v := .object members) hargs
    have hentry := List.sizeOf_lt_of_mem hw
    simp only [Prod.mk.sizeOf_spec, object.sizeOf_spec] at hmember hentry ⊢
    omega
  | @item members items w hbody hw =>
    have hmember := sizeOf_lt_of_member? (v := .object members) hbody
    have hitem := List.sizeOf_lt_of_mem hw
    simp only [array.sizeOf_spec, object.sizeOf_spec] at hmember hitem ⊢
    omega

/-- what holds of a value when it holds of its parts holds of every value -/
theorem part_induction {P : Json → Prop} (h : ∀ v, (∀ w, w.Part v → P w) → P v) (v : Json) : P v :=
  h v fun w _ => part_induction h w
termination_by sizeOf v
decreasing_by exact Part.sizeOf_lt ‹_›

/-- the parts of a map are maps -/
theorem Ordered.of_part (hv : v.Ordered) (h : w.Part v) : w.Ordered := by
  cases h with
  | arg hargs hw =>
    cases hv with
    | object _ hmembers =>
      cases hmembers _ (Entries.mem_of_find? hargs) with
      | object _ hall => exact hall _ hw
  | item hbody hw =>
    cases hv with
    | object _ hmembers =>
      cases hmembers _ (Entries.mem_of_find? hbody) with
      | array hall => exact hall _ hw

end

end Json

/-! ## what is read -/

theorem Scalar.exists_ofJson?_iff {v : Json} : (∃ s, ofJson? v = some s) ↔ v.IsScalar := by
  constructor
  · rintro ⟨s, h⟩
    match v with
    | .bool b => exact .bool b
    | .string t => exact .string t
    | .number (.float x) => exact .float x
    | .number (.integer i) =>
      obtain ⟨w, hw, _⟩ := Option.map_eq_some_iff.mp h
      exact .integer (Option.ite_none_right_eq_some.mp hw).1
  · intro h
    cases h with
    | bool b => exact ⟨_, rfl⟩
    | string t => exact ⟨_, rfl⟩
    | integer h => exact ⟨_, Option.map_eq_some_iff.mpr ⟨_, if_pos h, rfl⟩⟩
    | float x => exact ⟨_, rfl⟩

namespace Node

section
variable {steps : List JsonStep} {v : Json}

theorem exists_readHead_iff {members : Entries Json} :
    (∃ kind, readHead steps (.object members) = .ok kind) ↔ Json.IsHead members := by
  simp only [readHead_eq_ok, ← Json.isKey_iff]
  constructor
  · rintro ⟨kind, _, heq, hkeys, hkind⟩
    cases heq
    exact ⟨⟨kind, hkind⟩, hkeys⟩
  · rintro ⟨⟨kind, hkind⟩, hkeys⟩
    exact ⟨kind, members, rfl, hkeys, hkind⟩

/-- an argument is read exactly if it is in the grammar, given that this is so for nodes -/
theorem exists_argOf_iff (hnode : (∃ n, readNode steps v = .ok n) ↔ v.IsNode) :
    (∃ value, argOf steps v = .ok value) ↔ v.IsArg := by
  cases hobject : v.isObject with
  | true =>
    have harg : argOf steps v = (readNode steps v).map .nested := if_pos hobject
    have hscalar : ¬ v.IsScalar := fun h => by
      rw [h.isObject] at hobject
      cases hobject
    simp only [harg, map_eq_ok]
    constructor
    · rintro ⟨_, n, hn, _⟩
      exact .node (hnode.mp ⟨n, hn⟩)
    · intro h
      cases h with
      | scalar h => exact absurd h hscalar
      | node h =>
        obtain ⟨n, hn⟩ := hnode.mpr h
        exact ⟨_, n, hn, rfl⟩
  | false =>
    rw [argOf_of_not_object steps hobject]
    constructor
    · rintro ⟨value, h⟩
      cases hs : Scalar.ofJson? v with
      | some s => exact .scalar (Scalar.exists_ofJson?_iff.mp ⟨s, hs⟩)
      | none =>
        rw [hs] at h
        cases h
    · intro h
      cases h with
      | scalar h =>
        obtain ⟨s, hs⟩ := Scalar.exists_ofJson?_iff.mpr h
        rw [hs]
        exact ⟨_, rfl⟩
      | node h =>
        rw [h.isObject] at hobject
        cases hobject

theorem exists_readArgs_iff {members : List (String × Json)} :
    (∃ values, readArgs steps members = .ok values) ↔
      ∀ e ∈ members, ∃ value, argOf (steps ++ [.arg e.1]) e.2 = .ok value := by
  induction members with
  | nil =>
    rw [readArgs_nil]
    exact ⟨fun _ e he => absurd he List.not_mem_nil, fun _ => ⟨[], rfl⟩⟩
  | cons e members ih =>
    obtain ⟨name, v⟩ := e
    simp only [readArgs_cons, bind_eq_ok, List.forall_mem_cons, ← ih]
    constructor
    · rintro ⟨_, value, hvalue, values, hvalues, _⟩
      exact ⟨⟨value, hvalue⟩, values, hvalues⟩
    · rintro ⟨⟨value, hvalue⟩, values, hvalues⟩
      exact ⟨_, value, hvalue, values, hvalues, rfl⟩

theorem exists_readBody_iff {index : Nat} {items : List Json} :
    (∃ nodes, readBody steps index items = .ok nodes) ↔
      ∀ i v, items[i]? = some v → ∃ n, readNode (steps ++ [.item (index + i)]) v = .ok n := by
  induction items generalizing index with
  | nil =>
    rw [readBody_nil]
    exact ⟨fun _ i v hv => (by cases hv), fun _ => ⟨[], rfl⟩⟩
  | cons w items ih =>
    simp only [readBody_cons, bind_eq_ok]
    constructor
    · rintro ⟨_, n, hn, nodes, hnodes, _⟩ i v hv
      cases i with
      | zero =>
        cases hv
        exact ⟨n, hn⟩
      | succ i =>
        have hrest := ih.mp ⟨nodes, hnodes⟩ i v hv
        rwa [Nat.add_right_comm, Nat.add_assoc] at hrest
    · intro h
      obtain ⟨n, hn⟩ := h 0 w rfl
      obtain ⟨nodes, hnodes⟩ := ih.mpr fun i v hv => by
        have hrest := h (i + 1) v hv
        rwa [← Nat.add_assoc, Nat.add_right_comm] at hrest
      exact ⟨_, n, hn, nodes, hnodes, rfl⟩

/-- what stands under `args` is read exactly if it is in the grammar -/
theorem exists_argsOf_iff {v? : Option Json} (hnode : ∀ args, v? = some (.object args) →
      ∀ e ∈ args, ∀ steps, (∃ n, readNode steps e.2 = .ok n) ↔ e.2.IsNode) :
    (∃ args, argsOf steps v? = .ok args) ↔ Json.IsArgs v? := by
  constructor
  · rintro ⟨values, h⟩
    match v? with
    | none => exact .missing
    | some (.object args) =>
      refine .object fun e he => ?_
      exact (exists_argOf_iff (hnode args rfl e he _)).mp (exists_readArgs_iff.mp ⟨values, h⟩ e he)
  · intro h
    cases h with
    | missing => exact ⟨[], rfl⟩
    | @object args hargs =>
      refine exists_readArgs_iff.mpr fun e he => ?_
      exact (exists_argOf_iff (hnode args rfl e he _)).mpr (hargs e he)

/-- so is what stands under `body` -/
theorem exists_bodyOf_iff {v? : Option Json} (hnode : ∀ items, v? = some (.array items) →
      ∀ v ∈ items, ∀ steps, (∃ n, readNode steps v = .ok n) ↔ v.IsNode) :
    (∃ body, bodyOf steps v? = .ok body) ↔ Json.IsBody v? := by
  constructor
  · rintro ⟨nodes, h⟩
    match v? with
    | none => exact .missing
    | some .null => exact .null
    | some (.array items) =>
      refine .array fun v hv => ?_
      obtain ⟨i, hi⟩ := List.mem_iff_getElem?.mp hv
      exact (hnode items rfl v hv _).mp (exists_readBody_iff.mp ⟨nodes, h⟩ i v hi)
  · intro h
    cases h with
    | missing => exact ⟨[], rfl⟩
    | null => exact ⟨[], rfl⟩
    | @array items hitems =>
      refine exists_readBody_iff.mpr fun i v hi => ?_
      have hv := List.mem_of_getElem? hi
      exact (hnode items rfl v hv _).mpr (hitems v hv)

end

/-- **A value is read as a node exactly if it is in the grammar** -/
theorem exists_readNode_iff (steps : List JsonStep) (v : Json) :
    (∃ n, readNode steps v = .ok n) ↔ v.IsNode := by
  induction v using Json.part_induction generalizing steps with
  | h v ih =>
    constructor
    · rintro ⟨n, hn⟩
      obtain ⟨members, kind, args, body, rfl, hkeys, hkind, hargs, hbody, _⟩ := readNode_eq_ok.mp hn
      refine Json.isNode_object_iff.mpr ⟨⟨⟨kind, hkind⟩, fun e he => Json.isKey_iff.mpr (hkeys e he)⟩,
        ?_, ?_⟩
      · exact (exists_argsOf_iff fun l hl e he steps => ih e.2 (.arg hl he) steps).mp ⟨args, hargs⟩
      · exact (exists_bodyOf_iff fun l hl w hw steps => ih w (.item hl hw) steps).mp ⟨body, hbody⟩
    · intro h
      cases h with
      | @object members head hargs hbody =>
        obtain ⟨kind, hkind⟩ := head.kind
        obtain ⟨args, hargs⟩ := (exists_argsOf_iff fun l hl e he steps =>
          ih e.2 (.arg hl he) steps).mpr hargs
        obtain ⟨body, hbody⟩ := (exists_bodyOf_iff fun l hl w hw steps =>
          ih w (.item hl hw) steps).mpr hbody
        exact ⟨_, readNode_eq_ok.mpr ⟨members, kind, args, body, rfl,
          fun e he => Json.isKey_iff.mp (head.keys e he), hkind, hargs, hbody, rfl⟩⟩

end Node

end ScriptHeap
