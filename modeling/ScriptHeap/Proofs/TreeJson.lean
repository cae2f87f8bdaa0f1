import ScriptHeap.Node.Codec
import ScriptHeap.Proofs.Records
import ScriptHeap.Sample
/-!
# The JSON form of a tree

* `Node.Finite`        no infinity and no NaN anywhere in a tree;
* `Json.nodeForm`      a value with `args` written out, and a `body` without statements left out, at
                       every node of it;
* `Node.readNode_eq`   the reading of a node, part by part;
* `Settles`            a computation succeeds exactly if a condition holds, else it fails in one way;
* `Node.settles_toJson`   a tree is read from its own form exactly if it is finite;
* `Node.formRead`      what is read has the form of the value that it is read from;
* `Node.json_round_trip`   both together.
-/

namespace ScriptHeap

/-! ## trees without infinities -/

theorem Scalar.toJson_of_not_finite {s : Scalar} (hs : ¬ s.Finite) : s.toJson = .null := by
  unfold Finite at hs
  simp only [not_forall] at hs
  obtain ⟨x, rfl, hx⟩ := hs
  exact if_neg hx

theorem Scalar.finite_of_ofJson? {levels : Nat} {v : Json} {s : Scalar} (hv : v.Readable levels)
    (h : ofJson? v = some s) : s.Finite := by
  rintro x rfl
  cases hv with
  | @number _ n hn =>
    cases n with
    | float y =>
      cases h
      exact hn
    | integer i =>
      obtain ⟨w, _, hw⟩ := Option.map_eq_some_iff.mp h
      cases hw
  | _ => cases h

theorem Scalar.isObject_toJson (s : Scalar) : s.toJson.isObject = false := by
  cases s with
  | float x =>
    show (if x.isFinite then Json.number (.float x) else .null).isObject = false
    split <;> rfl
  | integer i => rfl
  | string t => rfl
  | boolean b => rfl

namespace Node

/-- no infinity and no NaN among the arguments, here and in all nodes below -/
inductive Finite : Node → Prop
  | mk {n : Node} (scalars : ∀ name s, (name, Arg.scalar s) ∈ n.args → s.Finite)
    (children : ∀ c ∈ n.children, Finite c) : Finite n

/-- no infinity and no NaN in an argument -/
def FiniteArg : Arg Node → Prop
  | .scalar s => s.Finite
  | .nested c => c.Finite

theorem finite_iff {n : Node} :
    n.Finite ↔ (∀ e ∈ n.args, FiniteArg e.2) ∧ ∀ c ∈ n.body, c.Finite := by
  constructor
  · intro ⟨hscalars, hchildren⟩
    refine ⟨fun ⟨name, v⟩ he => ?_, fun c hc => hchildren c (List.mem_append_right _ hc)⟩
    cases v with
    | scalar s => exact hscalars name s he
    | nested c => exact hchildren c (List.mem_append_left _ (mem_argNodes.mpr ⟨name, he⟩))
  · intro ⟨hargs, hbody⟩
    refine ⟨fun name s he => hargs _ he, fun c hc => ?_⟩
    rcases List.mem_append.mp hc with hc | hc
    · obtain ⟨name, he⟩ := mem_argNodes.mp hc
      exact hargs _ he
    · exact hbody c hc

end Node

/-! ## the form of a value -/

namespace Json

/-- a body without statements -/
def isBlank : Json → Bool
  | null | array [] => true
  | _ => false

/-- the members of a node with `args` written out and a `body` without statements left out -/
def tidy (members : Entries Json) : Entries Json :=
  let rest := members.filter fun e => !(e.1 == "body" && e.2.isBlank)
  if (Entries.find? "args" rest).isSome then rest else Entries.insert "args" (.object []) rest

mutual

/-- a node with all nodes in it tidied up; nothing else is changed -/
def nodeForm : Json → Json
  | object members => object (tidy (memberForms members))
  | v => v

/-- `memberForm` on every member -/
def memberForms : List (String × Json) → List (String × Json)
  | [] => []
  | (key, v) :: rest => (key, memberForm key v) :: memberForms rest

/-- the nodes lie in `args` and in `body` -/
def memberForm (key : String) : Json → Json
  | object args => if key = "args" then object (argForms args) else object args
  | array items => if key = "body" then array (itemForms items) else array items
  | v => v

/-- `nodeForm` on every argument; an argument that is no node is left alone -/
def argForms : List (String × Json) → List (String × Json)
  | [] => []
  | (name, v) :: rest => (name, nodeForm v) :: argForms rest

/-- `nodeForm` on every statement -/
def itemForms : List Json → List Json
  | [] => []
  | v :: rest => nodeForm v :: itemForms rest

end

end Json

/-! ## computations that settle a condition -/

/-- the computation gives `a` if the condition holds, and otherwise finds what is no argument -/
def Settles {α : Type} (p : Prop) (x : Except ShapeFault α) (a : α) : Prop :=
  (p → x = .ok a) ∧ (¬ p → ∃ f, x = .error f ∧ f.reason = .notArgument)

namespace Settles

section
variable {α β : Type} {p q : Prop} {x : Except ShapeFault α} {a : α}

theorem of_ok (a : α) : Settles True (.ok a) a := ⟨fun _ => rfl, fun h => absurd trivial h⟩

theorem congr (hx : Settles p x a) (h : p ↔ q) : Settles q x a := by
  rwa [← h]

theorem bind {f : α → Except ShapeFault β} {b : β} (hx : Settles p x a) (hf : Settles q (f a) b) :
    Settles (p ∧ q) (x >>= f) b := by
  obtain ⟨hok, herror⟩ := hx
  by_cases hp : p
  · rw [hok hp]
    exact hf.congr (and_iff_right hp).symm
  · refine ⟨fun h => absurd h.1 hp, fun _ => ?_⟩
    obtain ⟨fault, hfault, hreason⟩ := herror hp
    rw [hfault]
    exact ⟨fault, rfl, hreason⟩

theorem bind_ok (hx : Settles p x a) (f : α → β) :
    Settles p (x >>= fun y => .ok (f y)) (f a) :=
  (hx.bind (.of_ok (f a))).congr (and_iff_left trivial)

theorem map (hx : Settles p x a) (f : α → β) : Settles p (x.map f) (f a) := by
  have hf := hx.bind_ok f
  cases x <;> exact hf

end

end Settles

/-! ## the members of a node -/

namespace Node

/-- the members of a node in the order of their keys -/
def record (args? body? : Option Json) (kind : String) : Entries Json :=
  (args?.map fun v => ("args", v)).toList ++ (body?.map fun v => ("body", v)).toList ++
    [("kind", .string kind)]

section
variable (args? body? : Option Json) (kind : String)

theorem find?_record_args : Entries.find? "args" (record args? body? kind) = args? := by
  cases args? <;> cases body? <;> rfl

theorem find?_record_body : Entries.find? "body" (record args? body? kind) = body? := by
  cases args? <;> cases body? <;> rfl

theorem find?_record_kind :
    Entries.find? "kind" (record args? body? kind) = some (.string kind) := by
  cases args? <;> cases body? <;> rfl

theorem names_record : ((record args? body? kind).map Prod.fst).Sublist keys := by
  have hmember : ∀ (key : String) (v? : Option Json),
      ((v?.map fun v => (key, v)).toList.map Prod.fst).Sublist [key] := by
    intro key v?
    cases v? with
    | none => exact List.nil_sublist _
    | some v => exact .refl _
  rw [record, List.map_append, List.map_append]
  exact ((hmember "args" args?).append (hmember "body" body?)).append (.refl ["kind"])

theorem sorted_record : (record args? body? kind).Sorted := by
  have hkeys : keys.Pairwise (· < ·) := by decide
  exact List.pairwise_map.mp (hkeys.sublist (names_record args? body? kind))

theorem keys_of_mem_record : ∀ e ∈ record args? body? kind, e.1 ∈ keys := fun _ he =>
  (names_record args? body? kind).mem (List.mem_map_of_mem he)

end

/-- sorted members with the keys of a node are told by what is found under these keys -/
theorem eq_record {members : Entries Json} {kind : String} (hs : members.Sorted)
    (hkeys : ∀ e ∈ members, e.1 ∈ keys)
    (hkind : Entries.find? "kind" members = some (.string kind)) :
    members = record (Entries.find? "args" members) (Entries.find? "body" members) kind := by
  refine Entries.ext_find?_of_names hs (sorted_record _ _ kind) hkeys
    (keys_of_mem_record _ _ kind) fun key hkey => ?_
  simp only [keys, List.mem_cons, List.not_mem_nil, or_false] at hkey
  rcases hkey with rfl | rfl | rfl
  · rw [find?_record_args]
  · rw [find?_record_body]
  · rw [find?_record_kind, hkind]

/-! ## writing -/

/-- the JSON form of an argument -/
def argToJson : Arg Node → Json
  | .scalar s => s.toJson
  | .nested c => c.toJson

/-- the `body` of statements, if there are any -/
def bodyForm? : List Node → Option Json
  | [] => none
  | body => some (.array (bodyToJson body))

theorem argsToJson_cons (e : String × Arg Node) (l : List (String × Arg Node)) :
    argsToJson (e :: l) = (e.1, argToJson e.2) :: argsToJson l := by
  obtain ⟨name, v⟩ := e
  cases v <;> rw [argsToJson] <;> rfl

theorem toJson_eq (n : Node) : n.toJson =
    .object (record (some (.object (argsToJson n.args))) (bodyForm? n.body) n.kind) := by
  obtain ⟨kind, args, body⟩ := n
  cases body with
  | nil => rw [toJson]; rfl
  | cons c body => rw [toJson]; rfl

/-! ## reading -/

/-- the arguments that stand under `args` -/
def argsOf (steps : List JsonStep) : Option Json → Except ShapeFault (List (String × Arg Node))
  | none => .ok []
  | some (.object args) => readArgs steps args
  | some _ => .error ⟨steps, .argsNotObject⟩

/-- the statements that stand under `body` -/
def bodyOf (steps : List JsonStep) : Option Json → Except ShapeFault (List Node)
  | none | some .null => .ok []
  | some (.array items) => readBody steps 0 items
  | some _ => .error ⟨steps, .bodyNotArray⟩

/-- the argument that a value stands for -/
def argOf (steps : List JsonStep) (v : Json) : Except ShapeFault (Arg Node) :=
  if v.isObject then (readNode steps v).map .nested
  else match Scalar.ofJson? v with
    | some s => .ok (.scalar s)
    | none => .error ⟨steps, .notArgument⟩

theorem argOf_of_not_object (steps : List JsonStep) {v : Json} (hv : v.isObject = false) :
    argOf steps v = match Scalar.ofJson? v with
      | some s => .ok (.scalar s)
      | none => .error ⟨steps, .notArgument⟩ :=
  if_neg (Bool.eq_false_iff.mp hv)

theorem readNode_eq (steps : List JsonStep) (v : Json) : readNode steps v =
    readHead steps v >>= fun kind => argsOf steps (v.member? "args") >>= fun args =>
      bodyOf steps (v.member? "body") >>= fun body => .ok ⟨kind, Entries.ofList args, body⟩ := by
  rw [readNode]
  refine bind_congr fun kind => ?_
  refine congrArg₂ (· >>= ·) ?_ (funext fun args => congrArg₂ (· >>= ·) ?_ rfl)
  · unfold argsOf
    split <;> simp only [*]
  · unfold bodyOf
    split <;> simp only [*]

theorem readArgs_nil (steps : List JsonStep) : readArgs steps [] = .ok [] := by rw [readArgs]

theorem readArgs_cons (steps : List JsonStep) (name : String) (v : Json)
    (rest : List (String × Json)) : readArgs steps ((name, v) :: rest) =
      argOf (steps ++ [.arg name]) v >>= fun value => readArgs steps rest >>= fun values =>
        .ok ((name, value) :: values) := by
  rw [readArgs]
  rfl

theorem readBody_nil (steps : List JsonStep) (index : Nat) : readBody steps index [] = .ok [] := by
  rw [readBody]

theorem readBody_cons (steps : List JsonStep) (index : Nat) (v : Json) (rest : List Json) :
    readBody steps index (v :: rest) = readNode (steps ++ [.item index]) v >>= fun n =>
      readBody steps (index + 1) rest >>= fun ns => .ok (n :: ns) := by
  rw [readBody]
  rfl

theorem readHead_eq_ok {steps : List JsonStep} {v : Json} {kind : String} :
    readHead steps v = .ok kind ↔ ∃ members, v = .object members ∧ (∀ e ∈ members, e.1 ∈ keys) ∧
      Entries.find? "kind" members = some (.string kind) := by
  unfold readHead
  constructor
  · intro h
    split at h
    · cases h
    · next members hmembers =>
      obtain rfl := Json.members?_eq_some_iff.mp hmembers
      split at h
      · cases h
      · next kind' hkind =>
        split at h
        · cases h
        · next hnone =>
          cases h
          obtain ⟨w, hw, hstring⟩ := Option.bind_eq_some_iff.mp hkind
          obtain rfl := Json.string?_eq_some_iff.mp hstring
          exact ⟨members, rfl, Entries.find?_foreign_eq_none_iff.mp hnone, hw⟩
  · rintro ⟨members, rfl, hall, hfind⟩
    simp only [Json.members?, Json.member?, hfind, Option.bind_some, Json.string?,
      Entries.find?_foreign_eq_none_iff.mpr hall]

/-- a node is read from an object, part by part -/
theorem readNode_eq_ok {steps : List JsonStep} {v : Json} {n : Node} :
    readNode steps v = .ok n ↔ ∃ members kind args body, v = .object members ∧
      (∀ e ∈ members, e.1 ∈ keys) ∧ Entries.find? "kind" members = some (.string kind) ∧
      argsOf steps (Entries.find? "args" members) = .ok args ∧
      bodyOf steps (Entries.find? "body" members) = .ok body ∧
      n = ⟨kind, Entries.ofList args, body⟩ := by
  rw [readNode_eq, bind_eq_ok]
  constructor
  · intro ⟨kind, hhead, h⟩
    obtain ⟨members, rfl, hkeys, hkind⟩ := readHead_eq_ok.mp hhead
    obtain ⟨args, hargs, h⟩ := bind_eq_ok.mp h
    obtain ⟨body, hbody, h⟩ := bind_eq_ok.mp h
    exact ⟨members, kind, args, body, rfl, hkeys, hkind, hargs, hbody, (Except.ok.inj h).symm⟩
  · rintro ⟨members, kind, args, body, rfl, hkeys, hkind, hargs, hbody, rfl⟩
    exact ⟨kind, readHead_eq_ok.mpr ⟨members, rfl, hkeys, hkind⟩,
      bind_eq_ok.mpr ⟨args, hargs, bind_eq_ok.mpr ⟨body, hbody, rfl⟩⟩⟩

/-! ## a tree read from its own form -/

theorem readNode_toJson (steps : List JsonStep) (n : Node) : readNode steps n.toJson =
    readArgs steps (argsToJson n.args) >>= fun args =>
      readBody steps 0 (bodyToJson n.body) >>= fun body =>
        .ok ⟨n.kind, Entries.ofList args, body⟩ := by
  have hhead : readHead steps (.object (record (some (.object (argsToJson n.args)))
      (bodyForm? n.body) n.kind)) = .ok n.kind :=
    readHead_eq_ok.mpr ⟨_, rfl, keys_of_mem_record _ _ _, find?_record_kind _ _ _⟩
  have hbody : bodyOf steps (bodyForm? n.body) = readBody steps 0 (bodyToJson n.body) := by
    cases n.body with
    | nil => exact (readBody_nil steps 0).symm
    | cons c body => rfl
  rw [toJson_eq, readNode_eq, hhead]
  show argsOf steps (Entries.find? "args" _) >>= (fun args =>
    bodyOf steps (Entries.find? "body" _) >>= _) = _
  rw [find?_record_args, find?_record_body, hbody]
  rfl

theorem settles_argToJson {v : Arg Node}
    (h : ∀ c, v = .nested c → ∀ steps, Settles c.Finite (readNode steps c.toJson) c)
    (steps : List JsonStep) : Settles (FiniteArg v) (argOf steps (argToJson v)) v := by
  cases v with
  | nested c =>
    have hobject : c.toJson.isObject = true := by rw [toJson_eq]; rfl
    have harg : argOf steps c.toJson = (readNode steps c.toJson).map Arg.nested := if_pos hobject
    show Settles c.Finite (argOf steps c.toJson) _
    rw [harg]
    exact (h c rfl steps).map Arg.nested
  | scalar s =>
    show Settles s.Finite (argOf steps s.toJson) _
    rw [argOf_of_not_object steps s.isObject_toJson]
    refine ⟨fun hs => ?_, fun hs => ?_⟩
    · rw [(Scalar.ofJson?_eq_some_iff hs).mpr rfl]
    · rw [Scalar.toJson_of_not_finite hs]
      exact ⟨_, rfl, rfl⟩

theorem settles_argsToJson {l : List (String × Arg Node)}
    (h : ∀ e ∈ l, ∀ c, e.2 = .nested c → ∀ steps, Settles c.Finite (readNode steps c.toJson) c)
    (steps : List JsonStep) :
    Settles (∀ e ∈ l, FiniteArg e.2) (readArgs steps (argsToJson l)) l := by
  induction l with
  | nil =>
    rw [argsToJson, readArgs_nil]
    exact (Settles.of_ok []).congr (by simp)
  | cons e l ih =>
    obtain ⟨he, hl⟩ := List.forall_mem_cons.mp h
    have hrest := (ih hl).bind_ok fun values => (e.1, e.2) :: values
    rw [argsToJson_cons, readArgs_cons, List.forall_mem_cons]
    exact (settles_argToJson he _).bind hrest

theorem settles_bodyToJson {l : List Node}
    (h : ∀ c ∈ l, ∀ steps, Settles c.Finite (readNode steps c.toJson) c) (steps : List JsonStep)
    (index : Nat) :
    Settles (∀ c ∈ l, c.Finite) (readBody steps index (bodyToJson l)) l := by
  induction l generalizing index with
  | nil =>
    rw [bodyToJson, readBody_nil]
    exact (Settles.of_ok []).congr (by simp)
  | cons c l ih =>
    obtain ⟨hc, hl⟩ := List.forall_mem_cons.mp h
    have hrest := (ih hl (index + 1)).bind_ok fun ns => c :: ns
    rw [bodyToJson, readBody_cons, List.forall_mem_cons]
    exact (hc _).bind hrest

/-- **A tree is read from its own form exactly if it is finite**: an infinity or a NaN is written as
null, which is no argument -/
theorem settles_toJson {n : Node} (hn : n.Ordered) (steps : List JsonStep) :
    Settles n.Finite (readNode steps n.toJson) n := by
  induction hn generalizing steps with
  | @mk n hsorted _ ih =>
    have hargs : ∀ e ∈ n.args, ∀ c, e.2 = .nested c → ∀ steps,
        Settles c.Finite (readNode steps c.toJson) c := by
      rintro ⟨name, _⟩ he c rfl
      exact ih c (List.mem_append_left _ (mem_argNodes.mpr ⟨name, he⟩))
    have hbody : ∀ c ∈ n.body, ∀ steps, Settles c.Finite (readNode steps c.toJson) c :=
      fun c hc => ih c (List.mem_append_right _ hc)
    have hrest := (settles_bodyToJson hbody steps 0).bind_ok fun body =>
      Node.mk n.kind (Entries.ofList n.args) body
    rw [Entries.ofList_of_sorted hsorted] at hrest
    rw [readNode_toJson, finite_iff]
    refine (settles_argsToJson hargs steps).bind ?_
    rw [Entries.ofList_of_sorted hsorted]
    cases n
    exact hrest

/-! ## the form of what is read -/

theorem memberForms_record (args? body? : Option Json) (kind : String) :
    Json.memberForms (record args? body? kind) =
      record (args?.map (Json.memberForm "args")) (body?.map (Json.memberForm "body")) kind := by
  have hkind : Json.memberForm "kind" (.string kind) = .string kind := by
    simp only [Json.memberForm]
  cases args? <;> cases body? <;> simp [record, Json.memberForms, hkind]

theorem tidy_record (args? body? : Option Json) (kind : String) :
    Json.tidy (record args? body? kind) =
      record (some (args?.getD (.object []))) (body?.filter fun v => !v.isBlank) kind := by
  have hfilter : (record args? body? kind).filter (fun e => !(e.1 == "body" && e.2.isBlank)) =
      record args? (body?.filter fun v => !v.isBlank) kind := by
    cases body? with
    | none => cases args? <;> simp [record]
    | some v => cases args? <;> cases hv : v.isBlank <;> simp [record, hv, Option.filter]
  unfold Json.tidy
  rw [hfilter]
  show (if (Entries.find? "args" (record args? _ kind)).isSome then _ else _) = _
  rw [find?_record_args]
  cases args? with
  | some a => rfl
  | none =>
    -- `args` comes before the other keys
    have hsorted := sorted_record (some (.object [])) (body?.filter fun v => !v.isBlank) kind
    exact Entries.insert_of_lt (Entries.sorted_cons.mp hsorted).1

/-- the form of a node by its members -/
theorem nodeForm_record (args? body? : Option Json) (kind : String) :
    (Json.object (record args? body? kind)).nodeForm =
      .object (record (some ((args?.map (Json.memberForm "args")).getD (.object [])))
        ((body?.map (Json.memberForm "body")).filter fun v => !v.isBlank) kind) := by
  rw [Json.nodeForm, memberForms_record, tidy_record]

/-- what is read has the names of the members, in their order -/
theorem map_fst_of_readArgs {steps : List JsonStep} {members : List (String × Json)}
    {l : List (String × Arg Node)} (h : readArgs steps members = .ok l) :
    l.map Prod.fst = members.map Prod.fst := by
  induction members generalizing l with
  | nil =>
    rw [readArgs_nil] at h
    cases h
    rfl
  | cons e members ih =>
    obtain ⟨name, v⟩ := e
    rw [readArgs_cons] at h
    obtain ⟨value, _, h⟩ := bind_eq_ok.mp h
    obtain ⟨values, hvalues, h⟩ := bind_eq_ok.mp h
    cases h
    rw [List.map_cons, List.map_cons, ih hvalues]

/-- what a value is read as has the form of the value: as a node, as arguments, and as statements -/
structure FormRead (v : Json) : Prop where
  node : ∀ steps n, readNode steps v = .ok n → n.toJson = v.nodeForm
  args : ∀ steps members l, v = .object members → readArgs steps members = .ok l →
    argsToJson l = Json.argForms members
  body : ∀ steps index items l, v = .array items → readBody steps index items = .ok l →
    bodyToJson l = Json.itemForms items

theorem argToJson_of_argOf {levels : Nat} {v : Json} (hv : v.Readable levels)
    (hnode : ∀ steps n, readNode steps v = .ok n → n.toJson = v.nodeForm) {steps : List JsonStep}
    {value : Arg Node} (h : argOf steps v = .ok value) : argToJson value = v.nodeForm := by
  cases hobject : v.isObject with
  | true =>
    unfold argOf at h
    rw [if_pos hobject] at h
    obtain ⟨n, hn, rfl⟩ := map_eq_ok.mp h
    exact hnode _ n hn
  | false =>
    have hform : v.nodeForm = v := by
      cases v with
      | object members => cases hobject
      | _ => rw [Json.nodeForm]; exact nofun
    rw [argOf_of_not_object steps hobject] at h
    cases hs : Scalar.ofJson? v with
    | none =>
      rw [hs] at h
      cases h
    | some s =>
      rw [hs] at h
      cases h
      rw [hform]
      exact ((Scalar.ofJson?_eq_some_iff (Scalar.finite_of_ofJson? hv hs)).mp hs).symm

theorem argsToJson_of_readArgs {levels : Nat} {members : List (String × Json)}
    (hv : ∀ e ∈ members, e.2.Readable levels) (hnode : ∀ e ∈ members, FormRead e.2)
    {steps : List JsonStep} {l : List (String × Arg Node)} (h : readArgs steps members = .ok l) :
    argsToJson l = Json.argForms members := by
  induction members generalizing l with
  | nil =>
    rw [readArgs_nil] at h
    cases h
    rw [argsToJson, Json.argForms]
  | cons e members ih =>
    obtain ⟨name, v⟩ := e
    obtain ⟨hv, hvs⟩ := List.forall_mem_cons.mp hv
    obtain ⟨hnode, hnodes⟩ := List.forall_mem_cons.mp hnode
    rw [readArgs_cons] at h
    obtain ⟨value, hvalue, h⟩ := bind_eq_ok.mp h
    obtain ⟨values, hvalues, h⟩ := bind_eq_ok.mp h
    cases h
    rw [argsToJson_cons, Json.argForms, ih hvs hnodes hvalues,
      argToJson_of_argOf hv hnode.node hvalue]

theorem bodyToJson_of_readBody {items : List Json} (hnode : ∀ v ∈ items, FormRead v)
    {steps : List JsonStep} {index : Nat} {l : List Node}
    (h : readBody steps index items = .ok l) : bodyToJson l = Json.itemForms items := by
  induction items generalizing index l with
  | nil =>
    rw [readBody_nil] at h
    cases h
    rw [bodyToJson, Json.itemForms]
  | cons v items ih =>
    obtain ⟨hnode, hnodes⟩ := List.forall_mem_cons.mp hnode
    rw [readBody_cons] at h
    obtain ⟨n, hn, h⟩ := bind_eq_ok.mp h
    obtain ⟨ns, hns, h⟩ := bind_eq_ok.mp h
    cases h
    rw [bodyToJson, Json.itemForms, ih hnodes hns, hnode.node _ n hn]

/-- arguments that are read have the form of what stands under `args`, if something does -/
theorem argsToJson_of_argsOf {v? : Option Json} {steps : List JsonStep}
    {args : List (String × Arg Node)} (hsorted : ∀ members, v? = some (.object members) →
      Entries.Sorted members) (hform : ∀ v, v? = some v → FormRead v)
    (h : argsOf steps v? = .ok args) : Json.object (argsToJson (Entries.ofList args)) =
      (v?.map (Json.memberForm "args")).getD (.object []) := by
  cases v? with
  | none =>
    cases h
    rfl
  | some v =>
    cases v with
    | object members =>
      have hargs : Entries.Sorted args :=
        (Entries.sorted_congr (map_fst_of_readArgs h)).mpr (hsorted members rfl)
      rw [Entries.ofList_of_sorted hargs, (hform _ rfl).args steps members args rfl h]
      simp [Json.memberForm]
    | _ => cases h

/-- so have the statements, which are left out if there are none -/
theorem bodyForm?_of_bodyOf {v? : Option Json} {steps : List JsonStep} {body : List Node}
    (hform : ∀ v, v? = some v → FormRead v) (h : bodyOf steps v? = .ok body) :
    bodyForm? body = (v?.map (Json.memberForm "body")).filter fun v => !v.isBlank := by
  cases v? with
  | none =>
    cases h
    rfl
  | some v =>
    cases v with
    | null =>
      cases h
      simp [Json.memberForm, Json.isBlank, bodyForm?, Option.filter]
    | array items =>
      have hitems := (hform _ rfl).body steps 0 items body rfl h
      have hmember : Json.memberForm "body" (.array items) = .array (bodyToJson body) := by
        rw [hitems]
        simp [Json.memberForm]
      show _ = Option.filter _ (some _)
      rw [hmember]
      cases body <;> rfl
    | _ => cases h

/-- **The form of a tree that is read is that of the value**, tidied up and otherwise unchanged -/
theorem formRead {levels : Nat} {v : Json} (hv : v.Readable levels) : FormRead v := by
  induction hv with
  | @object levels members hs hv ih =>
    refine ⟨fun steps n h => ?_, fun steps members' l heq h => ?_, nofun⟩
    · obtain ⟨_, kind, args, body, heq, hkeys, hkind, hargs, hbody, rfl⟩ := readNode_eq_ok.mp h
      cases heq
      have hmember : ∀ {key : String} {w : Json}, Entries.find? key members = some w →
          (key, w) ∈ members := Entries.mem_of_find?
      have hsorted : ∀ a, Entries.find? "args" members = some (.object a) → Entries.Sorted a := by
        intro a ha
        cases hv _ (hmember ha) with
        | object hsorted _ => exact hsorted
      have hargs' := argsToJson_of_argsOf hsorted (fun w hw => ih _ (hmember hw)) hargs
      have hbody' := bodyForm?_of_bodyOf (fun w hw => ih _ (hmember hw)) hbody
      rw [eq_record hs hkeys hkind, nodeForm_record, toJson_eq, ← hargs', ← hbody']
    · cases heq
      exact argsToJson_of_readArgs hv ih h
  | @array levels items _ ih =>
    refine ⟨fun steps n h => ?_, nofun, fun steps index items' l heq h => ?_⟩
    · obtain ⟨_, _, _, _, heq, _⟩ := readNode_eq_ok.mp h
      cases heq
    · cases heq
      exact bodyToJson_of_readBody ih h
  | _ =>
    refine ⟨fun steps n h => ?_, nofun, nofun⟩
    obtain ⟨_, _, _, _, heq, _⟩ := readNode_eq_ok.mp h
    cases heq

/-- **Trees and their JSON form.** A tree comes back from its form, floats bit for bit, exactly if it
holds no infinity and no NaN; otherwise one of these is found to be no argument. The form of a tree
that is read is that of the value with missing `args` written out and an empty `body` left out, at
every node of it. -/
theorem json_round_trip :
    (∀ n : Node, n.Ordered → (n.Finite → ofJson n.toJson = .ok n) ∧
      (¬ n.Finite → ∃ f, ofJson n.toJson = .error f ∧ f.reason = .notArgument)) ∧
    ∀ (levels : Nat) (v : Json) (n : Node), v.Readable levels → ofJson v = .ok n →
      n.toJson = v.nodeForm :=
  ⟨fun _ hn => settles_toJson hn [], fun _ _ n hv h => (formRead hv).node [] n h⟩

end Node

/-- a single node with a float -/
def Sample.waiting (x : Binary64) : Node := ⟨"wait", [("milliseconds", .scalar (.float x))], []⟩

theorem Sample.waiting_ordered (x : Binary64) : (Sample.waiting x).Ordered :=
  ⟨List.pairwise_singleton _ _, nofun⟩

theorem Sample.waiting_finite_iff {x : Binary64} :
    (Sample.waiting x).Finite ↔ x.isFinite = true := by
  rw [Node.finite_iff]
  constructor
  · intro ⟨hargs, _⟩
    exact hargs _ List.mem_cons_self x rfl
  · intro hx
    refine ⟨fun e he => ?_, nofun⟩
    obtain rfl := List.mem_singleton.mp he
    intro y hy
    cases hy
    exact hx

/-- a sequence without `args`, of one statement with an empty `body` -/
def Sample.loose : Json := .object [("body", .array [.object [("args", .object
  [("milliseconds", .number (.float Sample.half))]), ("body", .null), ("kind", .string "wait")]]),
  ("kind", .string "sequence")]

theorem Sample.loose_readable : Sample.loose.Readable 4 := by
  have hargs : (Json.object [("milliseconds", .number (.float Sample.half))]).Readable 1 :=
    .object (by decide) (List.forall_mem_singleton.mpr (.number rfl))
  have hwait : (Json.object [("args", .object [("milliseconds", .number (.float Sample.half))]),
      ("body", .null), ("kind", .string "wait")]).Readable 2 := by
    refine .object (by decide) ?_
    simp only [List.forall_mem_cons]
    exact ⟨hargs, .null, .string _, nofun⟩
  refine .object (by decide) ?_
  simp only [List.forall_mem_cons]
  exact ⟨.array (List.forall_mem_singleton.mpr hwait), .string _, nofun⟩

theorem Sample.loose_is_read :
    Node.ofJson Sample.loose = .ok ⟨"sequence", [], [Sample.waiting Sample.half]⟩ := by
  have hargs : Node.readArgs [.item 0] [("milliseconds", .number (.float Sample.half))] =
      .ok (Sample.waiting Sample.half).args := by
    rw [Node.readArgs_cons, Node.readArgs_nil]
    rfl
  have hwait := Node.readNode_eq_ok.mpr ⟨[("args", .object
    [("milliseconds", .number (.float Sample.half))]), ("body", .null), ("kind", .string "wait")],
    "wait", _, [], rfl, by simp [Node.keys], rfl, hargs, rfl, rfl⟩
  have hbody : Node.readBody [] 0 [.object [("args", .object
      [("milliseconds", .number (.float Sample.half))]), ("body", .null),
      ("kind", .string "wait")]] = .ok [Sample.waiting Sample.half] := by
    rw [Node.readBody_cons, Node.readBody_nil]
    exact bind_eq_ok.mpr ⟨_, hwait, rfl⟩
  exact Node.readNode_eq_ok.mpr ⟨_, "sequence", [], _, rfl, by simp [Node.keys], rfl, rfl, hbody,
    rfl⟩

theorem Sample.waiting_round_trip :
    Node.ofJson (Sample.waiting Sample.half).toJson = .ok (Sample.waiting Sample.half) ∧
    (∃ f, Node.ofJson (Sample.waiting ⟨0x7FF0000000000000⟩).toJson = .error f) ∧
    ∃ n, Node.ofJson Sample.loose = .ok n ∧ n.toJson = .object [("args", .object []),
      ("body", .array [.object [("args", .object
        [("milliseconds", .number (.float Sample.half))]), ("kind", .string "wait")]]),
      ("kind", .string "sequence")] := by
  obtain ⟨hback, hform⟩ := Node.json_round_trip
  have hhalf := (hback _ (Sample.waiting_ordered Sample.half)).1
    (Sample.waiting_finite_iff.mpr (by decide))
  obtain ⟨f, hf, _⟩ := (hback _ (Sample.waiting_ordered ⟨0x7FF0000000000000⟩)).2
    (mt Sample.waiting_finite_iff.mp (by decide))
  exact ⟨hhalf, ⟨f, hf⟩, _, Sample.loose_is_read,
    hform 4 _ _ Sample.loose_readable Sample.loose_is_read⟩

end ScriptHeap
