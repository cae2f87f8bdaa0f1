import ScriptHeap.Proofs.MemberOrder
import ScriptHeap.Proofs.NodeGrammar
import ScriptHeap.Proofs.NumberText
/-!
# Where a value is no tree

* `Json.follow`        the value that steps into arguments and statements lead to;
* `ShapeReason.Holds`  what a reason says of the value that it is given for;
* `Json.SoundBefore`   all that is read before a fault is in the grammar;
* `Node.blames_of_readNode`   a fault of the reading lies at the end of its steps, is true there, and
                       is the first;
* `ShapeFault.stepsOf?`, `ShapeFault.stepsOf?_path`   the steps that a path spells, and those of a fault
                       read from its path;
* `Node.ofJson_follows_grammar`   what is read, and how a value that is not read is blamed.
-/

namespace ScriptHeap

/-! ## steps -/

namespace Json

/-- one step to an argument or to a statement -/
def step? (v : Json) : JsonStep → Option Json
  | .arg name => (v.member? "args").bind fun args => args.member? name
  | .item index => ((v.member? "body").bind items?).bind fun items => items[index]?

/-- the value at the end of some steps -/
def follow (v : Json) : List JsonStep → Option Json
  | [] => some v
  | s :: steps => (v.step? s).bind fun w => w.follow steps

section
variable {members args : Entries Json} {items : List Json} {w : Json}

theorem step?_arg {name : String} (hargs : Entries.find? "args" members = some (.object args))
    (hw : Entries.find? name args = some w) : (object members).step? (.arg name) = some w := by
  show (Entries.find? "args" members).bind _ = _
  rw [hargs]
  exact hw

theorem step?_item {index : Nat} (hbody : Entries.find? "body" members = some (.array items))
    (hw : items[index]? = some w) : (object members).step? (.item index) = some w := by
  show ((Entries.find? "body" members).bind items?).bind _ = _
  rw [hbody]
  exact hw

end

end Json

/-! ## faults -/

/-- a reason is true of a value -/
inductive ShapeReason.Holds : ShapeReason → Json → Prop
  | notObject {v : Json} (h : v.isObject = false) : Holds .notObject v
  | kindMissing {members : Entries Json}
    (h : ∀ kind, Entries.find? "kind" members ≠ some (.string kind)) :
    Holds .kindMissing (.object members)
  | unexpectedKey {members : Entries Json} {key : String} (hmem : key ∈ members.map Prod.fst)
    (h : ¬ Json.IsKey key) : Holds (.unexpectedKey key) (.object members)
  | argsNotObject {members : Entries Json} {v : Json}
    (hv : Entries.find? "args" members = some v) (h : v.isObject = false) :
    Holds .argsNotObject (.object members)
  | notArgument {v : Json} (hobject : v.isObject = false) (h : ¬ v.IsArg) : Holds .notArgument v
  | bodyNotArray {members : Entries Json} {v : Json}
    (hv : Entries.find? "body" members = some v) (hnull : v ≠ .null)
    (h : ∀ items, v ≠ .array items) : Holds .bodyNotArray (.object members)

namespace Json

/-- what is read of a value before a fault is in the grammar: the kind, then the keys in their order,
then the arguments in the order of their names, then the statements, each with all that is in it -/
inductive SoundBefore : Json → List JsonStep → ShapeReason → Prop
  | notObject {v : Json} : SoundBefore v [] .notObject
  | notArgument {v : Json} : SoundBefore v [] .notArgument
  | kindMissing {v : Json} : SoundBefore v [] .kindMissing
  | unexpectedKey {members : Entries Json} {key : String}
    (kind : ∃ kind, Entries.find? "kind" members = some (.string kind))
    (before : ∀ e ∈ members, e.1 < key → IsKey e.1) :
    SoundBefore (object members) [] (.unexpectedKey key)
  | argsNotObject {members : Entries Json} (head : IsHead members) :
    SoundBefore (object members) [] .argsNotObject
  | bodyNotArray {members : Entries Json} (head : IsHead members)
    (args : IsArgs (Entries.find? "args" members)) : SoundBefore (object members) [] .bodyNotArray
  | arg {members args : Entries Json} {name : String} {w : Json} {steps : List JsonStep}
    {reason : ShapeReason} (head : IsHead members)
    (hargs : Entries.find? "args" members = some (.object args))
    (before : ∀ e ∈ args, e.1 < name → IsArg e.2) (hw : Entries.find? name args = some w)
    (rest : SoundBefore w steps reason) : SoundBefore (object members) (.arg name :: steps) reason
  | item {members : Entries Json} {items : List Json} {index : Nat} {w : Json}
    {steps : List JsonStep} {reason : ShapeReason} (head : IsHead members)
    (args : IsArgs (Entries.find? "args" members))
    (hbody : Entries.find? "body" members = some (.array items))
    (before : ∀ i v, i < index → items[i]? = some v → IsNode v) (hw : items[index]? = some w)
    (rest : SoundBefore w steps reason) : SoundBefore (object members) (.item index :: steps) reason

/-- a fault lies at the end of some steps: it is true there, and all that is read before is sound -/
structure Blames (v : Json) (steps : List JsonStep) (reason : ShapeReason) : Prop where
  holds : ∃ w, v.follow steps = some w ∧ reason.Holds w
  before : v.SoundBefore steps reason

namespace Blames

section
variable {v w : Json} {members args : Entries Json} {items : List Json} {steps : List JsonStep}
  {reason : ShapeReason}

theorem here (holds : reason.Holds v) (before : v.SoundBefore [] reason) : v.Blames [] reason :=
  ⟨⟨v, rfl, holds⟩, before⟩

/-- a fault in an argument, after arguments that are sound -/
theorem arg {name : String} (h : w.Blames steps reason) (head : IsHead members)
    (hargs : Entries.find? "args" members = some (.object args))
    (before : ∀ e ∈ args, e.1 < name → IsArg e.2) (hw : Entries.find? name args = some w) :
    (object members).Blames (.arg name :: steps) reason := by
  obtain ⟨⟨u, hu, holds⟩, rest⟩ := h
  refine ⟨⟨u, ?_, holds⟩, .arg head hargs before hw rest⟩
  rw [follow, step?_arg hargs hw]
  exact hu

/-- a fault in a statement, after arguments and statements that are sound -/
theorem item {index : Nat} (h : w.Blames steps reason) (head : IsHead members)
    (hargs : IsArgs (Entries.find? "args" members))
    (hbody : Entries.find? "body" members = some (.array items))
    (before : ∀ i v, i < index → items[i]? = some v → IsNode v) (hw : items[index]? = some w) :
    (object members).Blames (.item index :: steps) reason := by
  obtain ⟨⟨u, hu, holds⟩, rest⟩ := h
  refine ⟨⟨u, ?_, holds⟩, .item head hargs hbody before hw rest⟩
  rw [follow, step?_item hbody hw]
  exact hu

end

end Blames

end Json

/-! ## the first fault -/

namespace Entries

section
variable {α : Type} {l before after : Entries α} {name : String} {v : α}

/-- the first name with a property splits the entries -/
theorem exists_split_of_find? {p : String → Bool} (h : (l.map Prod.fst).find? p = some name) :
    p name = true ∧ ∃ before w after, l = before ++ (name, w) :: after ∧
      ∀ e ∈ before, p e.1 = false := by
  obtain ⟨hp, names, rest, heq, hbefore⟩ := List.find?_eq_some_iff_append.mp h
  obtain ⟨before, tail, rfl, rfl, htail⟩ := List.map_eq_append_iff.mp heq
  obtain ⟨⟨_, w⟩, after, rfl, rfl, rfl⟩ := List.map_eq_cons_iff.mp htail
  exact ⟨hp, before, w, after, rfl, fun e he => by simpa using hbefore e.1 (List.mem_map_of_mem he)⟩

/-- in sorted entries the smaller names stand before -/
theorem mem_before_of_lt (hs : Sorted l) (hl : l = before ++ (name, v) :: after) {e : String × α}
    (he : e ∈ l) (hlt : e.1 < name) : e ∈ before := by
  rw [hl] at he hs
  rcases List.mem_append.mp he with he | he
  · exact he
  obtain ⟨_, hrest, _⟩ := List.pairwise_append.mp hs
  rcases List.mem_cons.mp he with rfl | he
  · exact absurd hlt (String.lt_irrefl _)
  · exact absurd ((sorted_cons.mp hrest).1 e he) (String.lt_asymm hlt)

end

end Entries

namespace Node

section
variable {steps : List JsonStep} {v : Json} {f : ShapeFault} {members : Entries Json}

theorem blames_of_readHead (hv : v.Ordered) (h : readHead steps v = .error f) :
    f.steps = steps ∧ v.Blames [] f.reason := by
  unfold readHead at h
  cases hmembers : v.members? with
  | none =>
    have hobject : v.isObject = false := by cases v <;> first | rfl | cases hmembers
    rw [hmembers] at h
    cases h
    exact ⟨rfl, .here (.notObject hobject) .notObject⟩
  | some members =>
    obtain rfl := Json.members?_eq_some_iff.mp hmembers
    rw [hmembers] at h
    dsimp only at h
    split at h
    · next hnone =>
      cases h
      refine ⟨rfl, .here (.kindMissing fun kind hkind => ?_) .kindMissing⟩
      have hstring : (Entries.find? "kind" members).bind Json.string? = none := hnone
      rw [hkind] at hstring
      cases hstring
    · next kind hsome =>
      obtain ⟨w, hw, hstring⟩ := Option.bind_eq_some_iff.mp hsome
      obtain rfl := Json.string?_eq_some_iff.mp hstring
      split at h
      · next key hkey =>
        cases h
        obtain ⟨hforeign, before, x, after, heq, hbefore⟩ := Entries.exists_split_of_find? hkey
        have hnot : ¬ Json.IsKey key := by simpa [Json.isKey_iff] using hforeign
        have hmem : key ∈ members.map Prod.fst := List.mem_of_find?_eq_some hkey
        refine ⟨rfl, .here (.unexpectedKey hmem hnot) (.unexpectedKey ⟨kind, hw⟩ fun e he hlt => ?_)⟩
        have hfirst := Entries.mem_before_of_lt (Json.ordered_object_iff.mp hv).1 heq he hlt
        simpa [Json.isKey_iff] using hbefore e hfirst
      · cases h

theorem argOf_eq_error (h : argOf steps v = .error f) : readNode steps v = .error f ∨
    (v.isObject = false ∧ ¬ v.IsArg ∧ f = ⟨steps, .notArgument⟩) := by
  cases hobject : v.isObject with
  | true =>
    unfold argOf at h
    rw [if_pos hobject, map_eq_error] at h
    exact .inl h
  | false =>
    rw [argOf_of_not_object steps hobject] at h
    cases hs : Scalar.ofJson? v with
    | some s =>
      rw [hs] at h
      cases h
    | none =>
      rw [hs] at h
      cases h
      refine .inr ⟨rfl, fun harg => ?_, rfl⟩
      cases harg with
      | scalar hscalar =>
        obtain ⟨s, hsome⟩ := Scalar.exists_ofJson?_iff.mpr hscalar
        rw [hs] at hsome
        cases hsome
      | node hnode =>
        rw [hnode.isObject] at hobject
        cases hobject

/-- the arguments fail at the first one that does -/
theorem readArgs_eq_error (h : readArgs steps members = .error f) : ∃ before name w after,
    members = before ++ (name, w) :: after ∧
      (∀ e ∈ before, ∃ value, argOf (steps ++ [.arg e.1]) e.2 = .ok value) ∧
      argOf (steps ++ [.arg name]) w = .error f := by
  induction members with
  | nil =>
    rw [readArgs_nil] at h
    cases h
  | cons e members ih =>
    obtain ⟨name, v⟩ := e
    rw [readArgs_cons] at h
    rcases bind_eq_error.mp h with hv | ⟨value, hvalue, h⟩
    · exact ⟨[], name, v, members, rfl, nofun, hv⟩
    rcases bind_eq_error.mp h with hrest | ⟨_, _, h⟩
    · obtain ⟨before, name', w, after, rfl, hbefore, hw⟩ := ih hrest
      exact ⟨(name, v) :: before, name', w, after, rfl,
        List.forall_mem_cons.mpr ⟨⟨value, hvalue⟩, hbefore⟩, hw⟩
    · cases h

/-- so do the statements -/
theorem readBody_eq_error {index : Nat} {items : List Json}
    (h : readBody steps index items = .error f) : ∃ i w, items[i]? = some w ∧
      (∀ j u, j < i → items[j]? = some u →
        ∃ n, readNode (steps ++ [.item (index + j)]) u = .ok n) ∧
      readNode (steps ++ [.item (index + i)]) w = .error f := by
  induction items generalizing index with
  | nil =>
    rw [readBody_nil] at h
    cases h
  | cons v items ih =>
    rw [readBody_cons] at h
    rcases bind_eq_error.mp h with hv | ⟨n, hn, h⟩
    · exact ⟨0, v, rfl, fun j u hj => absurd hj (Nat.not_lt_zero j), hv⟩
    rcases bind_eq_error.mp h with hrest | ⟨_, _, h⟩
    · obtain ⟨i, w, hw, hbefore, hfault⟩ := ih hrest
      rw [Nat.add_assoc, Nat.add_comm 1] at hfault
      refine ⟨i + 1, w, hw, fun j u hj hu => ?_, hfault⟩
      cases j with
      | zero =>
        cases hu
        exact ⟨n, hn⟩
      | succ j =>
        have hjn := hbefore j u (Nat.lt_of_succ_lt_succ hj) hu
        rwa [Nat.add_assoc, Nat.add_comm 1] at hjn
    · cases h

/-- a fault of what stands under `args`, given that the faults of nodes are first ones -/
theorem blames_of_argsOf (hv : (Json.object members).Ordered) (head : Json.IsHead members)
    (ih : ∀ w, w.Part (.object members) → ∀ steps, readNode steps w = .error f →
      ∃ rest, f.steps = steps ++ rest ∧ w.Blames rest f.reason)
    (h : argsOf steps (Entries.find? "args" members) = .error f) :
    ∃ rest, f.steps = steps ++ rest ∧ (Json.object members).Blames rest f.reason := by
  unfold argsOf at h
  split at h
  · cases h
  · next args hargs =>
    obtain ⟨before, name, w, after, heq, hbefore, hw⟩ := readArgs_eq_error h
    have hmem : (name, w) ∈ args := heq ▸ List.mem_append_right _ List.mem_cons_self
    have hsorted : Entries.Sorted args := by
      have hmember := (Json.ordered_object_iff.mp hv).2 _ (Entries.mem_of_find? hargs)
      exact (Json.ordered_object_iff.mp hmember).1
    have hfind := Entries.find?_of_mem hsorted hmem
    have hsound : ∀ e ∈ args, e.1 < name → e.2.IsArg := fun e he hlt => by
      have hread := hbefore e (Entries.mem_before_of_lt hsorted heq he hlt)
      exact (exists_argOf_iff (exists_readNode_iff _ e.2)).mp hread
    rcases argOf_eq_error hw with hnode | ⟨hobject, hnot, rfl⟩
    · obtain ⟨rest, hsteps, hblames⟩ := ih w (.arg hargs hmem) _ hnode
      rw [List.append_assoc, List.singleton_append] at hsteps
      exact ⟨_, hsteps, hblames.arg head hargs hsound hfind⟩
    · exact ⟨_, rfl, (Json.Blames.here (.notArgument hobject hnot) .notArgument).arg head hargs
        hsound hfind⟩
  · next v hnot hargs =>
    cases h
    have hobject : v.isObject = false := by
      cases v with
      | object args => exact absurd rfl (hnot args)
      | _ => rfl
    exact ⟨[], (List.append_nil steps).symm, .here (.argsNotObject hargs hobject)
      (.argsNotObject head)⟩

/-- a fault of what stands under `body`, after arguments that are sound -/
theorem blames_of_bodyOf (head : Json.IsHead members)
    (hargs : Json.IsArgs (Entries.find? "args" members))
    (ih : ∀ w, w.Part (.object members) → ∀ steps, readNode steps w = .error f →
      ∃ rest, f.steps = steps ++ rest ∧ w.Blames rest f.reason)
    (h : bodyOf steps (Entries.find? "body" members) = .error f) :
    ∃ rest, f.steps = steps ++ rest ∧ (Json.object members).Blames rest f.reason := by
  unfold bodyOf at h
  split at h
  · cases h
  · cases h
  · next items hbody =>
    obtain ⟨i, w, hw, hbefore, hfault⟩ := readBody_eq_error h
    obtain ⟨rest, hsteps, hblames⟩ := ih w (.item hbody (List.mem_of_getElem? hw)) _ hfault
    rw [Nat.zero_add, List.append_assoc, List.singleton_append] at hsteps
    refine ⟨_, hsteps, hblames.item head hargs hbody (fun j u hj hu => ?_) hw⟩
    exact (exists_readNode_iff _ u).mp (hbefore j u hj hu)
  · next v hnull hnot hbody =>
    cases h
    exact ⟨[], (List.append_nil steps).symm, .here (.bodyNotArray hbody hnull hnot)
      (.bodyNotArray head hargs)⟩

/-- **A fault of the reading is the first one**, and its steps lead to it -/
theorem blames_of_readNode (hv : v.Ordered) (h : readNode steps v = .error f) :
    ∃ rest, f.steps = steps ++ rest ∧ v.Blames rest f.reason := by
  induction v using Json.part_induction generalizing steps with
  | h v ih =>
    rw [readNode_eq] at h
    rcases bind_eq_error.mp h with hhead | ⟨kind, hkind, h⟩
    · obtain ⟨hsteps, hblames⟩ := blames_of_readHead hv hhead
      exact ⟨[], by rw [hsteps, List.append_nil], hblames⟩
    obtain ⟨members, rfl, _, _⟩ := readHead_eq_ok.mp hkind
    have head : Json.IsHead members := exists_readHead_iff.mp ⟨kind, hkind⟩
    have hparts : ∀ w, w.Part (.object members) → ∀ steps, readNode steps w = .error f →
        ∃ rest, f.steps = steps ++ rest ∧ w.Blames rest f.reason :=
      fun w hw steps => ih w hw (hv.of_part hw)
    rcases bind_eq_error.mp h with hargs | ⟨args, hargs, h⟩
    · exact blames_of_argsOf hv head hparts hargs
    have hsound : Json.IsArgs (Entries.find? "args" members) :=
      (exists_argsOf_iff fun l _ e _ steps => exists_readNode_iff steps e.2).mp ⟨args, hargs⟩
    rcases bind_eq_error.mp h with hbody | ⟨_, _, h⟩
    · exact blames_of_bodyOf head hsound hparts hbody
    · cases h

end

end Node

/-! ## paths -/

namespace JsonStep

/-- the word before the target of a step, and the target -/
def words : JsonStep → List (List Char)
  | arg name => ["args".toList, name.toList]
  | item index => ["body".toList, Nat.toDigits 10 index]

/-- the steps that words spell: `args` and a name, or `body` and an index -/
def ofWords? : List (List Char) → Option (List JsonStep)
  | [] => some []
  | [_] => none
  | word :: target :: rest =>
    if word = "args".toList then (ofWords? rest).map (arg (String.ofList target) :: ·)
    else if word = "body".toList then
      (Numeral.digits? target).bind fun index => (ofWords? rest).map (item index :: ·)
    else none

theorem ofWords?_words (steps : List JsonStep) : ofWords? (steps.flatMap words) = some steps := by
  induction steps with
  | nil => rfl
  | cons s steps ih =>
    have hne : "body".toList ≠ "args".toList := by decide
    rw [List.flatMap_cons]
    cases s with
    | arg name =>
      show ofWords? ("args".toList :: name.toList :: steps.flatMap words) = _
      rw [ofWords?, if_pos rfl, ih, String.ofList_toList]
      rfl
    | item index =>
      show ofWords? ("body".toList :: Nat.toDigits 10 index :: steps.flatMap words) = _
      rw [ofWords?, if_neg hne, if_pos rfl, ih, Numeral.digits?_toDigits]
      rfl

theorem toList_text (s : JsonStep) : s.text.toList = s.words.flatMap fun word => '/' :: word := by
  cases s with
  | arg name =>
    have hslash : "/args/".toList = '/' :: ("args".toList ++ ['/']) := by decide
    rw [text, String.toList_append, hslash]
    simp [words]
  | item index =>
    have hslash : "/body/".toList = '/' :: ("body".toList ++ ['/']) := by decide
    rw [text, String.toList_append, hslash, Nat.toString_eq_repr, Nat.toList_repr]
    simp [words]

/-- the words of a step have no slash, unless its name has one -/
theorem slash_not_mem_words {s : JsonStep} (h : ∀ name, s = .arg name → '/' ∉ name.toList) :
    ∀ word ∈ s.words, '/' ∉ word := by
  cases s with
  | arg name => simpa [words] using h name rfl
  | item index =>
    have hdigits : '/' ∉ Nat.toDigits 10 index := fun hmem => by
      have hdigit := Numeral.isDigit_toDigits _ hmem
      cases hdigit
    simpa [words] using hdigits

end JsonStep

/-- words are found between the slashes before them -/
theorem splitOn_slashes {word : List Char} {words : List (List Char)} (hword : '/' ∉ word)
    (hwords : ∀ w ∈ words, '/' ∉ w) :
    (word ++ words.flatMap fun w => '/' :: w).splitOn '/' = word :: words := by
  induction words generalizing word with
  | nil =>
    rw [List.flatMap_nil, List.append_nil]
    exact List.splitOn_eq_singleton hword
  | cons w words ih =>
    obtain ⟨hw, hwords⟩ := List.forall_mem_cons.mp hwords
    have hrest := ih hw hwords
    have hfirst := List.splitOn_eq_singleton hword
    have hsplit := List.splitOnP_append_cons (p := fun c => c == '/') word
      (w ++ words.flatMap fun w => '/' :: w) (beq_self_eq_true '/')
    unfold List.splitOn at hrest hfirst ⊢
    rw [List.flatMap_cons, List.cons_append, hsplit, hfirst, hrest]
    rfl

namespace ShapeFault

/-- the steps that a path spells; a slash alone is the path of the whole value -/
def stepsOf? (path : String) : Option (List JsonStep) :=
  if path = "/" then some []
  else
    match path.toList.splitOn '/' with
    | [] :: words => JsonStep.ofWords? words
    | _ => none

/-- **The path of a fault spells its steps**, if no name on the way has a slash in it -/
theorem stepsOf?_path {f : ShapeFault} (h : ∀ name, .arg name ∈ f.steps → '/' ∉ name.toList) :
    stepsOf? f.path = some f.steps := by
  obtain ⟨steps, reason⟩ := f
  cases steps with
  | nil => rfl
  | cons s rest =>
    have htext : (path ⟨s :: rest, reason⟩).toList =
        ((s :: rest).flatMap JsonStep.words).flatMap fun word => '/' :: word := by
      show (String.join _).toList = _
      rw [String.toList_join, List.flatMap_map, List.flatMap_assoc]
      exact List.flatMap_congr fun s _ => s.toList_text
    have hwords : ∀ word ∈ (s :: rest).flatMap JsonStep.words, '/' ∉ word := by
      intro word hword
      obtain ⟨s', hs', hword⟩ := List.mem_flatMap.mp hword
      exact JsonStep.slash_not_mem_words (fun name heq => h name (heq ▸ hs')) word hword
    have hroot : path ⟨s :: rest, reason⟩ ≠ "/" := by
      intro heq
      rw [heq] at htext
      cases s <;> cases htext
    have hsplit : ([] ++ ((s :: rest).flatMap JsonStep.words).flatMap fun word =>
        '/' :: word).splitOn '/' = _ := splitOn_slashes List.not_mem_nil hwords
    unfold stepsOf?
    rw [if_neg hroot, htext, ← List.nil_append (List.flatMap _ _), hsplit]
    exact JsonStep.ofWords?_words _

end ShapeFault

/-! ## the reading of trees -/

/-- **What is read, and how a value that is not read is blamed.** A value is read as a tree exactly
if it is in the grammar. Otherwise the steps of the fault lead to a value of which its reason is
true, all that is read before is in the grammar, and the path of the fault spells the steps, unless a
name on the way has a slash in it. -/
theorem Node.ofJson_follows_grammar (v : Json) :
    ((∃ n, ofJson v = .ok n) ↔ v.IsNode) ∧
    ∀ f, v.Ordered → ofJson v = .error f →
      (∃ w, v.follow f.steps = some w ∧ f.reason.Holds w) ∧ v.SoundBefore f.steps f.reason ∧
      ((∀ name, .arg name ∈ f.steps → '/' ∉ name.toList) →
        ShapeFault.stepsOf? f.path = some f.steps) := by
  refine ⟨exists_readNode_iff [] v, fun f hv h => ?_⟩
  obtain ⟨rest, hsteps, holds, before⟩ := blames_of_readNode hv h
  rw [List.nil_append] at hsteps
  subst hsteps
  exact ⟨holds, before, ShapeFault.stepsOf?_path⟩

namespace Sample

/-- statements of which the second has no kind -/
def kindlessBody : Json :=
  .array [.object [("kind", .string "nothing")], .object [("kind", .null)]]

/-- arguments of which the first holds these statements, and the second is null -/
def kindlessArgs : Json := .object [
  ("locals", .object [("body", kindlessBody), ("kind", .string "scope_declaration")]),
  ("version", .null)]

def kindless : Json := .object [("args", kindlessArgs), ("kind", .string "sequence")]

theorem kindless_ordered : kindless.Ordered := by
  have hbody : kindlessBody.Ordered := by
    refine .array ?_
    simp only [List.forall_mem_cons]
    exact ⟨.object (by decide) (List.forall_mem_singleton.mpr (.string _)),
      .object (by decide) (List.forall_mem_singleton.mpr .null), nofun⟩
  have hlocals :
      (Json.object [("body", kindlessBody), ("kind", .string "scope_declaration")]).Ordered := by
    refine .object (by decide) ?_
    simp only [List.forall_mem_cons]
    exact ⟨hbody, .string _, nofun⟩
  have hargs : kindlessArgs.Ordered := by
    refine .object (by decide) ?_
    simp only [List.forall_mem_cons]
    exact ⟨hlocals, .null, nofun⟩
  refine .object (by decide) ?_
  simp only [List.forall_mem_cons]
  exact ⟨hargs, .string _, nofun⟩

/-- the fault of `kindless` -/
def kindlessFault : ShapeFault := ⟨[.arg "locals", .item 1], .kindMissing⟩

theorem kindless_blamed : kindless.Ordered ∧ Node.ofJson kindless = .error kindlessFault ∧
    kindlessFault.path = "/args/locals/body/1" ∧
    ShapeFault.stepsOf? "/args/locals/body/1" = some kindlessFault.steps ∧
    (∃ w, kindless.follow kindlessFault.steps = some w ∧ ShapeReason.kindMissing.Holds w) ∧
    kindless.SoundBefore kindlessFault.steps .kindMissing := by
  have hfault : Node.ofJson kindless = .error kindlessFault := by cbv
  have hpath : kindlessFault.path = "/args/locals/body/1" := by decide
  have hnames : ∀ name, .arg name ∈ kindlessFault.steps → '/' ∉ name.toList := by
    intro name hname
    simp only [kindlessFault, List.mem_cons, JsonStep.arg.injEq, reduceCtorEq, List.not_mem_nil,
      or_false] at hname
    subst hname
    decide
  obtain ⟨holds, before, hsteps⟩ :=
    (Node.ofJson_follows_grammar kindless).2 kindlessFault kindless_ordered hfault
  exact ⟨kindless_ordered, hfault, hpath, hpath ▸ hsteps hnames, holds, before⟩

end Sample

end ScriptHeap
