import ScriptHeap.Json.Canonical
import ScriptHeap.Json.Reader
import ScriptHeap.Proofs.TokenText
/-!
# The canonical text of JSON values is read back

* `Json.scannable_tokens`   the tokens of a value can be told apart in its text;
* `Json.Reading.foldlM_spell`   the tokens of a value are read as the value, in whatever frames;
* `Json.Reading.refuses_of_not_readable`   those of a value that nests too deep are not read;
* `Json.ofBytes?_canonicalBytes`, `Json.ofBytes?_canonicalBytes_eq_none`   a library that reads
                       doubles back reads a value from its canonical bytes, unless it nests too deep.
-/

namespace ScriptHeap

namespace Json

/-! ## the tokens of a value -/

/-- no word stands first -/
def Closed (ts : List Token) : Prop := ∀ t ∈ ts.head?, t.isWord = false

section
variable {n : Nat} {v : Json} {items : List Json} {members : Entries Json} {rest : List Token}

open Token (Scannable scannable_cons)

theorem closed_cons {t : Token} {ts : List Token} (ht : t.isWord = false) : Closed (t :: ts) := by
  intro u hu
  rwa [← Option.some.inj hu]

/-- a token that is no word may stand before any others -/
theorem scannable_cons_of_not_isWord {t : Token} {ts : List Token} (ht : t.isWord = false)
    (hf : t.Fits) (hs : Scannable ts) : Scannable (t :: ts) :=
  scannable_cons.mpr ⟨hf, fun hw => absurd (ht.symm.trans hw) nofun, hs⟩

theorem scannable_items (h : ∀ v ∈ items, ∀ ts, Scannable ts → Closed ts → Scannable (v.spell ts))
    (hs : Scannable rest) : Scannable (spellItems items rest) ∧ Closed (spellItems items rest) := by
  induction items with
  | nil =>
    rw [spellItems]
    exact ⟨scannable_cons_of_not_isWord rfl trivial hs, closed_cons rfl⟩
  | cons v items ih =>
    obtain ⟨hv, hitems⟩ := List.forall_mem_cons.mp h
    obtain ⟨hscan, hclosed⟩ := ih hitems
    rw [spellItems]
    exact ⟨scannable_cons_of_not_isWord rfl trivial (hv _ hscan hclosed), closed_cons rfl⟩

theorem scannable_members
    (h : ∀ e ∈ members, ∀ ts, Scannable ts → Closed ts → Scannable (e.2.spell ts))
    (hs : Scannable rest) :
    Scannable (spellMembers members rest) ∧ Closed (spellMembers members rest) := by
  induction members with
  | nil =>
    rw [spellMembers]
    exact ⟨scannable_cons_of_not_isWord rfl trivial hs, closed_cons rfl⟩
  | cons e members ih =>
    obtain ⟨key, v⟩ := e
    obtain ⟨hv, hmembers⟩ := List.forall_mem_cons.mp h
    obtain ⟨hscan, hclosed⟩ := ih hmembers
    rw [spellMembers]
    refine ⟨?_, closed_cons rfl⟩
    refine scannable_cons_of_not_isWord rfl trivial ?_
    refine scannable_cons_of_not_isWord rfl trivial ?_
    exact scannable_cons_of_not_isWord rfl trivial (hv _ hscan hclosed)

/-- in the text of a value a comma, a colon or a bracket stands after every word -/
theorem scannable_spell (hv : v.Readable n) : ∀ rest, Scannable rest → Closed rest →
    Scannable (v.spell rest) := by
  induction hv with
  | null =>
    intro rest hs hc
    rw [spell]
    exact scannable_cons.mpr ⟨trivial, fun _ => hc, hs⟩
  | bool b =>
    intro rest hs hc
    rw [spell]
    exact scannable_cons.mpr ⟨trivial, fun _ => hc, hs⟩
  | number hx =>
    intro rest hs hc
    rw [spell]
    exact scannable_cons.mpr ⟨hx, fun _ => hc, hs⟩
  | string s =>
    intro rest hs hc
    rw [spell]
    exact scannable_cons_of_not_isWord rfl trivial hs
  | @array _ items _ ih =>
    intro rest hs hc
    cases items with
    | nil =>
      rw [spell]
      refine scannable_cons_of_not_isWord rfl trivial ?_
      exact scannable_cons_of_not_isWord rfl trivial hs
    | cons v items =>
      obtain ⟨hv, hitems⟩ := List.forall_mem_cons.mp ih
      obtain ⟨hscan, hclosed⟩ := scannable_items hitems hs
      rw [spell]
      exact scannable_cons_of_not_isWord rfl trivial (hv _ hscan hclosed)
  | @object _ members _ _ ih =>
    intro rest hs hc
    cases members with
    | nil =>
      rw [spell]
      refine scannable_cons_of_not_isWord rfl trivial ?_
      exact scannable_cons_of_not_isWord rfl trivial hs
    | cons e members =>
      obtain ⟨key, v⟩ := e
      obtain ⟨hv, hmembers⟩ := List.forall_mem_cons.mp ih
      obtain ⟨hscan, hclosed⟩ := scannable_members hmembers hs
      rw [spell]
      refine scannable_cons_of_not_isWord rfl trivial ?_
      refine scannable_cons_of_not_isWord rfl trivial ?_
      exact scannable_cons_of_not_isWord rfl trivial (hv _ hscan hclosed)

theorem scannable_tokens (hv : v.Readable n) : Scannable v.tokens :=
  scannable_spell hv [] Token.scannable_nil nofun

end

/-! ## reading the tokens -/

namespace Reading

/-- so many arrays and objects can still be opened inside the frames -/
def Room (limit : Nat) (stack : List Frame) (n : Nat) : Prop := stack.length + n ≤ limit

section
variable {limit n : Nat} {v : Json} {stack : List Frame} {rest : List Token}

theorem Room.lt (hr : Room limit stack (n + 1)) : stack.length < limit := by
  unfold Room at hr
  omega

theorem Room.push (hr : Room limit stack (n + 1)) (frame : Frame) :
    Room limit (frame :: stack) n := by
  unfold Room at hr ⊢
  rw [List.length_cons]
  omega

/-- the tokens of a value do not begin with the end of an array -/
theorem exists_spell (v : Json) (rest : List Token) :
    ∃ t ts, v.spell rest = t :: ts ∧ t ≠ .closeArray := by
  cases v with
  | array items => cases items <;> rw [spell] <;> exact ⟨_, _, rfl, nofun⟩
  | object members => cases members <;> rw [spell] <;> exact ⟨_, _, rfl, nofun⟩
  | _ => rw [spell]; exact ⟨_, _, rfl, nofun⟩

/-- the first item of an array begins as any value does -/
theorem step_firstItem {t : Token} (ht : t ≠ .closeArray) (stack : List Frame) :
    step limit (.firstItem stack) t = step limit (.value (.array [] :: stack)) t := by
  cases t with
  | closeArray => exact absurd rfl ht
  | _ => rfl

/-- and is read as any value -/
theorem foldlM_firstItem (v : Json) (rest : List Token) (stack : List Frame) :
    (v.spell rest).foldlM (step limit) (.firstItem stack) =
      (v.spell rest).foldlM (step limit) (.value (.array [] :: stack)) := by
  obtain ⟨t, ts, hspell, ht⟩ := exists_spell v rest
  rw [hspell, List.foldlM_cons, List.foldlM_cons, step_firstItem ht]

/-- the tokens of a value are read as the value, in whatever frames it stands -/
def Reads (limit n : Nat) (v : Json) : Prop := ∀ stack rest, Room limit stack n →
  (v.spell rest).foldlM (step limit) (.value stack) = rest.foldlM (step limit) (deliver v stack)

theorem foldlM_items {items : List Json} (h : ∀ v ∈ items, Reads limit n v)
    (hr : Room limit stack (n + 1)) (done : List Json) :
    (spellItems items rest).foldlM (step limit) (.afterItem stack done) =
      rest.foldlM (step limit) (deliver (.array (done.reverse ++ items)) stack) := by
  induction items generalizing done with
  | nil =>
    rw [spellItems, List.append_nil]
    rfl
  | cons v items ih =>
    obtain ⟨hv, hitems⟩ := List.forall_mem_cons.mp h
    rw [spellItems]
    show (v.spell _).foldlM (step limit) (.value (.array done :: stack)) = _
    rw [hv _ _ (hr.push _)]
    show (spellItems items rest).foldlM (step limit) (.afterItem stack (v :: done)) = _
    rw [ih hitems, List.reverse_cons, List.append_assoc, List.singleton_append]

/-- members come in the order of their keys, so each goes to the end -/
theorem foldlM_members {members : Entries Json} (h : ∀ e ∈ members, Reads limit n e.2)
    (hr : Room limit stack (n + 1)) (done : Entries Json) (hs : Entries.Sorted (done ++ members)) :
    (spellMembers members rest).foldlM (step limit) (.afterMember stack done) =
      rest.foldlM (step limit) (deliver (.object (done ++ members)) stack) := by
  induction members generalizing done with
  | nil =>
    rw [spellMembers, List.append_nil]
    rfl
  | cons e members ih =>
    obtain ⟨key, v⟩ := e
    obtain ⟨hv, hmembers⟩ := List.forall_mem_cons.mp h
    have hkey : ∀ e ∈ done, e.1 < key := fun e he =>
      (List.pairwise_append.mp hs).2.2 e he (key, v) List.mem_cons_self
    have hassoc : done ++ (key, v) :: members = done ++ [(key, v)] ++ members :=
      List.append_cons done (key, v) members
    rw [spellMembers]
    show (v.spell _).foldlM (step limit) (.value (.object done key :: stack)) = _
    rw [hv _ _ (hr.push _)]
    show (spellMembers members rest).foldlM (step limit)
      (.afterMember stack (Entries.insert key v done)) = _
    rw [Entries.insert_of_gt hkey, ih hmembers _ (hassoc ▸ hs), hassoc]

theorem start_openArray (hs : stack.length < limit) :
    step limit (.value stack) .openArray = some (.firstItem stack) := if_pos hs

theorem start_openObject (hs : stack.length < limit) :
    step limit (.value stack) .openObject = some (.firstKey stack) := if_pos hs

/-- the first item is read as if it stood after a comma -/
theorem foldlM_spell_array (hs : stack.length < limit) (items : List Json) :
    ((Json.array (v :: items)).spell rest).foldlM (step limit) (.value stack) =
      (spellItems (v :: items) rest).foldlM (step limit) (.afterItem stack []) := by
  rw [spell, List.foldlM_cons, start_openArray hs, spellItems]
  exact foldlM_firstItem v _ stack

/-- so is the first member -/
theorem foldlM_spell_object (hs : stack.length < limit) (e : String × Json)
    (members : Entries Json) :
    ((Json.object (e :: members)).spell rest).foldlM (step limit) (.value stack) =
      (spellMembers (e :: members) rest).foldlM (step limit) (.afterMember stack []) := by
  rw [spell, List.foldlM_cons, start_openObject hs, spellMembers]
  rfl

/-- **The tokens of a value are read as the value** -/
theorem foldlM_spell (hv : v.Readable n) : Reads limit n v := by
  -- what is inside brackets is read with one frame more and room for one less
  induction hv with
  | null => intro stack rest _; rw [spell]; rfl
  | bool b => intro stack rest _; rw [spell]; rfl
  | number _ => intro stack rest _; rw [spell]; rfl
  | string s => intro stack rest _; rw [spell]; rfl
  | @array n items _ ih =>
    intro stack rest hr
    cases items with
    | nil =>
      rw [spell, List.foldlM_cons, start_openArray hr.lt]
      rfl
    | cons v items =>
      rw [foldlM_spell_array hr.lt]
      exact foldlM_items ih hr []
  | @object n members hs _ ih =>
    intro stack rest hr
    cases members with
    | nil =>
      rw [spell, List.foldlM_cons, start_openObject hr.lt]
      rfl
    | cons e members =>
      rw [foldlM_spell_object hr.lt]
      exact foldlM_members ih hr [] hs

end

/-! ## values that nest too deep -/

/-- the tokens of a value are not read where exactly so many arrays and objects can be opened -/
def Refuses (limit n : Nat) (v : Json) : Prop := ∀ stack rest, stack.length + n = limit →
  (v.spell rest).foldlM (step limit) (.value stack) = none

section
variable {limit m n : Nat} {v : Json} {stack : List Frame} {rest : List Token}

theorem start_openArray_full (hs : stack.length = limit) :
    step limit (.value stack) .openArray = none := if_neg (Nat.not_lt_of_ge (Nat.le_of_eq hs.symm))

theorem start_openObject_full (hs : stack.length = limit) :
    step limit (.value stack) .openObject = none := if_neg (Nat.not_lt_of_ge (Nat.le_of_eq hs.symm))

/-- items are read up to the first that nests too deep -/
theorem foldlM_items_eq_none {items : List Json}
    (h : ∀ v ∈ items, ¬ v.Readable n → Refuses limit n v)
    (hdeep : ∃ v ∈ items, ¬ v.Readable n) (hs : stack.length + 1 + n = limit)
    (done : List Json) : (spellItems items rest).foldlM (step limit) (.afterItem stack done) = none := by
  induction items generalizing done with
  | nil =>
    obtain ⟨_, hv, _⟩ := hdeep
    cases hv
  | cons v items ih =>
    obtain ⟨hv, hitems⟩ := List.forall_mem_cons.mp h
    rw [spellItems]
    show (v.spell _).foldlM (step limit) (.value (.array done :: stack)) = none
    by_cases hread : v.Readable n
    · have hrest : ∃ w ∈ items, ¬ w.Readable n :=
        ((List.exists_mem_cons_iff _ _ _).mp hdeep).resolve_left (not_not_intro hread)
      have hroom : Room limit (.array done :: stack) n := Nat.le_of_eq hs
      rw [foldlM_spell hread _ _ hroom]
      exact ih hitems hrest (v :: done)
    · exact hv hread _ _ hs

/-- so are members -/
theorem foldlM_members_eq_none {members : Entries Json}
    (h : ∀ e ∈ members, ¬ e.2.Readable n → Refuses limit n e.2)
    (hdeep : ∃ e ∈ members, ¬ e.2.Readable n) (hs : stack.length + 1 + n = limit)
    (done : Entries Json) :
    (spellMembers members rest).foldlM (step limit) (.afterMember stack done) = none := by
  induction members generalizing done with
  | nil =>
    obtain ⟨_, he, _⟩ := hdeep
    cases he
  | cons e members ih =>
    obtain ⟨key, v⟩ := e
    obtain ⟨hv, hmembers⟩ := List.forall_mem_cons.mp h
    rw [spellMembers]
    show (v.spell _).foldlM (step limit) (.value (.object done key :: stack)) = none
    by_cases hread : v.Readable n
    · have hrest : ∃ e ∈ members, ¬ e.2.Readable n :=
        ((List.exists_mem_cons_iff _ _ _).mp hdeep).resolve_left (not_not_intro hread)
      have hroom : Room limit (.object done key :: stack) n := Nat.le_of_eq hs
      rw [foldlM_spell hread _ _ hroom]
      exact ih hmembers hrest (Entries.insert key v done)
    · exact hv hread _ _ hs

/-- **The tokens of a value that nests too deep are not read** -/
theorem refuses_of_not_readable (hv : v.Readable m) (hdeep : ¬ v.Readable n) : Refuses limit n v := by
  -- on the value: a container is refused at once, or for something in it, with room for one less
  induction hv generalizing n with
  | null => exact absurd .null hdeep
  | bool b => exact absurd (.bool b) hdeep
  | number hx => exact absurd (.number hx) hdeep
  | string s => exact absurd (.string s) hdeep
  | @array _ items _ ih =>
    intro stack rest hs
    cases n with
    | zero =>
      cases items <;> rw [spell, List.foldlM_cons, start_openArray_full hs] <;> rfl
    | succ n =>
      have hitem : ∃ v ∈ items, ¬ v.Readable n := by
        by_contra hall
        push Not at hall
        exact hdeep (.array hall)
      cases items with
      | nil => exact absurd hitem (by simp)
      | cons v items =>
        rw [foldlM_spell_array (by omega)]
        exact foldlM_items_eq_none (fun v hv => ih v hv) hitem (by omega) []
  | @object _ members hsorted _ ih =>
    intro stack rest hs
    cases n with
    | zero =>
      cases members <;> rw [spell, List.foldlM_cons, start_openObject_full hs] <;> rfl
    | succ n =>
      have hmember : ∃ e ∈ members, ¬ e.2.Readable n := by
        by_contra hall
        push Not at hall
        exact hdeep (.object hsorted hall)
      cases members with
      | nil => exact absurd hmember (by simp)
      | cons e members =>
        rw [foldlM_spell_object (by omega)]
        exact foldlM_members_eq_none (fun e he => ih e he) hmember (by omega) []

end

end Reading

/-! ## the text of a value -/

section
variable {lib : JsonLibrary} {limit n : Nat} {v : Json}

theorem ofTokens?_tokens (hv : v.Readable limit) : ofTokens? limit v.tokens = some v := by
  have hroom : Reading.Room limit [] limit := Nat.le_of_eq (Nat.zero_add _)
  rw [ofTokens?, tokens, Reading.foldlM_spell hv [] [] hroom]
  rfl

theorem ofTokens?_tokens_eq_none (hv : v.Readable n) (hdeep : ¬ v.Readable limit) :
    ofTokens? limit v.tokens = none := by
  rw [ofTokens?, tokens, Reading.refuses_of_not_readable hv hdeep [] [] (Nat.zero_add _)]

/-- the text of a value is read token by token -/
theorem ofBytes?_canonicalBytes_eq_bind (hv : v.Readable n) : ofBytes? lib v.canonicalBytes =
    (v.tokens.mapM (Token.reread lib)).bind (ofTokens? lib.nestingLimit) := by
  have hutf : String.fromUTF8? v.canonical.toUTF8 = some v.canonical :=
    dif_pos v.canonical.isValidUTF8
  have hchars : v.canonical.toList = v.tokens.flatMap Token.chars := by
    rw [canonical, String.toList_ofList, canonicalChars, normalize_of_ordered hv.ordered]
  rw [ofBytes?, canonicalBytes, hutf, Option.bind_some, hchars, ofChars?,
    Token.scan?_chars (scannable_tokens hv)]

/-- a library that reads doubles back reads it as far as its tokens are read -/
theorem ofBytes?_canonicalBytes_eq_ofTokens? (hlib : lib.ReadsBack) (hv : v.Readable n) :
    ofBytes? lib v.canonicalBytes = ofTokens? lib.nestingLimit v.tokens := by
  rw [ofBytes?_canonicalBytes_eq_bind hv,
    Token.mapM_reread_of_readsBack hlib (scannable_tokens hv).fits, Option.bind_some]

/-- **A value is read from its canonical bytes** -/
theorem ofBytes?_canonicalBytes (hlib : lib.ReadsBack) (hv : v.Readable lib.nestingLimit) :
    ofBytes? lib v.canonicalBytes = some v := by
  rw [ofBytes?_canonicalBytes_eq_ofTokens? hlib hv, ofTokens?_tokens hv]

/-- **A value that nests too deep is not** -/
theorem ofBytes?_canonicalBytes_eq_none (hlib : lib.ReadsBack) (hv : v.Readable n)
    (hdeep : ¬ v.Readable lib.nestingLimit) : ofBytes? lib v.canonicalBytes = none := by
  rw [ofBytes?_canonicalBytes_eq_ofTokens? hlib hv, ofTokens?_tokens_eq_none hv hdeep]

end

end Json

end ScriptHeap
