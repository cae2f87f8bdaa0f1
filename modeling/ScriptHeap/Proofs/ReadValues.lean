import ScriptHeap.Proofs.JsonText
/-!
# What text is read as

* `foldlM_invariant`   what every step of a fold keeps;
* `JsonLibrary.fits_number?`   a numeral is read as a number that fits, or not at all;
* `Token.fits_of_scan?`    so are all numbers among the tokens of a text;
* `Json.Frames`, `Json.Reading.Sound`   open arrays and objects hold values that nest no deeper than
                       there is room for, members in the order of their keys;
* `Json.readable_of_ofBytes?`   whatever is read, from whatever bytes, is readable.

All of this for any library, however it rounds.
-/

namespace ScriptHeap

/-- what every step keeps, a fold keeps -/
theorem foldlM_invariant {σ α : Type} {P : σ → Prop} {step : σ → α → Option σ} {l : List α}
    (hstep : ∀ a ∈ l, ∀ s s', P s → step s a = some s' → P s') {s s' : σ}
    (h : l.foldlM step s = some s') (hs : P s) : P s' := by
  induction l generalizing s with
  | nil => cases h; exact hs
  | cons a l ih =>
    obtain ⟨ha, hl⟩ := List.forall_mem_cons.mp hstep
    obtain ⟨t, ht, hrest⟩ := Option.bind_eq_some_iff.mp h
    exact ih hl hrest (ha s t hs ht)

/-! ## numbers -/

namespace JsonLibrary

section
variable {lib : JsonLibrary} {n : Numeral} {x : Number}

theorem fits_float? (h : (lib.float? n).map .float = some x) : x.Fits := by
  obtain ⟨y, hy, rfl⟩ := Option.map_eq_some_iff.mp h
  exact lib.isFinite_of_float? hy

theorem fits_number? (h : lib.number? n = some x) : x.Fits := by
  have hmin : Int64.minValue.toInt = -2 ^ 63 := by decide
  have hsize : (UInt64.size : Int) = 2 ^ 64 := by decide
  have hlow : Nat.pow 2 63 = 2 ^ 63 := rfl
  have hhigh : Nat.pow 2 64 = 2 ^ 64 := rfl
  unfold number? at h
  split at h
  · dsimp only at h
    generalize Nat.ofDigitChars 10 n.whole 0 = m at h
    split at h
    · split at h
      · cases h
        refine ⟨?_, ?_⟩ <;> omega
      · exact fits_float? h
    · split at h
      · cases h
        refine ⟨?_, ?_⟩ <;> omega
      · exact fits_float? h
  · exact fits_float? h

end

end JsonLibrary

/-! ## tokens -/

namespace Token

section
variable {lib : JsonLibrary} {c : Char} {w : List Char} {t : Token}

theorem fits_ofWord? (h : ofWord? lib w = some t) : t.Fits := by
  unfold ofWord? at h
  split at h
  · cases h; trivial
  split at h
  · cases h; trivial
  split at h
  · cases h; trivial
  · obtain ⟨n, _, h⟩ := Option.bind_eq_some_iff.mp h
    obtain ⟨x, hx, rfl⟩ := Option.map_eq_some_iff.mp h
    exact JsonLibrary.fits_number? hx

theorem fits_punctuation? (h : punctuation? c = some t) : t.Fits := by
  unfold punctuation? at h
  repeat' split at h
  all_goals cases h
  all_goals trivial

end

end Token

namespace Lexer

/-- the numbers among the finished tokens fit -/
def Fits (s : Lexer) : Prop := ∀ t ∈ s.tokens, t.Fits

section
variable {lib : JsonLibrary} {ts : List Token} {s s' : Lexer} {c : Char}

theorem fits_start (hts : ∀ t ∈ ts, t.Fits) (c : Char) : (start ts c).Fits := by
  unfold start
  split
  · exact hts
  split
  · next t ht => exact List.forall_mem_cons.mpr ⟨Token.fits_punctuation? ht, hts⟩
  split
  · exact hts
  · exact hts

/-- the character of a string changes what is open, not what is finished -/
theorem fits_of_map {o : Option LexMode} (h : o.map (Lexer.mk s.tokens) = some s')
    (hs : s.Fits) : s'.Fits := by
  obtain ⟨mode, _, rfl⟩ := Option.map_eq_some_iff.mp h
  exact hs

theorem fits_step (h : step lib s c = some s') (hs : s.Fits) : s'.Fits := by
  unfold step at h
  split at h
  · cases h
    exact fits_start hs c
  · split at h
    · obtain ⟨t, ht, rfl⟩ := Option.map_eq_some_iff.mp h
      exact fits_start (List.forall_mem_cons.mpr ⟨Token.fits_ofWord? ht, hs⟩) c
    · cases h
      exact hs
  · split at h
    · cases h
      exact List.forall_mem_cons.mpr ⟨trivial, hs⟩
    · exact fits_of_map h hs
  · exact fits_of_map h hs

theorem fits_finish (h : s.finish lib = some ts) (hs : s.Fits) : ∀ t ∈ ts, t.Fits := by
  unfold finish at h
  split at h
  · cases h
    exact fun t ht => hs t (List.mem_reverse.mp ht)
  · obtain ⟨u, hu, rfl⟩ := Option.map_eq_some_iff.mp h
    have hcons : ∀ t ∈ u :: s.tokens, t.Fits :=
      List.forall_mem_cons.mpr ⟨Token.fits_ofWord? hu, hs⟩
    exact fun t ht => hcons t (List.mem_reverse.mp ht)
  · cases h

end

end Lexer

theorem Token.fits_of_scan? {lib : JsonLibrary} {cs : List Char} {ts : List Token}
    (h : scan? lib cs = some ts) : ∀ t ∈ ts, t.Fits := by
  obtain ⟨s, hs, hfinish⟩ := Option.bind_eq_some_iff.mp h
  exact Lexer.fits_finish hfinish
    (foldlM_invariant (fun _ _ _ _ hs h => Lexer.fits_step h hs) hs nofun)

/-! ## values -/

namespace Json

/-- what is in an open array or object nests no deeper than there is room for in it -/
def Frame.Sound (n : Nat) : Frame → Prop
  | .array items => ∀ v ∈ items, v.Readable n
  | .object members _ => members.Sorted ∧ ∀ e ∈ members, e.2.Readable n

/-- frames in which so many arrays and objects can still be opened -/
inductive Frames (limit : Nat) : Nat → List Frame → Prop
  | nil : Frames limit limit []
  | cons {n : Nat} {frame : Frame} {stack : List Frame} (hf : frame.Sound n)
    (hs : Frames limit (n + 1) stack) : Frames limit n (frame :: stack)

section
variable {limit n : Nat} {stack : List Frame}

theorem Frames.length_add (hs : Frames limit n stack) : stack.length + n = limit := by
  induction hs with
  | nil => exact Nat.zero_add _
  | cons _ _ ih => rw [List.length_cons]; omega

/-- where an array or object can be opened, something else may stand in it or nothing -/
theorem Frames.exists_succ (hs : Frames limit n stack) (hroom : stack.length < limit) :
    ∃ m, Frames limit (m + 1) stack := by
  have hlength := hs.length_add
  obtain ⟨m, rfl⟩ : ∃ m, n = m + 1 := Nat.exists_eq_succ_of_ne_zero (by omega)
  exact ⟨m, hs⟩

end

namespace Reading

/-- the frames are sound, with the array or object that is being read as one more; its key is not
told before it is read -/
def Sound (limit : Nat) : Reading → Prop
  | value stack => ∃ n, Frames limit n stack
  | firstItem stack => ∃ n, Frames limit n (.array [] :: stack)
  | afterItem stack items => ∃ n, Frames limit n (.array items :: stack)
  | firstKey stack => ∀ k, ∃ n, Frames limit n (.object [] k :: stack)
  | key stack members => ∀ k, ∃ n, Frames limit n (.object members k :: stack)
  | colon stack members k => ∃ n, Frames limit n (.object members k :: stack)
  | afterMember stack members => ∀ k, ∃ n, Frames limit n (.object members k :: stack)
  | done v => v.Readable limit

section
variable {limit n : Nat} {v : Json} {stack : List Frame} {t : Token} {s s' : Reading}

theorem sound_deliver (hs : Frames limit n stack) (hv : v.Readable n) :
    (deliver v stack).Sound limit := by
  cases hs with
  | nil => exact hv
  | @cons _ frame stack hf hs =>
    cases frame with
    | array items => exact ⟨n, .cons (List.forall_mem_cons.mpr ⟨hv, hf⟩) hs⟩
    | object members k =>
      obtain ⟨hsorted, hmembers⟩ := hf
      refine fun _ => ⟨n, .cons ⟨Entries.sorted_insert k v hsorted, fun e he => ?_⟩ hs⟩
      rcases Entries.mem_insert he with rfl | he
      · exact hv
      · exact hmembers e he

theorem sound_start (h : start limit stack t = some s') (ht : t.Fits) (hs : Frames limit n stack) :
    s'.Sound limit := by
  cases t with
  | openArray =>
    obtain ⟨hroom, h⟩ := Option.ite_none_right_eq_some.mp h
    cases h
    obtain ⟨m, hs⟩ := hs.exists_succ hroom
    exact ⟨m, .cons nofun hs⟩
  | openObject =>
    obtain ⟨hroom, h⟩ := Option.ite_none_right_eq_some.mp h
    cases h
    obtain ⟨m, hs⟩ := hs.exists_succ hroom
    exact fun _ => ⟨m, .cons ⟨Entries.sorted_nil, nofun⟩ hs⟩
  | null => cases h; exact sound_deliver hs .null
  | bool b => cases h; exact sound_deliver hs (.bool b)
  | number x => cases h; exact sound_deliver hs (.number ht)
  | string s => cases h; exact sound_deliver hs (.string s)
  | _ => cases h

/-- an array that ends goes into the frames around it -/
theorem sound_deliver_array {items : List Json} (hs : Frames limit n (.array items :: stack)) :
    (deliver (.array items.reverse) stack).Sound limit := by
  cases hs with
  | cons hf hs => exact sound_deliver hs (.array fun v hv => hf v (List.mem_reverse.mp hv))

/-- so does an object -/
theorem sound_deliver_object {members : Entries Json} {k : String}
    (hs : Frames limit n (.object members k :: stack)) :
    (deliver (.object members) stack).Sound limit := by
  cases hs with
  | cons hf hs => exact sound_deliver hs (.object hf.1 hf.2)

theorem sound_step (h : step limit s t = some s') (ht : t.Fits) (hs : s.Sound limit) :
    s'.Sound limit := by
  cases s with
  | value stack =>
    obtain ⟨n, hs⟩ := hs
    exact sound_start h ht hs
  | firstItem stack =>
    obtain ⟨n, hs⟩ := hs
    by_cases hclose : t = .closeArray
    · subst hclose
      cases h
      exact sound_deliver_array hs
    · rw [step_firstItem hclose] at h
      exact sound_start h ht hs
  | afterItem stack items =>
    cases t with
    | comma => cases h; exact hs
    | closeArray =>
      obtain ⟨n, hs⟩ := hs
      cases h
      exact sound_deliver_array hs
    | _ => cases h
  | firstKey stack =>
    cases t with
    | closeObject =>
      obtain ⟨n, hs⟩ := hs ""
      cases h
      exact sound_deliver_object hs
    | string k => cases h; exact hs k
    | _ => cases h
  | key stack members =>
    cases t with
    | string k => cases h; exact hs k
    | _ => cases h
  | colon stack members k =>
    cases t with
    | colon => cases h; exact hs
    | _ => cases h
  | afterMember stack members =>
    cases t with
    | comma => cases h; exact hs
    | closeObject =>
      obtain ⟨n, hs⟩ := hs ""
      cases h
      exact sound_deliver_object hs
    | _ => cases h
  | done v => cases h

end

end Reading

section
variable {limit : Nat} {v : Json}

theorem readable_of_ofTokens? {ts : List Token} (h : ofTokens? limit ts = some v)
    (hts : ∀ t ∈ ts, t.Fits) : v.Readable limit := by
  unfold ofTokens? at h
  split at h
  · next w hw =>
    cases h
    have hsound : (Reading.done v).Sound limit :=
      foldlM_invariant (fun t ht _ _ hs h => Reading.sound_step h (hts t ht) hs) hw ⟨_, .nil⟩
    exact hsound
  · cases h

/-- **Whatever is read is readable**: a map with numbers that fit, nested no deeper than allowed -/
theorem readable_of_ofBytes? {lib : JsonLibrary} {bytes : ByteArray}
    (h : ofBytes? lib bytes = some v) : v.Readable lib.nestingLimit := by
  obtain ⟨text, _, h⟩ := Option.bind_eq_some_iff.mp h
  obtain ⟨ts, hts, h⟩ := Option.bind_eq_some_iff.mp h
  exact readable_of_ofTokens? h (Token.fits_of_scan? hts)

end

end Json

end ScriptHeap
