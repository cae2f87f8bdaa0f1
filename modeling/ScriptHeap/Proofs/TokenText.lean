import Mathlib.Data.List.Chain
import ScriptHeap.Json.Token
import ScriptHeap.Proofs.NumberText
/-!
# The text of tokens is read back

* `Token.isWord`       the tokens that nothing but the next character ends: null, booleans, numbers;
* `Token.reread`       what the text of a token is read as; it may be another number, or nothing;
* `Token.ofWord?_chars`    a word is read so from its own text;
* `Lexer.foldlM_escaped`   a character inside quotes is read back, however it is escaped;
* `Token.Scannable`    tokens of which no two words are adjacent, with numbers that fit;
* `Token.scan?_chars`  such tokens are read one by one from their joined text;
* `Token.scan?_chars_of_readsBack`   by a library that reads doubles back they are read as they are.
-/

namespace ScriptHeap

namespace Token

/-- a token that the next character ends -/
def isWord : Token → Bool
  | null => true
  | bool _ => true
  | number _ => true
  | _ => false

/-- the number of a token is one that text is read as -/
def Fits : Token → Prop
  | number n => n.Fits
  | _ => True

/-- the token that the text of a token is read as: where it is a number, the library says -/
def reread (lib : JsonLibrary) : Token → Option Token
  | number n => (lib.number? n.numeral).map number
  | t => some t

theorem reread_of_readsBack {lib : JsonLibrary} (hlib : lib.ReadsBack) {t : Token} (hf : t.Fits) :
    t.reread lib = some t := by
  cases t with
  | number n =>
    show (lib.number? n.numeral).map number = _
    rw [hlib.number?_numeral hf, Option.map_some]
  | _ => rfl

theorem reread_of_not_isWord {lib : JsonLibrary} {t : Token} (hw : t.isWord = false) :
    t.reread lib = some t := by
  cases t with
  | number n => cases hw
  | _ => rfl

/-- tokens whose joined text can be told apart: after a word there is no other word -/
structure Scannable (ts : List Token) : Prop where
  fits : ∀ t ∈ ts, t.Fits
  spaced : ts.IsChain fun t u => t.isWord = true → u.isWord = false

theorem scannable_nil : Scannable [] := ⟨nofun, .nil⟩

theorem scannable_cons {t : Token} {ts : List Token} : Scannable (t :: ts) ↔
    t.Fits ∧ (t.isWord = true → ∀ u ∈ ts.head?, u.isWord = false) ∧ Scannable ts := by
  constructor
  · intro ⟨hfits, hspaced⟩
    obtain ⟨ht, hfits⟩ := List.forall_mem_cons.mp hfits
    obtain ⟨hnext, hspaced⟩ := List.isChain_cons.mp hspaced
    exact ⟨ht, fun hw u hu => hnext u hu hw, hfits, hspaced⟩
  · intro ⟨ht, hnext, hfits, hspaced⟩
    exact ⟨List.forall_mem_cons.mpr ⟨ht, hfits⟩,
      List.isChain_cons.mpr ⟨fun u hu hw => hnext hw u hu, hspaced⟩⟩

end Token

/-! ## words -/

/-- the characters that end a word -/
def Lexer.enders : List Char :=
  [' ', '\t', '\n', '\r', '[', ']', '\x7b', '\x7d', ',', ':', '\x22']

section
variable {c : Char} {n : Numeral}

theorem Token.isSome_punctuation?_iff :
    (punctuation? c).isSome = true ↔ c ∈ ['[', ']', '\x7b', '\x7d', ',', ':'] := by
  unfold punctuation?
  repeat' split
  all_goals simp_all

theorem Lexer.endsWord_iff : endsWord c = true ↔ c ∈ enders := by
  simp only [endsWord, enders, Bool.or_eq_true, Token.isSome_punctuation?_iff, Token.isBlank,
    beq_iff_eq, List.mem_cons, List.not_mem_nil, or_false, or_assoc]

/-- what no character of a text does, none does that is in it -/
theorem forall_of_any_eq_false {f : Char → Bool} {cs : List Char} (h : cs.any f = false) :
    ∀ c ∈ cs, f c = false := fun c hc => Bool.eq_false_iff.mpr (List.any_eq_false.mp h c hc)

theorem Lexer.endsWord_of_isDigit (hc : c.isDigit = true) : endsWord c = false := by
  have hnone : enders.any Char.isDigit = false := rfl
  rw [Bool.eq_false_iff]
  intro hends
  rw [forall_of_any_eq_false hnone c (endsWord_iff.mp hends)] at hc
  cases hc

/-- a numeral is made of digits and a few other characters -/
theorem Numeral.Regular.mem_chars (hn : n.Regular) (hc : c ∈ n.chars) :
    c.isDigit = true ∨ c ∈ ['-', '.', 'e', '+'] := by
  rw [chars_eq, List.mem_append, List.mem_append, List.mem_append] at hc
  rcases hc with hc | hc | hc | hc
  · split at hc
    · rw [List.mem_singleton.mp hc]
      exact .inr (by decide)
    · cases hc
  · exact .inl (hn.digits c hc)
  · cases hfraction : n.fraction with
    | none =>
      rw [hfraction] at hc
      cases hc
    | some ds =>
      rw [hfraction] at hc
      rcases List.mem_cons.mp hc with rfl | hc
      · exact .inr (by decide)
      · exact .inl ((hn.fraction ds hfraction).2 c hc)
  · cases hexponent : n.exponent with
    | none =>
      rw [hexponent] at hc
      cases hc
    | some e =>
      rw [hexponent] at hc
      rcases List.mem_cons.mp hc with rfl | hc
      · exact .inr (by decide)
      · rcases List.mem_cons.mp hc with rfl | hc
        · split
          · exact .inr (by decide)
          · exact .inr (by decide)
        · exact .inl (isDigit_toDigits c hc)

theorem Numeral.Regular.endsWord (hn : n.Regular) (hc : c ∈ n.chars) :
    Lexer.endsWord c = false := by
  rcases hn.mem_chars hc with hdigit | hother
  · exact Lexer.endsWord_of_isDigit hdigit
  · have hnone : ['-', '.', 'e', '+'].any Lexer.endsWord = false := rfl
    exact forall_of_any_eq_false hnone c hother

/-- a numeral has a digit, so it is no other word -/
theorem Numeral.Regular.chars_ne (hn : n.Regular) {w : List Char}
    (hw : w.any Char.isDigit = false) : n.chars ≠ w := by
  rintro rfl
  rw [chars_eq] at hw
  cases hwhole : n.whole with
  | nil =>
    have hok := hn.whole
    rw [hwhole] at hok
    cases hok
  | cons d ds =>
    have hd : d ∈ n.whole := hwhole ▸ List.mem_cons_self
    have hnot := forall_of_any_eq_false hw d
      (List.mem_append_right _ (List.mem_append_left _ hd))
    rw [hn.digits d hd] at hnot
    cases hnot

end

namespace Token

/-- a word is read from its own text -/
theorem ofWord?_chars {lib : JsonLibrary} {t : Token} (hw : t.isWord = true) :
    ofWord? lib t.chars = t.reread lib := by
  cases t with
  | null => rfl
  | bool b => cases b <;> rfl
  | number n =>
    have hn := n.regular_numeral
    have hnull : n.numeral.chars ≠ chars null := hn.chars_ne rfl
    have htrue : n.numeral.chars ≠ chars (bool true) := hn.chars_ne rfl
    have hfalse : n.numeral.chars ≠ chars (bool false) := hn.chars_ne rfl
    show ofWord? lib n.numeral.chars = _
    rw [ofWord?, if_neg hnull, if_neg htrue, if_neg hfalse, Numeral.ofChars?_chars hn,
      Option.bind_some]
    rfl
  | _ => cases hw

/-- no character of a word ends it, and there is one -/
theorem chars_of_isWord {t : Token} (hw : t.isWord = true) :
    t.chars ≠ [] ∧ ∀ c ∈ t.chars, Lexer.endsWord c = false := by
  cases t with
  | null => exact ⟨nofun, forall_of_any_eq_false rfl⟩
  | bool b => cases b <;> exact ⟨nofun, forall_of_any_eq_false rfl⟩
  | number n =>
    have hn := n.regular_numeral
    exact ⟨hn.chars_ne rfl, fun c hc => hn.endsWord hc⟩
  | _ => cases hw

/-- a token that is no word begins with a character that ends the word before it -/
theorem chars_of_not_isWord {t : Token} (hw : t.isWord = false) :
    ∃ c cs, t.chars = c :: cs ∧ Lexer.endsWord c = true := by
  cases t with
  | null => cases hw
  | bool b => cases hw
  | number n => cases hw
  | string s => exact ⟨'\x22', _, rfl, rfl⟩
  | _ => exact ⟨_, [], rfl, rfl⟩

end Token

namespace Lexer

variable {lib : JsonLibrary}

theorem start_word {c : Char} (hc : endsWord c = false) (ts : List Token) :
    start ts c = ⟨ts, .word [c]⟩ := by
  unfold endsWord at hc
  simp only [Bool.or_eq_false_iff, Option.isSome_eq_false_iff, Option.isNone_iff_eq_none,
    beq_eq_false_iff_ne] at hc
  obtain ⟨⟨hblank, hpunctuation⟩, hquote⟩ := hc
  simp only [start, hblank, hpunctuation, Bool.false_eq_true, if_false, if_neg hquote]

theorem foldlM_word {cs : List Char} (hcs : ∀ c ∈ cs, endsWord c = false) (ts : List Token)
    (w : List Char) : cs.foldlM (step lib) ⟨ts, .word w⟩ = some ⟨ts, .word (cs.reverse ++ w)⟩ := by
  induction cs generalizing w with
  | nil => rfl
  | cons c cs ih =>
    obtain ⟨hc, hcs⟩ := List.forall_mem_cons.mp hcs
    have hstep : step lib ⟨ts, .word w⟩ c = some ⟨ts, .word (c :: w)⟩ := by
      show (if endsWord c = true then _ else _) = _
      rw [hc, if_neg nofun]
    rw [List.foldlM_cons, hstep]
    show cs.foldlM (step lib) ⟨ts, .word (c :: w)⟩ = _
    rw [ih hcs, List.reverse_cons, List.append_assoc]
    rfl

/-- a word is collected and stays open -/
theorem foldlM_chars_word {t : Token} (hw : t.isWord = true) (ts : List Token) :
    t.chars.foldlM (step lib) ⟨ts, .between⟩ = some ⟨ts, .word t.chars.reverse⟩ := by
  obtain ⟨hne, hends⟩ := Token.chars_of_isWord hw
  cases hchars : t.chars with
  | nil => exact absurd hchars hne
  | cons c cs =>
    rw [hchars] at hends
    obtain ⟨hc, hcs⟩ := List.forall_mem_cons.mp hends
    rw [List.foldlM_cons]
    show cs.foldlM (step lib) (start ts c) = _
    rw [start_word hc, foldlM_word hcs, List.reverse_cons]

/-- the next token, or the end of the text, ends an open word -/
theorem finish_word {t : Token} (hw : t.isWord = true) (ts : List Token) {cs : List Char}
    (hcs : ∀ c ∈ cs.head?, endsWord c = true) :
    (cs.foldlM (step lib) ⟨ts, .word t.chars.reverse⟩).bind (finish lib) =
      (t.reread lib).bind fun u => (cs.foldlM (step lib) ⟨u :: ts, .between⟩).bind (finish lib) := by
  have hword : Token.ofWord? lib t.chars.reverse.reverse = t.reread lib := by
    rw [List.reverse_reverse, Token.ofWord?_chars hw]
  cases cs with
  | nil =>
    show (Token.ofWord? lib t.chars.reverse.reverse).map _ = _
    rw [hword]
    cases t.reread lib <;> rfl
  | cons c cs =>
    have hstep : step lib ⟨ts, .word t.chars.reverse⟩ c =
        (t.reread lib).map fun u => start (u :: ts) c := by
      show (if endsWord c = true then (Token.ofWord? lib t.chars.reverse.reverse).map _ else _) = _
      rw [if_pos (hcs c rfl), hword]
    rw [List.foldlM_cons, hstep]
    cases t.reread lib <;> rfl

/-! ## strings -/

theorem hexValue?_digitChar {k : Nat} (hk : k < 16) :
    Token.hexValue? (Nat.digitChar k) = some k := by
  have hall : ∀ k < 16, Token.hexValue? (Nat.digitChar k) = some k := by decide
  exact hall k hk

/-- a character below the space, by its two hexadecimal digits -/
theorem foldlM_unicode {c : Char} (hc : c < ' ') (ts : List Token) (w : List Char) :
    ['\\', 'u', '0', '0', Nat.digitChar (c.toNat / 16), Nat.digitChar (c.toNat % 16)].foldlM
      (step lib) ⟨ts, .text w⟩ = some ⟨ts, .text (c :: w)⟩ := by
  have hlt : c.toNat < 32 := hc
  have hhigh := hexValue?_digitChar (k := c.toNat / 16) (by omega)
  have hlow := hexValue?_digitChar (k := c.toNat % 16) (Nat.mod_lt _ (by decide))
  have hunit : (0 * 16 + c.toNat / 16) * 16 + c.toNat % 16 = c.toNat := by omega
  have hcode : codeUnit w none c.toNat = some (.text (c :: w)) := by
    rw [codeUnit, if_neg (by omega), if_neg (by omega), Char.ofNat_toNat]
  show [Nat.digitChar (c.toNat / 16), Nat.digitChar (c.toNat % 16)].foldlM (step lib)
    ⟨ts, .unicode w none 1 0⟩ = _
  simp only [List.foldlM_cons, List.foldlM_nil, step, stepString, hhigh, hlow, hunit, hcode,
    Option.bind_eq_bind, Option.bind_some, Option.map_some, Option.pure_def]

/-- a character inside quotes is read back, however it is escaped -/
theorem foldlM_escaped (c : Char) (ts : List Token) (w : List Char) :
    (Token.escaped c).foldlM (step lib) ⟨ts, .text w⟩ = some ⟨ts, .text (c :: w)⟩ := by
  unfold Token.escaped
  split
  · next h => subst h; rfl
  split
  · next h => subst h; rfl
  split
  · next h => subst h; rfl
  split
  · next h => subst h; rfl
  split
  · next h => subst h; rfl
  split
  · next h => subst h; rfl
  split
  · next h => subst h; rfl
  split
  · next hcontrol => exact foldlM_unicode hcontrol ts w
  · next hquote hslash _ _ _ _ _ hcontrol =>
    have hstep : step lib ⟨ts, .text w⟩ c = some ⟨ts, .text (c :: w)⟩ := by
      simp only [step, stepString, if_neg hquote, if_neg hslash, if_neg hcontrol, Option.map_some]
    rw [List.foldlM_cons, hstep]
    rfl

theorem foldlM_flatMap_escaped (cs : List Char) (ts : List Token) (w : List Char) :
    (cs.flatMap Token.escaped).foldlM (step lib) ⟨ts, .text w⟩
      = some ⟨ts, .text (cs.reverse ++ w)⟩ := by
  induction cs generalizing w with
  | nil => rfl
  | cons c cs ih =>
    rw [List.flatMap_cons, List.foldlM_append, foldlM_escaped]
    show (cs.flatMap Token.escaped).foldlM (step lib) ⟨ts, .text (c :: w)⟩ = _
    rw [ih, List.reverse_cons, List.append_assoc]
    rfl

theorem foldlM_quoted (s : String) (ts : List Token) :
    (Token.quoted s).foldlM (step lib) ⟨ts, .between⟩ = some ⟨.string s :: ts, .between⟩ := by
  show (s.toList.flatMap Token.escaped ++ ['\x22']).foldlM (step lib) ⟨ts, .text []⟩ = _
  rw [List.foldlM_append, foldlM_flatMap_escaped, List.append_nil]
  show some (Lexer.mk (.string (String.ofList s.toList.reverse.reverse) :: ts) .between) = _
  rw [List.reverse_reverse, String.ofList_toList]

/-- a token that is no word is finished by its own text -/
theorem foldlM_chars {t : Token} (hw : t.isWord = false) (ts : List Token) :
    t.chars.foldlM (step lib) ⟨ts, .between⟩ = some ⟨t :: ts, .between⟩ := by
  cases t with
  | string s => exact foldlM_quoted s ts
  | null => cases hw
  | bool b => cases hw
  | number n => cases hw
  | _ => rfl

end Lexer

/-! ## tokens -/

namespace Token

variable {lib : JsonLibrary}

/-- the tokens after the first are read once the first is -/
theorem mapM_reread_cons (t : Token) (ts acc : List Token) :
    ((t :: ts).mapM (reread lib)).map (acc.reverse ++ ·) = (t.reread lib).bind fun u =>
      (ts.mapM (reread lib)).map ((u :: acc).reverse ++ ·) := by
  rw [List.mapM_cons]
  cases t.reread lib with
  | none => rfl
  | some u =>
    cases ts.mapM (reread lib) with
    | none => rfl
    | some us =>
      show some (acc.reverse ++ u :: us) = some ((u :: acc).reverse ++ us)
      rw [List.reverse_cons, List.append_assoc]
      rfl

theorem foldlM_flatMap_chars {ts : List Token} (hs : Scannable ts) (acc : List Token) :
    ((ts.flatMap chars).foldlM (Lexer.step lib) ⟨acc, .between⟩).bind (Lexer.finish lib) =
      (ts.mapM (reread lib)).map (acc.reverse ++ ·) := by
  induction ts generalizing acc with
  | nil => exact congrArg some (List.append_nil _).symm
  | cons t ts ih =>
    obtain ⟨_, hnext, hs⟩ := scannable_cons.mp hs
    rw [mapM_reread_cons, List.flatMap_cons, List.foldlM_append]
    simp only [← ih hs]
    cases hw : t.isWord with
    | false =>
      rw [Lexer.foldlM_chars hw, reread_of_not_isWord hw]
      rfl
    | true =>
      rw [Lexer.foldlM_chars_word hw]
      refine Lexer.finish_word hw acc fun c hc => ?_
      -- the next token is no word, so its first character ends this one
      cases ts with
      | nil => cases hc
      | cons u us =>
        obtain ⟨d, ds, hchars, hends⟩ := chars_of_not_isWord (hnext hw u rfl)
        rw [List.flatMap_cons, hchars] at hc
        rw [← Option.some.inj hc]
        exact hends

/-- **Tokens are read from their joined text**, each by itself -/
theorem scan?_chars {ts : List Token} (hs : Scannable ts) :
    scan? lib (ts.flatMap chars) = ts.mapM (reread lib) := by
  rw [scan?, foldlM_flatMap_chars hs]
  exact Option.map_id'

theorem mapM_reread_of_readsBack (hlib : lib.ReadsBack) {ts : List Token}
    (hts : ∀ t ∈ ts, t.Fits) : ts.mapM (reread lib) = some ts := by
  induction ts with
  | nil => rfl
  | cons t ts ih =>
    obtain ⟨ht, hts⟩ := List.forall_mem_cons.mp hts
    rw [List.mapM_cons, reread_of_readsBack hlib ht, ih hts]
    rfl

/-- so tokens are read back by a library that reads doubles back -/
theorem scan?_chars_of_readsBack (hlib : lib.ReadsBack) {ts : List Token} (hs : Scannable ts) :
    scan? lib (ts.flatMap chars) = some ts := by
  rw [scan?_chars hs, mapM_reread_of_readsBack hlib hs.fits]

end Token

end ScriptHeap
