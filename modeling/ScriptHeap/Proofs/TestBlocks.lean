import Mathlib.Algebra.Ring.Int.Defs
import Mathlib.Data.List.Infix
import Mathlib.Data.Nat.Find
import ScriptHeap.SourceLines
/-!
# Test blocks

* `occursIn_eq_true_iff`, `infix_trim_iff`   what occurs in a line, and in the same line trimmed;
* `net`, `level`       what a line adds to the depth of braces, and the depth before a line;
* `AttributeAt`, `Braced`   lines with a test attribute, and texts in which each of them has a block;
* `IsBlock`, `InBlock`, `InTestBlock`   the block of an attribute, and the lines of such blocks;
* `Latest`, `Open`     the last attribute before a line, and whether its block still goes on there;
* `Scan.Tracks`        what the scan knows before a line, with `Scan.Tracks.step` for one line;
* `Scan.mem_collect_iff`   what the rest of a scan returns;
* `shipped_skips_latest_block`   a line is skipped with the block of the last attribute before it, so
                       no code outside test blocks is left out, and a text without blocks in blocks
                       is scanned right.
-/

namespace ScriptHeap

namespace SourceLines

/-! ## occurrences -/

theorem occursIn_eq_true_iff {part l : List Char} : occursIn part l = true ↔ part <:+: l := by
  induction l with
  | nil => simp [occursIn]
  | cons c rest ih =>
    rw [occursIn, Bool.or_eq_true, ih, List.isPrefixOf_iff_prefix, List.infix_cons_iff]

/-- what starts with a character that stays is not touched when a prefix is dropped -/
theorem infix_dropWhile_iff {p : Char → Bool} {part l : List Char}
    (hhead : ∀ c ∈ part.head?, p c = false) : part <:+: l.dropWhile p ↔ part <:+: l := by
  cases part with
  | nil => simp
  | cons d part =>
    induction l with
    | nil => simp
    | cons c rest ih =>
      rw [List.dropWhile_cons]
      split
      · next hc =>
        rw [ih, List.infix_cons_iff]
        refine ⟨.inr, fun h => h.resolve_left fun hprefix => ?_⟩
        obtain ⟨rfl, -⟩ := List.cons_prefix_cons.mp hprefix
        rw [hhead d rfl] at hc
        cases hc
      · rfl

/-- trimming a line takes nothing from a part without white space at its ends -/
theorem infix_trim_iff {part line : List Char} (hhead : ∀ c ∈ part.head?, isBlank c = false)
    (hlast : ∀ c ∈ part.getLast?, isBlank c = false) : part <:+: trim line ↔ part <:+: line := by
  unfold trim
  rw [← List.reverse_infix, List.reverse_reverse, infix_dropWhile_iff (by simpa using hlast),
    List.reverse_infix, infix_dropWhile_iff hhead]

theorem occursIn_trim_iff {line : List Char} :
    occursIn testAttribute (trim line) = true ↔ testAttribute <:+: line := by
  have hhead : testAttribute.head? = some '#' := by decide
  have hlast : testAttribute.getLast? = some ']' := by decide
  rw [occursIn_eq_true_iff, infix_trim_iff (by simp [hhead, isBlank]) (by simp [hlast, isBlank])]

/-! ## levels and blocks -/

/-- what a line adds to the depth of braces; a line with a test attribute adds nothing -/
def net (line : List Char) : Int :=
  if testAttribute <:+: line then 0 else line.count '\x7b' - line.count '\x7d'

/-- the depth before a line -/
def level (ls : List (List Char)) (i : Nat) : Int := ((ls.take i).map net).sum

/-- a line with a test attribute -/
def AttributeAt (ls : List (List Char)) (k : Nat) : Prop :=
  ∃ line ∈ ls[k]?, testAttribute <:+: line

/-- braces are balanced, and after each test attribute comes a line that opens more than it closes -/
structure Braced (ls : List (List Char)) : Prop where
  nonneg : ∀ i ≤ ls.length, 0 ≤ level ls i
  closed : level ls ls.length = 0
  opener : ∀ k < ls.length, AttributeAt ls k → ∃ line ∈ ls[k + 1]?, 0 < net line

/-- the block after an attribute ends with the first line that brings the depth back -/
structure IsBlock (ls : List (List Char)) (k e : Nat) : Prop where
  start : k < e
  stop : e < ls.length
  back : level ls (e + 1) ≤ level ls (k + 1)
  first : ∀ j < e, k < j → level ls (k + 1) < level ls (j + 1)

/-- a line of the block after an attribute -/
def InBlock (ls : List (List Char)) (k i : Nat) : Prop := ∃ e, IsBlock ls k e ∧ k < i ∧ i ≤ e

/-- a line of a test block -/
def InTestBlock (ls : List (List Char)) (i : Nat) : Prop := ∃ k, AttributeAt ls k ∧ InBlock ls k i

/-- the last attribute before a line -/
structure Latest (ls : List (List Char)) (k i : Nat) : Prop where
  here : AttributeAt ls k
  before : k < i
  last : ∀ j < i, k < j → ¬AttributeAt ls j

/-- the block after an attribute has not ended before a line -/
def Open (ls : List (List Char)) (k i : Nat) : Prop :=
  ∀ j < i, k < j → level ls (k + 1) < level ls (j + 1)

/-- a line that is no test attribute and no comment -/
def IsCode (line : List Char) : Prop := ¬testAttribute <:+: line ∧ isComment (trim line) = false

instance (ls : List (List Char)) (k : Nat) : Decidable (AttributeAt ls k) :=
  inferInstanceAs (Decidable (∃ line ∈ ls[k]?, testAttribute <:+: line))

section
variable {ls : List (List Char)} {line : List Char} {i k : Nat}

theorem net_of_attribute (h : testAttribute <:+: line) : net line = 0 := if_pos h

theorem net_of_not_attribute (h : ¬testAttribute <:+: line) :
    net line = line.count '\x7b' - line.count '\x7d' := if_neg h

theorem level_succ (h : ls[i]? = some line) : level ls (i + 1) = level ls i + net line := by
  simp [level, List.take_add_one, h]

theorem attributeAt_iff (h : ls[i]? = some line) : AttributeAt ls i ↔ testAttribute <:+: line := by
  simp [AttributeAt, h]

theorem AttributeAt.lt_length (h : AttributeAt ls k) : k < ls.length := by
  obtain ⟨line, hline, -⟩ := h
  exact (List.getElem?_eq_some_iff.mp hline).1

/-- in a braced text the block of an attribute consists of the lines before which it has not ended -/
theorem inBlock_iff (hb : Braced ls) (hk : k < ls.length) :
    InBlock ls k i ↔ k < i ∧ i < ls.length ∧ Open ls k i := by
  constructor
  · rintro ⟨e, he, hki, hie⟩
    exact ⟨hki, hie.trans_lt he.stop, fun j hj => he.first j (hj.trans_le hie)⟩
  · rintro ⟨hki, hi, hopen⟩
    -- at the end of the text the depth is back, so there is a first line that brings it back
    have hlast : k < ls.length - 1 ∧ level ls (ls.length - 1 + 1) ≤ level ls (k + 1) := by
      refine ⟨by omega, ?_⟩
      rw [Nat.sub_add_cancel (by omega), hb.closed]
      exact hb.nonneg _ hk
    have hend : ∃ e, k < e ∧ level ls (e + 1) ≤ level ls (k + 1) := ⟨_, hlast⟩
    obtain ⟨hstart, hback⟩ := Nat.find_spec hend
    have hleast : ∀ j < Nat.find hend, k < j → level ls (k + 1) < level ls (j + 1) :=
      fun j hj hkj => Int.not_le.mp fun hle => Nat.find_min hend hj ⟨hkj, hle⟩
    have hstop : Nat.find hend ≤ ls.length - 1 := Nat.find_min' hend hlast
    have hie : i ≤ Nat.find hend := by
      by_contra hlt
      have := hopen _ (by omega) hstart
      omega
    exact ⟨Nat.find hend, ⟨hstart, by omega, hback, hleast⟩, hki, hie⟩

theorem latest_succ_iff (h : AttributeAt ls i) : Latest ls k (i + 1) ↔ k = i := by
  constructor
  · intro hk
    have hki := hk.before
    by_contra hne
    exact hk.last i (by omega) (by omega) h
  · rintro rfl
    exact ⟨h, by omega, fun j hj hkj => by omega⟩

theorem latest_succ_iff_of_not (h : ¬AttributeAt ls i) : Latest ls k (i + 1) ↔ Latest ls k i := by
  constructor
  · intro hk
    have hki : k ≠ i := fun he => h (he ▸ hk.here)
    have hbefore := hk.before
    exact ⟨hk.here, by omega, fun j hj => hk.last j (by omega)⟩
  · intro hk
    refine ⟨hk.here, by have := hk.before; omega, fun j hj hkj => ?_⟩
    rcases Nat.lt_succ_iff_lt_or_eq.mp hj with hj | rfl
    · exact hk.last j hj hkj
    · exact h

theorem open_succ_iff (hki : k < i) :
    Open ls k (i + 1) ↔ Open ls k i ∧ level ls (k + 1) < level ls (i + 1) := by
  constructor
  · intro h
    exact ⟨fun j hj => h j (by omega), h i (by omega) hki⟩
  · rintro ⟨h, hi⟩ j hj hkj
    rcases Nat.lt_succ_iff_lt_or_eq.mp hj with hj | rfl
    · exact h j hj hkj
    · exact hi

/-- in a text without blocks in blocks, a line of a test block is in the block of the last attribute -/
theorem InTestBlock.of_latest (hflat : ∀ j, AttributeAt ls j → ¬InTestBlock ls j)
    (h : InTestBlock ls i) : ∃ k, Latest ls k i ∧ InBlock ls k i := by
  obtain ⟨k, hk, e, he, hki, hie⟩ := h
  refine ⟨k, ⟨hk, hki, fun j hji hkj hj => ?_⟩, e, he, hki, hie⟩
  exact hflat j hj ⟨k, hk, e, he, hkj, by omega⟩

end

/-! ## one line -/

namespace Scan

/-- the depth around the block that is skipped, once an attribute that waits has got its block -/
def inForce (s : Scan) : Option Nat := if s.pending then some s.depth else s.skip

/-- before a line the scan knows the depth, whether the line before is an attribute, and the depth
around the block of the last attribute if this has not ended -/
structure Tracks (s : Scan) (ls : List (List Char)) (i : Nat) : Prop where
  depth : (s.depth : Int) = level ls i
  waits : s.pending = true → ∃ k, i = k + 1 ∧ AttributeAt ls k
  skips : ∀ d : Nat, s.inForce = some d ↔ ∃ k, Latest ls k i ∧ Open ls k i ∧ d = level ls (k + 1)

section
variable {s : Scan} {ls : List (List Char)} {line : List Char} {i j : Nat}

theorem braces_eq (h : s.pending = true → 0 < line.count '\x7b') :
    s.braces line = ⟨s.depth + line.count '\x7b' - line.count '\x7d', s.inForce, false⟩ := by
  unfold braces inForce
  cases hp : s.pending with
  | true => simp [h hp]
  | false => simp

theorem step_of_attribute (hline : testAttribute <:+: line) :
    s.step line = (⟨s.depth, s.skip, true⟩, false) := by
  unfold step
  rw [if_pos (occursIn_trim_iff.mpr hline)]

theorem step_of_not_attribute (hline : ¬testAttribute <:+: line)
    (h : s.pending = true → 0 < line.count '\x7b') {depth : Nat}
    (hdepth : s.depth + line.count '\x7b' - line.count '\x7d' = depth) :
    s.step line = (⟨depth, s.inForce.filter (· < depth), false⟩,
      s.inForce.isNone && !isComment (trim line)) := by
  unfold step
  rw [if_neg (mt occursIn_trim_iff.mp hline), braces_eq h, hdepth]
  cases s.inForce with
  | none => rfl
  | some d =>
    by_cases hd : depth ≤ d
    · simp [hd, Option.filter]
    · simp [hd, Option.filter, Nat.lt_of_not_le hd]

theorem tracks_initial : Tracks initial ls 0 where
  depth := by simp [initial, level]
  waits := by simp [initial]
  skips := by
    intro d
    have hnone : ¬∃ k, Latest ls k 0 ∧ Open ls k 0 ∧ d = level ls (k + 1) :=
      fun ⟨k, hk, _⟩ => Nat.not_lt_zero k hk.before
    simp [initial, inForce, hnone]

/-- no block is skipped exactly if the block of the last attribute has ended -/
theorem Tracks.inForce_eq_none_iff (hb : Braced ls) (h : Tracks s ls i) :
    s.inForce = none ↔ ¬∃ k, Latest ls k i ∧ Open ls k i := by
  constructor
  · rintro hnone ⟨k, hk, hopen⟩
    have hpos := hb.nonneg (k + 1) hk.here.lt_length
    have hsome := (h.skips (level ls (k + 1)).toNat).mpr ⟨k, hk, hopen, Int.toNat_of_nonneg hpos⟩
    rw [hnone] at hsome
    cases hsome
  · intro hno
    refine Option.eq_none_iff_forall_ne_some.mpr fun d hd => hno ?_
    obtain ⟨k, hk, hopen, -⟩ := (h.skips d).mp hd
    exact ⟨k, hk, hopen⟩

/-- an attribute that waits gets its block with the next line -/
theorem Tracks.net_pos (hb : Braced ls) (h : Tracks s ls i) (hline : ls[i]? = some line)
    (hp : s.pending = true) : 0 < net line := by
  obtain ⟨k, rfl, hk⟩ := h.waits hp
  obtain ⟨next, hnext, hopen⟩ := hb.opener k hk.lt_length hk
  rw [hline] at hnext
  cases hnext
  exact hopen

/-- what the scan makes of a line that is no attribute, in terms of levels -/
theorem Tracks.exists_step (hb : Braced ls) (h : Tracks s ls i) (hline : ls[i]? = some line)
    (hnot : ¬testAttribute <:+: line) :
    ∃ depth : Nat, (depth : Int) = level ls (i + 1) ∧
      s.step line = (⟨depth, s.inForce.filter (· < depth), false⟩,
        s.inForce.isNone && !isComment (trim line)) := by
  have hnet := net_of_not_attribute hnot
  have hopens : s.pending = true → 0 < line.count '\x7b' := by
    intro hp
    have := h.net_pos hb hline hp
    omega
  refine ⟨_, ?_, step_of_not_attribute hnot hopens rfl⟩
  have hlevel := level_succ hline
  have hdepth := h.depth
  have hpos := hb.nonneg (i + 1) (List.getElem?_eq_some_iff.mp hline).1
  omega

/-- **a line keeps the scan on the track** -/
theorem Tracks.step (hb : Braced ls) (h : Tracks s ls i) (hline : ls[i]? = some line) :
    Tracks (s.step line).1 ls (i + 1) := by
  by_cases hattr : testAttribute <:+: line
  · have hat := (attributeAt_iff hline).mpr hattr
    have hlevel : level ls (i + 1) = level ls i := by
      rw [level_succ hline, net_of_attribute hattr, Int.add_zero]
    rw [step_of_attribute hattr]
    refine ⟨h.depth.trans hlevel.symm, fun _ => ⟨i, rfl, hat⟩, fun d => ?_⟩
    have hempty : Open ls i (i + 1) := fun j hj hij => by omega
    have hforce : inForce ⟨s.depth, s.skip, true⟩ = some s.depth := rfl
    rw [hforce, Option.some.injEq]
    simp only [latest_succ_iff hat, exists_eq_left, hempty, true_and, hlevel, ← h.depth]
    omega
  · have hat := mt (attributeAt_iff hline).mp hattr
    obtain ⟨depth, hdepth, hstep⟩ := h.exists_step hb hline hattr
    rw [hstep]
    refine ⟨hdepth, by simp, fun d => ?_⟩
    have hforce : inForce ⟨depth, s.inForce.filter (· < depth), false⟩
        = s.inForce.filter (· < depth) := rfl
    rw [hforce, Option.filter_eq_some_iff, h.skips]
    constructor
    · rintro ⟨⟨k, hk, hopen, hd⟩, hlt⟩
      refine ⟨k, (latest_succ_iff_of_not hat).mpr hk, (open_succ_iff hk.before).mpr ⟨hopen, ?_⟩, hd⟩
      have := of_decide_eq_true hlt
      omega
    · rintro ⟨k, hk, hopen, hd⟩
      have hk' := (latest_succ_iff_of_not hat).mp hk
      obtain ⟨hopen', hlt⟩ := (open_succ_iff hk'.before).mp hopen
      exact ⟨⟨k, hk', hopen', hd⟩, decide_eq_true (by omega)⟩

/-- a line counts if it is code and the block of the last attribute before it has ended -/
theorem Tracks.counts_iff (hb : Braced ls) (h : Tracks s ls i) (hline : ls[i]? = some line) :
    (s.step line).2 = true ↔ IsCode line ∧ ¬∃ k, Latest ls k i ∧ Open ls k i := by
  by_cases hattr : testAttribute <:+: line
  · rw [step_of_attribute hattr]
    simp [IsCode, hattr]
  · obtain ⟨depth, -, hstep⟩ := h.exists_step hb hline hattr
    rw [hstep, ← h.inForce_eq_none_iff hb]
    simp [IsCode, hattr, and_comm]

/-! ## the whole scan -/

theorem collect_cons (rest : List (List Char)) : s.collect i (line :: rest) =
    (if (s.step line).2 then [(i, trim line)] else []) ++ (s.step line).1.collect (i + 1) rest := by
  rw [collect]
  split
  next s' counts hstep =>
    rw [hstep]
    cases counts <;> rfl

theorem le_of_mem_collect (rest : List (List Char)) :
    ∀ x ∈ s.collect i rest, i ≤ x.1 := by
  induction rest generalizing s i with
  | nil => simp [collect]
  | cons line rest ih =>
    intro x hx
    rw [collect_cons, List.mem_append] at hx
    rcases hx with hx | hx
    · split at hx
      · exact (congrArg Prod.fst (List.mem_singleton.mp hx)).ge
      · cases hx
    · have := ih x hx
      omega

/-- lines are returned in order -/
theorem collect_pairwise (s : Scan) (i : Nat) (rest : List (List Char)) :
    (s.collect i rest).Pairwise (·.1 < ·.1) := by
  induction rest generalizing s i with
  | nil => exact .nil
  | cons line rest ih =>
    rw [collect_cons]
    split
    · exact List.pairwise_cons.mpr ⟨le_of_mem_collect rest, ih _ _⟩
    · exact ih _ _

/-- **The rest of a scan**, whatever came before: the code whose last attribute has its block behind it -/
theorem mem_collect_iff (hb : Braced ls) (h : Tracks s ls i) {t : List Char} :
    (j, t) ∈ s.collect i (ls.drop i) ↔ i ≤ j ∧ ∃ line ∈ ls[j]?,
      t = trim line ∧ IsCode line ∧ ¬∃ k, Latest ls k j ∧ Open ls k j := by
  generalize hrest : ls.drop i = rest
  induction rest generalizing s i with
  | nil =>
    have hlen := List.drop_eq_nil_iff.mp hrest
    refine ⟨fun hmem => absurd hmem List.not_mem_nil, ?_⟩
    rintro ⟨hij, line, hline, -⟩
    have := (List.getElem?_eq_some_iff.mp hline).1
    omega
  | cons line rest ih =>
    have hline : ls[i]? = some line := by
      rw [← List.head?_drop, hrest]
      rfl
    have hdrop : ls.drop (i + 1) = rest := by
      rw [← List.tail_drop, hrest]
      rfl
    have hhead : (j, t) ∈ (if (s.step line).2 then [(i, trim line)] else []) ↔
        (s.step line).2 = true ∧ j = i ∧ t = trim line := by
      split <;> simp [*]
    rw [collect_cons, List.mem_append, ih (h.step hb hline) hdrop, hhead, h.counts_iff hb hline]
    constructor
    · rintro (⟨⟨hcode, hno⟩, rfl, rfl⟩ | ⟨hij, hrest⟩)
      · exact ⟨le_refl _, line, hline, rfl, hcode, hno⟩
      · exact ⟨by omega, hrest⟩
    · rintro ⟨hij, line', hline', rfl, hcode, hno⟩
      rcases Nat.eq_or_lt_of_le hij with rfl | hlt
      · cases hline.symm.trans hline'
        exact .inl ⟨⟨hcode, hno⟩, rfl, rfl⟩
      · exact .inr ⟨hlt, line', hline', rfl, hcode, hno⟩

end

end Scan

/-- what is returned is the code, trimmed, but for the lines that are skipped -/
def ReturnsCode (text : String) (skipped : Nat → Prop) : Prop :=
  ∀ i t, (i, t) ∈ shipped text ↔ ∃ line ∈ (lines text.toList)[i]?,
    t = String.ofList (trim line) ∧ IsCode line ∧ ¬skipped i

theorem ReturnsCode.congr {text : String} {skipped skipped' : Nat → Prop}
    (h : ReturnsCode text skipped)
    (hiff : ∀ i < (lines text.toList).length, skipped i ↔ skipped' i) : ReturnsCode text skipped' := by
  intro i t
  rw [h i t]
  refine exists_congr fun line => and_congr_right fun hline => ?_
  rw [hiff i (List.getElem?_eq_some_iff.mp hline).1]

/-- the block of the last attribute is skipped as long as it has not ended -/
theorem returnsCode_open (text : String) (hb : Braced (lines text.toList)) :
    ReturnsCode text fun i => ∃ k, Latest (lines text.toList) k i ∧ Open (lines text.toList) k i := by
  intro i t
  have hscan (chars : List Char) := Scan.mem_collect_iff hb Scan.tracks_initial (j := i) (t := chars)
  simp only [List.drop_zero, Nat.zero_le, true_and] at hscan
  unfold shipped
  rw [List.mem_map]
  constructor
  · rintro ⟨⟨j, chars⟩, hmem, heq⟩
    obtain ⟨rfl, rfl⟩ := Prod.mk.inj heq
    obtain ⟨line, hline, rfl, hcode, hno⟩ := (hscan chars).mp hmem
    exact ⟨line, hline, rfl, hcode, hno⟩
  · rintro ⟨line, hline, rfl, hcode, hno⟩
    exact ⟨(i, trim line), (hscan _).mpr ⟨line, hline, rfl, hcode, hno⟩, rfl⟩

/-- **Skipping test blocks.** In a braced text lines are returned in order, trimmed, and a line of code
is left out exactly if it stands in the block of the last attribute before it. So no code outside test
blocks is left out; and if there is no attribute within a test block, no line of a test block is returned. -/
theorem shipped_skips_latest_block (text : String) (hb : Braced (lines text.toList)) :
    (shipped text).Pairwise (·.1 < ·.1) ∧
    ReturnsCode text (fun i =>
      ∃ k, Latest (lines text.toList) k i ∧ InBlock (lines text.toList) k i) ∧
    (∀ i, ∀ line ∈ (lines text.toList)[i]?, IsCode line → ¬InTestBlock (lines text.toList) i →
      (i, String.ofList (trim line)) ∈ shipped text) ∧
    ((∀ k, AttributeAt (lines text.toList) k → ¬InTestBlock (lines text.toList) k) →
      ReturnsCode text (InTestBlock (lines text.toList))) := by
  have hlatest : ReturnsCode text (fun i =>
      ∃ k, Latest (lines text.toList) k i ∧ InBlock (lines text.toList) k i) := by
    refine (returnsCode_open text hb).congr fun i hi => exists_congr fun k => ?_
    refine and_congr_right fun hk => ?_
    have hki := hk.before
    simp [inBlock_iff hb (hki.trans hi), hki, hi]
  have hblock : ∀ i, (∃ k, Latest (lines text.toList) k i ∧ InBlock (lines text.toList) k i) →
      InTestBlock (lines text.toList) i := fun i ⟨k, hk, hin⟩ => ⟨k, hk.here, hin⟩
  refine ⟨?_, hlatest, fun i line hline hcode hno => ?_, fun hflat => ?_⟩
  · exact List.pairwise_map.mpr (Scan.collect_pairwise _ _ _)
  · exact (hlatest i _).mpr ⟨line, hline, rfl, hcode, fun h => hno (hblock i h)⟩
  · exact hlatest.congr fun i _ => ⟨hblock i, InTestBlock.of_latest hflat⟩

end SourceLines

namespace Sample

open SourceLines

/-- code before and after one test block -/
def flatText : String :=
  "fn a() \x7b\x7d\n#[cfg(test)]\nmod tests \x7b\n    fn b() \x7b\x7d\n\x7d\nfn c() \x7b\x7d\n"

def flatLines : List (List Char) :=
  ["fn a() \x7b\x7d", "#[cfg(test)]", "mod tests \x7b", "    fn b() \x7b\x7d", "\x7d",
    "fn c() \x7b\x7d"].map String.toList

theorem lines_flatText : lines flatText.toList = flatLines := by decide +kernel

/-- so `fn a` and `fn c` are returned, and nothing of the test block -/
theorem flatText_skipped :
    Braced (lines flatText.toList) ∧
    (∀ k, AttributeAt (lines flatText.toList) k → ¬InTestBlock (lines flatText.toList) k) ∧
    ReturnsCode flatText (InTestBlock (lines flatText.toList)) := by
  have hbraced : Braced (lines flatText.toList) := by
    rw [lines_flatText]
    exact ⟨by decide +kernel, by decide +kernel, by decide +kernel⟩
  have hone : ∀ k < (lines flatText.toList).length, AttributeAt (lines flatText.toList) k → k = 1 := by
    rw [lines_flatText]
    decide +kernel
  have hflat : ∀ k, AttributeAt (lines flatText.toList) k →
      ¬InTestBlock (lines flatText.toList) k := by
    rintro k hk ⟨j, hj, e, -, hjk, -⟩
    have := hone k hk.lt_length hk
    have := hone j hj.lt_length hj
    omega
  exact ⟨hbraced, hflat, (shipped_skips_latest_block flatText hbraced).2.2.2 hflat⟩

/-- a test block within a test block, and a line after it -/
def nestedText : String :=
  "#[cfg(test)]\nmod tests \x7b\n    #[cfg(test)]\n    mod inner \x7b\n    \x7d\n" ++
  "    fn leaked() \x7b\x7d\n\x7d\nfn shipped() \x7b\x7d\n"

def nestedLines : List (List Char) :=
  ["#[cfg(test)]", "mod tests \x7b", "    #[cfg(test)]", "    mod inner \x7b", "    \x7d",
    "    fn leaked() \x7b\x7d", "\x7d", "fn shipped() \x7b\x7d"].map String.toList

theorem lines_nestedText : lines nestedText.toList = nestedLines := by decide +kernel

/-- after a block within a test block the rest of the outer block is returned -/
theorem nestedText_leaks :
    Braced (lines nestedText.toList) ∧ InTestBlock (lines nestedText.toList) 5 ∧
    (5, "fn leaked() \x7b\x7d") ∈ shipped nestedText ∧
    ¬ReturnsCode nestedText (InTestBlock (lines nestedText.toList)) := by
  have hbraced : Braced (lines nestedText.toList) := by
    rw [lines_nestedText]
    exact ⟨by decide +kernel, by decide +kernel, by decide +kernel⟩
  have hin : InTestBlock (lines nestedText.toList) 5 := by
    rw [lines_nestedText]
    refine ⟨0, by decide +kernel, 6, ?_, by omega, by omega⟩
    exact ⟨by omega, by decide +kernel, by decide +kernel, by decide +kernel⟩
  have hmem : (5, "fn leaked() \x7b\x7d") ∈ shipped nestedText := by
    unfold shipped
    rw [lines_nestedText]
    decide +kernel
  refine ⟨hbraced, hin, hmem, fun h => ?_⟩
  obtain ⟨-, -, -, -, hno⟩ := (h 5 _).mp hmem
  exact hno hin

end Sample

end ScriptHeap
