import ScriptHeap.Proofs.Outcome
import ScriptHeap.Proofs.Seat
/-!
# Runs of a builder

* `BuildStep.write?`   the slot that an operation writes, and the value;
* `Builder.read?`      what a builder holds in a slot;
* `Builder.step_allocate`, `Builder.step_write`   what one operation asks for and what it changes;
* `Builder.run_append`, `Builder.run_size`   runs one after the other, and how many drafts there are;
* `Builder.run_writes`, `Builder.run_write_lt`   a run that is not refused writes slots that are
                       free, none of them twice, and none of a draft that is not there.
-/

namespace ScriptHeap

/-! ## slots of a builder -/

/-- the slot that an operation writes, with the value -/
def BuildStep.write? : BuildStep → Option ((Address × Slot) × Arg Address)
  | .allocate _ => none
  | .link field a value => some ((a, .link field), .nested value)
  | .arg a name value => some ((a, .arg name), value)

/-- the slots that operations write, in turn -/
def BuildStep.writes (steps : List BuildStep) : List ((Address × Slot) × Arg Address) :=
  steps.filterMap BuildStep.write?

/-- how many drafts operations append -/
def BuildStep.allocations (steps : List BuildStep) : Nat :=
  steps.countP fun s => s.write?.isNone

namespace Draft

theorem read_ofKind (kind : Kind) (slot : Slot) : (ofKind kind).read slot = none := by
  cases slot with
  | arg name => rfl
  | link field => cases field <;> rfl

theorem read_withLink {d : Draft} {value : Address} {field : LinkField} {slot : Slot} :
    (d.withLink value field).read slot
      = if slot = .link field then some (.nested value) else d.read slot := by
  by_cases h : slot = .link field
  · subst h
    rw [if_pos rfl]
    cases field <;> rfl
  · rw [if_neg h, read_withLink_of_ne h]

end Draft

namespace Builder

/-- what is written in the slot of a draft -/
def read? (b : Builder) (p : Address × Slot) : Option (Arg Address) :=
  (b.drafts[p.1]?).bind (·.read p.2)

section
variable {b b' : Builder} {s : BuildStep} {x : Option Address} {p : Address × Slot}
  {v : Arg Address}

theorem write_eq_ok {a : Address} {slot : Slot} {written : Draft → Bool} {f : Draft → Draft} :
    b.write a slot written f = .ok b' ↔
      ∃ d, b.drafts[a]? = some d ∧ written d = false ∧ b' = ⟨b.drafts.modify a f⟩ := by
  unfold write
  by_cases ha : a < b.drafts.size
  · have hget : b.drafts[a]? = some b.drafts[a] := Array.getElem?_eq_getElem ha
    have hset : b.drafts.set a (f b.drafts[a]) = b.drafts.modify a f := by
      apply Array.ext_getElem?
      intro i
      rw [Array.getElem?_set, Array.getElem?_modify]
      split
      · next hi => rw [← hi, hget]; rfl
      · rfl
    rw [dif_pos ha, hset]
    constructor
    · intro h
      split at h
      · cases h
      · next hw =>
        cases h
        exact ⟨_, hget, Bool.eq_false_iff.mpr hw, rfl⟩
    · rintro ⟨d, hd, hw, rfl⟩
      obtain rfl := Option.some.inj (hget.symm.trans hd)
      rw [hw, if_neg Bool.false_ne_true]
  · rw [dif_neg ha]
    exact ⟨nofun, fun ⟨d, hd, _⟩ => absurd (Array.getElem?_eq_some_iff.mp hd).1 ha⟩

/-- a new draft holds nothing -/
theorem read?_allocate (kind : Kind) : (b.allocate kind).2.read? p = b.read? p := by
  show ((b.drafts.push (.ofKind kind))[p.1]?).bind _ = (b.drafts[p.1]?).bind _
  rw [Array.getElem?_push]
  split
  · next hp =>
    rw [hp, Array.getElem?_eq_none (Nat.le_refl _)]
    exact Draft.read_ofKind kind p.2
  · rfl

/-- a draft changed so that it holds a value in a slot -/
theorem read?_modify {a : Address} {slot : Slot} {f : Draft → Draft} {d : Draft}
    (hd : b.drafts[a]? = some d)
    (hf : ∀ other, (f d).read other = if other = slot then some v else d.read other) :
    Builder.read? ⟨b.drafts.modify a f⟩ p = if p = (a, slot) then some v else b.read? p := by
  obtain ⟨a', other⟩ := p
  show ((b.drafts.modify a f)[a']?).bind _ = _
  rw [Array.getElem?_modify]
  by_cases ha : a = a'
  · subst ha
    rw [if_pos rfl, hd]
    show (f d).read other = _
    rw [hf, read?, hd]
    simp
  · rw [if_neg ha, if_neg (fun h => ha (Prod.mk.inj h).1.symm)]
    rfl

/-- **What a write asks for and what it changes**: the draft is there, the slot is free, and it holds
the value afterwards -/
theorem step_write (hs : s.write? = some (p, v)) (h : b.step s = .ok (x, b')) :
    p.1 < b.size ∧ b.read? p = none ∧ b'.size = b.size ∧
      ∀ q, b'.read? q = if q = p then some v else b.read? q := by
  cases s with
  | allocate kind => cases hs
  | link field a value =>
    cases hs
    obtain ⟨b₁, hb, heq⟩ := map_eq_ok.mp h
    cases heq
    obtain ⟨d, hd, hfree, rfl⟩ := write_eq_ok.mp hb
    refine ⟨(Array.getElem?_eq_some_iff.mp hd).1, ?_, size_write hb, fun q =>
      read?_modify hd fun _ => Draft.read_withLink⟩
    show (b.drafts[a]?).bind _ = none
    rw [hd]
    show Option.map _ (d.link? field) = none
    simpa using hfree
  | arg a name value =>
    cases hs
    obtain ⟨b₁, hb, heq⟩ := map_eq_ok.mp h
    cases heq
    obtain ⟨d, hd, hfree, rfl⟩ := write_eq_ok.mp hb
    refine ⟨(Array.getElem?_eq_some_iff.mp hd).1, ?_, size_write hb, fun q =>
      read?_modify hd fun _ => Draft.read_withArg⟩
    show (b.drafts[a]?).bind _ = none
    rw [hd]
    show d.args.find? name = none
    simpa using hfree

/-- what an operation that writes nothing does: there is one more draft, and it holds nothing -/
theorem step_allocate (hs : s.write? = none) (h : b.step s = .ok (x, b')) :
    b'.size = b.size + 1 ∧ ∀ q, b'.read? q = b.read? q := by
  cases s with
  | allocate kind =>
    cases h
    exact ⟨size_allocate b kind, fun q => read?_allocate kind⟩
  | link field a value => cases hs
  | arg a name value => cases hs

end

/-! ## runs -/

section
variable {b b' : Builder} {s : BuildStep} {steps : List BuildStep}

theorem run_cons : b.run (s :: steps) = b.step s >>= fun r => r.2.run steps := rfl

theorem run_append {more : List BuildStep} :
    b.run (steps ++ more) = b.run steps >>= fun b => b.run more := by
  induction steps generalizing b with
  | nil => rfl
  | cons s steps ih =>
    rw [List.cons_append, run_cons, run_cons, bind_assoc]
    exact bind_congr fun r => ih

theorem run_size (h : b.run steps = .ok b') : b'.size = b.size + BuildStep.allocations steps := by
  induction steps generalizing b with
  | nil =>
    cases h
    rfl
  | cons s steps ih =>
    rw [run_cons] at h
    obtain ⟨⟨x, b₁⟩, hs, hrest⟩ := bind_eq_ok.mp h
    have hsize := ih hrest
    unfold BuildStep.allocations at hsize ⊢
    rw [List.countP_cons, hsize]
    cases hw : s.write? with
    | none =>
      have hone := (step_allocate hw hs).1
      simp [hone]
      omega
    | some w =>
      have hsame := (step_write hw hs).2.2.1
      simp [hsame]

/-- a run that is not refused writes slots that were free, and none of them twice -/
theorem run_writes (h : b.run steps = .ok b') :
    (∀ w ∈ BuildStep.writes steps, b.read? w.1 = none) ∧
      ((BuildStep.writes steps).map Prod.fst).Nodup := by
  induction steps generalizing b with
  | nil => exact ⟨fun w hw => absurd hw List.not_mem_nil, List.nodup_nil⟩
  | cons s steps ih =>
    rw [run_cons] at h
    obtain ⟨⟨x, b₁⟩, hs, hrest⟩ := bind_eq_ok.mp h
    obtain ⟨hfree, hnodup⟩ := ih hrest
    unfold BuildStep.writes at hfree hnodup ⊢
    rw [List.filterMap_cons]
    cases hw : s.write? with
    | none =>
      have hread := (step_allocate hw hs).2
      exact ⟨fun w hmem => (hread w.1) ▸ hfree w hmem, hnodup⟩
    | some w =>
      obtain ⟨p, v⟩ := w
      obtain ⟨_, hp, _, hread⟩ := step_write hw hs
      -- a later write finds its slot free, so it is another slot than this one
      have hother : ∀ w ∈ steps.filterMap BuildStep.write?, w.1 ≠ p ∧ b.read? w.1 = none := by
        intro w hmem
        have hlater := hfree w hmem
        rw [hread] at hlater
        split at hlater
        · cases hlater
        · next hne => exact ⟨hne, hlater⟩
      refine ⟨List.forall_mem_cons.mpr ⟨hp, fun w hmem => (hother w hmem).2⟩, ?_⟩
      rw [List.map_cons, List.nodup_cons]
      refine ⟨fun hmem => ?_, hnodup⟩
      obtain ⟨w, hmem, heq⟩ := List.mem_map.mp hmem
      exact (hother w hmem).1 heq

/-- every write of a run goes to a draft that is there by then -/
theorem run_write_lt {before after : List BuildStep} {p : Address × Slot} {v : Arg Address}
    (h : b.run (before ++ s :: after) = .ok b') (hs : s.write? = some (p, v)) :
    p.1 < b.size + BuildStep.allocations before := by
  rw [run_append] at h
  obtain ⟨b₁, hbefore, h⟩ := bind_eq_ok.mp h
  rw [run_cons] at h
  obtain ⟨⟨x, b₂⟩, hstep, _⟩ := bind_eq_ok.mp h
  rw [← run_size hbefore]
  exact (step_write hs hstep).1

end

end Builder

end ScriptHeap
