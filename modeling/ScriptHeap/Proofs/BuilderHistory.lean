import ScriptHeap.Proofs.BuilderRun
/-!
# What a builder remembers

* `BuildStep.Written`  a slot that operations wrote, or that counts as written from the beginning;
* `BuildStep.Refused`  an operation that may not follow on others, with the fault;
* `Builder.run_read?`  a builder holds what it held before and what was written since;
* `Builder.step_eq_error_iff`, `Builder.run_eq_error_iff`   which operations are refused, and why;
* `Builder.wrote_finish`   what the cells of the finished heap hold;
* `Builder.history`    all of this together, for any sequence of operations;
* `Builder.sentinel_finish`   of the sentinel only the links are guarded, its arguments can be
                       written.
-/

namespace ScriptHeap

/-! ## histories -/

namespace BuildStep

/-- the kind that an operation appends a draft of -/
def kind? : BuildStep → Option Kind
  | .allocate kind => some kind
  | _ => none

/-- the kinds that operations append drafts of, in turn -/
def kinds (steps : List BuildStep) : List Kind := steps.filterMap kind?

/-- the operations wrote the slot, or it is a link of the sentinel -/
def Written (steps : List BuildStep) (p : Address × Slot) : Prop :=
  (∃ field, p = (.nothing, .link field)) ∨ ∃ v, (p, v) ∈ writes steps

/-- after these operations another writes a slot of a draft that is not there, or that is written -/
def Refused (steps : List BuildStep) (s : BuildStep) (fault : BuildFault) : Prop :=
  ∃ p v, s.write? = some (p, v) ∧
    ((allocations steps < p.1 ∧ fault = .unallocated p.1 (1 + allocations steps)) ∨
      (Written steps p ∧ fault = .writtenTwice p.2 p.1))

/-- a cell is of the kind that it was appended with and holds what was written, and nothing else;
the sentinel is there before any other -/
structure Wrote (steps : List BuildStep) (a : Address) (c : Cell) : Prop where
  kind : (Kind.nothing :: kinds steps)[a]? = some c.kind
  link : ∀ field value, ((a, .link field), .nested value) ∈ writes steps → c.link field = value
  unwritten : ∀ field, (∀ v, ((a, .link field), v) ∉ writes steps) → c.link field = .nothing
  arg : ∀ name v, c.arg? name = some v ↔ ((a, .arg name), v) ∈ writes steps

section
variable {s : BuildStep} {steps : List BuildStep}

theorem writes_cons : writes (s :: steps) = s.write?.toList ++ writes steps := by
  unfold writes
  rw [List.filterMap_cons]
  cases s.write? <;> rfl

theorem kinds_cons : kinds (s :: steps) = s.kind?.toList ++ kinds steps := by
  unfold kinds
  rw [List.filterMap_cons]
  cases s.kind? <;> rfl

theorem length_kinds (steps : List BuildStep) : (kinds steps).length = allocations steps := by
  induction steps with
  | nil => rfl
  | cons s steps ih =>
    rw [kinds_cons, List.length_append, ih, allocations, allocations, List.countP_cons]
    cases s <;> simp [kind?, write?, Nat.add_comm]

end

end BuildStep

theorem Draft.link_toCell (d : Draft) (field : LinkField) :
    d.toCell.link field = (d.link? field).getD .nothing := by
  cases field <;> rfl

theorem Cell.isSentinel_iff {c : Cell} : c.isSentinel = true ↔
    c.kind = .nothing ∧ (∀ field, c.link field = .nothing) ∧ ∀ name, c.arg? name = none := by
  obtain ⟨kind, parent, next, body, args⟩ := c
  have hargs : args = .empty ↔ ∀ name, args.find? name = none :=
    ⟨fun h => h ▸ NameMap.find?_empty, fun h => NameMap.ext_find? h⟩
  have hlinks : (∀ field, (Cell.mk kind parent next body args).link field = .nothing) ↔
      parent = .nothing ∧ next = .nothing ∧ body = .nothing :=
    ⟨fun h => ⟨h .parent, h .next, h .body⟩,
      fun ⟨hp, hn, hb⟩ field => by cases field <;> assumption⟩
  rw [hlinks, isSentinel, beq_iff_eq, sentinel, ofKind, Cell.mk.injEq, hargs]
  simp only [and_assoc, arg?]

namespace Builder

open BuildStep (Written Refused Wrote)

/-- the kinds of the drafts -/
def kinds (b : Builder) : List Kind := b.drafts.toList.map (·.kind)

/-- the addresses that operations return -/
def returned (b : Builder) : List BuildStep → Except BuildFault (List Address)
  | [] => .ok []
  | s :: rest => do
    let (x, b) ← b.step s
    return x.toList ++ (← b.returned rest)

/-! ## one operation -/

section
variable {b b' : Builder} {s : BuildStep} {x : Option Address} {p : Address × Slot}
  {v : Arg Address} {fault : BuildFault}

theorem write_eq_error {a : Address} {slot : Slot} {written : Draft → Bool} {f : Draft → Draft} :
    b.write a slot written f = .error fault ↔
      (b.size ≤ a ∧ fault = .unallocated a b.size) ∨
        ∃ d, b.drafts[a]? = some d ∧ written d = true ∧ fault = .writtenTwice slot a := by
  unfold write
  by_cases ha : a < b.drafts.size
  · have hget : b.drafts[a]? = some b.drafts[a] := Array.getElem?_eq_getElem ha
    rw [dif_pos ha]
    split
    · next hw =>
      constructor
      · intro h
        cases h
        exact .inr ⟨_, hget, hw, rfl⟩
      · rintro (⟨hout, _⟩ | ⟨_, _, _, rfl⟩)
        · exact absurd ha (Nat.not_lt.mpr hout)
        · rfl
    · next hw =>
      refine ⟨nofun, ?_⟩
      rintro (⟨hout, _⟩ | ⟨d, hd, hwd, _⟩)
      · exact absurd ha (Nat.not_lt.mpr hout)
      · obtain rfl := Option.some.inj (hget.symm.trans hd)
        exact absurd hwd hw
  · rw [dif_neg ha]
    constructor
    · intro h
      cases h
      exact .inl ⟨Nat.not_lt.mp ha, rfl⟩
    · rintro (⟨_, rfl⟩ | ⟨d, hd, _⟩)
      · rfl
      · exact absurd (Array.getElem?_eq_some_iff.mp hd).1 ha

/-- **When a write is refused**: its draft is not there, or something is written in its slot -/
theorem step_eq_error (hs : s.write? = some (p, v)) : b.step s = .error fault ↔
    (b.size ≤ p.1 ∧ fault = .unallocated p.1 b.size) ∨
      ((∃ w, b.read? p = some w) ∧ fault = .writtenTwice p.2 p.1) := by
  have hslot : ∀ {written : Draft → Bool}, (∀ d, written d = (d.read p.2).isSome) →
      ((∃ d, b.drafts[p.1]? = some d ∧ written d = true ∧ fault = .writtenTwice p.2 p.1) ↔
        (∃ w, b.read? p = some w) ∧ fault = .writtenTwice p.2 p.1) := by
    intro written hwritten
    simp only [hwritten, read?, Option.bind_eq_some_iff, Option.isSome_iff_exists]
    constructor
    · rintro ⟨d, hd, ⟨w, hw⟩, hf⟩
      exact ⟨⟨w, d, hd, hw⟩, hf⟩
    · rintro ⟨⟨w, d, hd, hw⟩, hf⟩
      exact ⟨d, hd, ⟨w, hw⟩, hf⟩
  cases s with
  | allocate kind => cases hs
  | link field a value =>
    cases hs
    show (b.setLink field a value).map _ = _ ↔ _
    rw [map_eq_error, setLink, write_eq_error]
    exact or_congr_right (hslot fun d => by rw [Draft.read, Option.isSome_map])
  | arg a name value =>
    cases hs
    show (b.setArg a name v).map _ = _ ↔ _
    rw [map_eq_error, setArg, write_eq_error]
    exact or_congr_right (hslot fun d => rfl)

/-- a changed draft stays of its kind -/
theorem kinds_modify {a : Address} {f : Draft → Draft} (hf : ∀ d, (f d).kind = d.kind) :
    Builder.kinds ⟨b.drafts.modify a f⟩ = b.kinds := by
  refine List.ext_getElem? fun i => ?_
  simp only [kinds, List.getElem?_map, Array.getElem?_toList, Array.getElem?_modify]
  split
  · cases b.drafts[i]? <;> simp [hf]
  · rfl

/-- a write returns no address, and the kinds of the drafts stay as they are; a new draft comes last
and has the next address -/
theorem step_returns (h : b.step s = .ok (x, b')) :
    b'.kinds = b.kinds ++ s.kind?.toList ∧ x.toList = List.range' b.size s.kind?.toList.length := by
  cases s with
  | allocate kind =>
    cases h
    simp [kinds, BuildStep.kind?, Draft.ofKind]
  | link field a value =>
    obtain ⟨b₁, hb, heq⟩ := map_eq_ok.mp h
    cases heq
    obtain ⟨d, _, _, rfl⟩ := write_eq_ok.mp hb
    exact ⟨(kinds_modify fun d => by cases field <;> rfl).trans (List.append_nil _).symm, rfl⟩
  | arg a name value =>
    obtain ⟨b₁, hb, heq⟩ := map_eq_ok.mp h
    cases heq
    obtain ⟨d, _, _, rfl⟩ := write_eq_ok.mp hb
    have hkind : ∀ d : Draft, (d.withArg name value).kind = d.kind := fun d => rfl
    exact ⟨(kinds_modify hkind).trans (List.append_nil _).symm, rfl⟩

end

/-! ## runs -/

section
variable {b b' : Builder} {s : BuildStep} {steps : List BuildStep} {p : Address × Slot}
  {v : Arg Address} {fault : BuildFault}

/-- **A builder holds what it held before and what was written since**: nothing is written over -/
theorem run_read? (h : b.run steps = .ok b') :
    b'.read? p = some v ↔ b.read? p = some v ∨ (p, v) ∈ BuildStep.writes steps := by
  induction steps generalizing b with
  | nil =>
    cases h
    simp [BuildStep.writes]
  | cons s steps ih =>
    rw [run_cons] at h
    obtain ⟨⟨x, b₁⟩, hs, hrest⟩ := bind_eq_ok.mp h
    rw [ih hrest, BuildStep.writes_cons, List.mem_append, ← or_assoc]
    refine or_congr_left ?_
    show b₁.read? p = _ ↔ _
    cases hw : s.write? with
    | none => simp [(step_allocate hw hs).2 p]
    | some w =>
      obtain ⟨q, u⟩ := w
      obtain ⟨_, hfree, _, hread⟩ := step_write hw hs
      rw [hread]
      by_cases hp : p = q
      · subst hp
        simp [hfree, eq_comm]
      · simp [hp]

/-- a run stops at an operation that is refused -/
theorem exists_step_of_run (h : b.run steps = .error fault) :
    ∃ before s after b₁, steps = before ++ s :: after ∧ b.run before = .ok b₁ ∧
      b₁.step s = .error fault := by
  induction steps generalizing b with
  | nil => cases h
  | cons s steps ih =>
    rw [run_cons] at h
    rcases bind_eq_error.mp h with hs | ⟨⟨x, b₁⟩, hs, hrest⟩
    · exact ⟨[], s, steps, b, rfl, rfl, hs⟩
    · obtain ⟨before, t, after, b₂, rfl, hb, ht⟩ := ih hrest
      refine ⟨s :: before, t, after, b₂, rfl, ?_, ht⟩
      rw [run_cons, hs]
      exact hb

theorem run_returns (h : b.run steps = .ok b') : b'.kinds = b.kinds ++ BuildStep.kinds steps ∧
    b.returned steps = .ok (List.range' b.size (BuildStep.kinds steps).length) := by
  induction steps generalizing b with
  | nil =>
    cases h
    exact ⟨(List.append_nil _).symm, rfl⟩
  | cons s steps ih =>
    rw [run_cons] at h
    obtain ⟨⟨x, b₁⟩, hs, hrest⟩ := bind_eq_ok.mp h
    obtain ⟨hkinds, hreturned⟩ := ih hrest
    obtain ⟨hkind, haddress⟩ := step_returns hs
    have hsize : b₁.size = b.size + s.kind?.toList.length := by
      have hlen := congrArg List.length hkind
      simpa [kinds, size] using hlen
    refine ⟨by rw [hkinds, hkind, BuildStep.kinds_cons, List.append_assoc], ?_⟩
    rw [returned, hs]
    show (b₁.returned steps >>= fun l => pure (x.toList ++ l)) = _
    rw [hreturned, BuildStep.kinds_cons, List.length_append, hsize, haddress]
    exact congrArg Except.ok (by rw [List.range'_append_1])

end

/-! ## runs from the beginning -/

theorem read?_initial_iff {p : Address × Slot} {v : Arg Address} : initial.read? p = some v ↔
    (∃ field, p = (.nothing, .link field)) ∧ v = .nested .nothing := by
  obtain ⟨a, slot⟩ := p
  match a with
  | 0 =>
    cases slot with
    | link field =>
      cases field <;>
        simp [read?, initial, Draft.read, Draft.sentinel, Draft.link?, Address.nothing, eq_comm]
    | arg name => simp [read?, initial, Draft.read, Draft.sentinel, NameMap.find?_empty]
  | a + 1 => simp [read?, initial, Address.nothing]

section
variable {b : Builder} {s : BuildStep} {steps : List BuildStep} {p : Address × Slot}
  {v : Arg Address} {fault : BuildFault} (h : initial.run steps = .ok b)
include h

theorem exists_read?_iff : (∃ v, b.read? p = some v) ↔ Written steps p := by
  simp only [run_read? h, read?_initial_iff, exists_or, Written]
  exact or_congr_left ⟨fun ⟨_, hp, _⟩ => hp, fun hp => ⟨_, hp, rfl⟩⟩

/-- **Which operations are refused** after others that were not -/
theorem step_eq_error_iff : b.step s = .error fault ↔ Refused steps s fault := by
  have hsize : b.size = 1 + BuildStep.allocations steps := run_size h
  cases hs : s.write? with
  | none =>
    cases s with
    | allocate kind => exact ⟨nofun, fun ⟨_, _, hw, _⟩ => by cases hw⟩
    | link field a value => cases hs
    | arg a name value => cases hs
  | some w =>
    obtain ⟨p, v⟩ := w
    have hone : Refused steps s fault ↔ _ := ⟨fun ⟨_, _, hw, hr⟩ => by
      cases hs.symm.trans hw
      exact hr, fun hr => ⟨p, v, hs, hr⟩⟩
    rw [hone, step_eq_error hs, exists_read?_iff h, hsize, Nat.add_comm 1, Nat.succ_le_iff]

/-! ## the finished heap -/

/-- **What a cell of the finished heap holds** -/
theorem wrote_finish {a : Address} {c : Cell} (hc : b.finish.cells[a]? = some c) :
    Wrote steps a c := by
  have hget : b.finish.cells[a]? = (b.drafts[a]?).map Draft.toCell := Array.getElem?_map
  obtain ⟨d, hd, rfl⟩ := Option.map_eq_some_iff.mp (hget.symm.trans hc)
  have hread : ∀ slot, b.read? (a, slot) = d.read slot := fun slot => by rw [read?, hd]; rfl
  refine ⟨?_, fun field value hw => ?_, fun field hno => ?_, fun name v => ?_⟩
  · have hkinds : b.kinds = .nothing :: BuildStep.kinds steps := (run_returns h).1
    rw [← hkinds, kinds, List.getElem?_map, Array.getElem?_toList, hd]
    rfl
  · have hlink := (hread (.link field)).symm.trans ((run_read? h).mpr (.inr hw))
    obtain ⟨value', hvalue, heq⟩ := Option.map_eq_some_iff.mp hlink
    cases heq
    rw [Draft.link_toCell, hvalue, Option.getD_some]
  · rw [Draft.link_toCell]
    cases hlink : d.link? field with
    | none => rfl
    | some value =>
      have hsome : b.read? (a, .link field) = some (.nested value) := by
        rw [hread, Draft.read, hlink, Option.map_some]
      rcases (run_read? h).mp hsome with hinitial | hw
      · cases (read?_initial_iff.mp hinitial).2
        rfl
      · exact absurd hw (hno _)
  · have harg : d.toCell.arg? name = b.read? (a, .arg name) := (hread (.arg name)).symm
    rw [harg, run_read? h, read?_initial_iff]
    refine or_iff_right ?_
    rintro ⟨⟨_, hp⟩, _⟩
    cases hp

end

/-- a run is refused at the first operation that may not follow on those before it -/
theorem run_eq_error_iff {steps : List BuildStep} {fault : BuildFault} :
    initial.run steps = .error fault ↔ ∃ before s after, steps = before ++ s :: after ∧
      (∃ b, initial.run before = .ok b) ∧ Refused before s fault := by
  constructor
  · intro h
    obtain ⟨before, s, after, b, rfl, hb, hs⟩ := exists_step_of_run h
    exact ⟨before, s, after, rfl, ⟨b, hb⟩, (step_eq_error_iff hb).mp hs⟩
  · rintro ⟨before, s, after, rfl, ⟨b, hb⟩, hs⟩
    rw [run_append, hb]
    show b.run (s :: after) = _
    rw [run_cons, (step_eq_error_iff hb).mpr hs]
    rfl

/-- **What a builder does with any sequence of operations.** A write is refused exactly if its draft
is not there yet, or its slot was written before or is a link of the sentinel, and nothing else is
refused. If nothing is, the new drafts have the addresses from 1 on, no slot is written twice, and
the cells of the heap hold what was written and nothing else. -/
theorem history (steps : List BuildStep) :
    (∀ b s fault, initial.run steps = .ok b → (b.step s = .error fault ↔ Refused steps s fault)) ∧
    (∀ fault, initial.run steps = .error fault ↔ ∃ before s after, steps = before ++ s :: after ∧
      (∃ b, initial.run before = .ok b) ∧ Refused before s fault) ∧
    ∀ b, initial.run steps = .ok b → b.finish.size = 1 + BuildStep.allocations steps ∧
      initial.returned steps = .ok (List.range' 1 (BuildStep.allocations steps)) ∧
      ((BuildStep.writes steps).map Prod.fst).Nodup ∧
      ∀ a c, b.finish.cells[a]? = some c → Wrote steps a c := by
  refine ⟨fun b s fault h => step_eq_error_iff h, fun fault => run_eq_error_iff, fun b h => ?_⟩
  refine ⟨(size_finish b).trans (run_size h), ?_, (run_writes h).2, fun a c => wrote_finish h⟩
  rw [(run_returns h).2, BuildStep.length_kinds]
  rfl

end Builder

namespace Sample

/-- a block with an argument and a statement, and one more cell -/
def blockSteps : List BuildStep :=
  [.allocate .sequence, .arg .root "version" (.scalar (.integer 1)), .allocate .takePhoto,
    .link .body .root 2, .link .parent 2 .root, .allocate .nothing]

theorem blockSteps_history : ∃ b, Builder.initial.run blockSteps = .ok b ∧
    b.step (.link .body .root 3) = .error (.writtenTwice (.link .body) .root) ∧
    b.step (.link .next .nothing 1) = .error (.writtenTwice (.link .next) .nothing) ∧
    b.step (.arg 4 "version" (.nested 1)) = .error (.unallocated 4 4) ∧
    Builder.initial.run (blockSteps ++ [.link .body .root 3]) =
      .error (.writtenTwice (.link .body) .root) ∧
    b.finish.size = 4 ∧ Builder.initial.returned blockSteps = .ok [1, 2, 3] ∧
    ∀ c, b.finish.cells[Address.root]? = some c → c.kind = .sequence ∧ c.body = 2 ∧
      c.next = .nothing ∧ c.arg? "version" = some (.scalar (.integer 1)) := by
  obtain ⟨b, hb⟩ : ∃ b, Builder.initial.run blockSteps = .ok b := ⟨_, rfl⟩
  obtain ⟨hstep, hrun, hfinish⟩ := Builder.history blockSteps
  obtain ⟨hsize, hreturned, _, hcells⟩ := hfinish b hb
  have hbody : BuildStep.Written blockSteps (.root, .link .body) := .inr ⟨.nested 2, by decide⟩
  have hnext : BuildStep.Written blockSteps (.nothing, .link .next) := .inl ⟨.next, rfl⟩
  refine ⟨b, hb, (hstep b _ _ hb).mpr ⟨_, _, rfl, .inr ⟨hbody, rfl⟩⟩,
    (hstep b _ _ hb).mpr ⟨_, _, rfl, .inr ⟨hnext, rfl⟩⟩,
    (hstep b _ _ hb).mpr ⟨_, _, rfl, .inl ⟨by decide, rfl⟩⟩,
    ((Builder.history _).2.1 _).mpr ⟨blockSteps, _, [], rfl, ⟨b, hb⟩, _, _, rfl, .inr ⟨hbody, rfl⟩⟩,
    hsize, hreturned, fun c hc => ?_⟩
  have hw := hcells .root c hc
  exact ⟨(Option.some.inj hw.kind).symm, hw.link .body 2 (by decide),
    hw.unwritten .next fun v hmem =>
      absurd hmem (by simp [blockSteps, BuildStep.writes, BuildStep.write?]),
    (hw.arg _ _).mpr (by decide)⟩

end Sample

/-! ## the sentinel -/

namespace Builder

theorem exists_sentinel {b : Builder} {steps : List BuildStep} (h : initial.run steps = .ok b) :
    ∃ c, b.finish.cells[Address.nothing]? = some c := by
  have hpos : Address.nothing < b.finish.size := by
    rw [size_finish, run_size h]
    exact Nat.add_pos_left Nat.one_pos _
  exact ⟨_, Array.getElem?_eq_getElem hpos⟩

/-- **The links of the sentinel stay 0, its arguments are open**: the sentinel of the finished heap
is as it was exactly if no argument of it was written -/
theorem sentinel_finish {b : Builder} {steps : List BuildStep} (h : initial.run steps = .ok b) :
    ∃ c, b.finish.cells[Address.nothing]? = some c ∧ c.kind = .nothing ∧
      (∀ field, c.link field = .nothing) ∧
      (∀ name v, c.arg? name = some v ↔ ((.nothing, .arg name), v) ∈ BuildStep.writes steps) ∧
      (c.isSentinel = true ↔ ∀ name v, ((.nothing, .arg name), v) ∉ BuildStep.writes steps) := by
  obtain ⟨c, hc⟩ := exists_sentinel h
  have hw := wrote_finish h hc
  have hkind : c.kind = .nothing := (Option.some.inj hw.kind).symm
  -- a write of a link of the sentinel would have found it written
  have hlink : ∀ field, c.link field = .nothing := fun field => hw.unwritten field fun v hmem => by
    have hfree := (run_writes h).1 _ hmem
    cases field <;> cases hfree
  refine ⟨c, hc, hkind, hlink, hw.arg, ?_⟩
  rw [Cell.isSentinel_iff, and_iff_right hkind, and_iff_right hlink]
  simp only [← hw.arg, Option.eq_none_iff_forall_ne_some, ne_eq]

end Builder

namespace Sample

/-- an argument of the sentinel is written, and of the block after it -/
def marking : List BuildStep :=
  [.allocate .sequence, .arg .nothing "x" (.scalar (.integer 1)), .arg .root "x" (.nested 1)]

theorem marking_shows : ∃ b, Builder.initial.run marking = .ok b ∧
    ∃ c, b.finish.cells[Address.nothing]? = some c ∧ c.kind = .nothing ∧ c.next = .nothing ∧
      c.arg? "x" = some (.scalar (.integer 1)) ∧ c.arg? "y" = none := by
  obtain ⟨b, hb⟩ : ∃ b, Builder.initial.run marking = .ok b := ⟨_, rfl⟩
  obtain ⟨c, hc, hkind, hlink, harg, _⟩ := Builder.sentinel_finish hb
  refine ⟨b, hb, c, hc, hkind, hlink .next, (harg _ _).mpr (by decide),
    Option.eq_none_iff_forall_ne_some.mpr fun v hv => ?_⟩
  exact absurd ((harg _ _).mp hv) (by simp [marking, BuildStep.writes, BuildStep.write?])

/-- a single write that is not refused, and the sentinel is not what it was -/
theorem sentinel_altered : ∃ b c,
    Builder.initial.run [.arg .nothing "x" (.scalar (.integer 1))] = .ok b ∧
      b.finish.cells[Address.nothing]? = some c ∧ c.isSentinel = false := by
  obtain ⟨b, hb⟩ : ∃ b, Builder.initial.run [.arg .nothing "x" (.scalar (.integer 1))] = .ok b :=
    ⟨_, rfl⟩
  obtain ⟨c, hc⟩ := Builder.exists_sentinel hb
  have hx : c.arg? "x" = some (.scalar (.integer 1)) :=
    ((Builder.wrote_finish hb hc).arg _ _).mpr List.mem_cons_self
  refine ⟨b, c, hb, hc, Bool.eq_false_iff.mpr fun hs => ?_⟩
  cases hx.symm.trans ((Cell.isSentinel_iff.mp hs).2.2 "x")

end Sample

end ScriptHeap
