import ScriptHeap.Proofs.BuilderRun
import ScriptHeap.Proofs.FlattenLoop
import ScriptHeap.Sample
/-!
# What flattening writes

* `Node.cellSteps`, `OpenCell.linkSteps`, `OpenCell.closeSteps`   making a cell, linking to a part and
                       closing a cell as operations on the builder;
* `FlattenState.steps` the operations of a round;
* `Node.flattenRound_eq_run`   a round does them and nothing else, or finds a fault before the first;
* `Node.run_of_rounds` so the builder of every state is what the operations so far have made;
* `FlattenState.Real`  no open cell is the sentinel, which no round changes;
* `BuildStep.WriteOnce`   operations that write no slot twice, none of a draft that is not there, and
                       none of the sentinel;
* `Node.flatten_writes_once`   those of all rounds up to any state are such operations.
-/

namespace ScriptHeap

/-! ## the operations of flattening -/

namespace Builder

theorem run_link (b : Builder) (field : LinkField) (a value : Address) :
    b.run [.link field a value] = b.setLink field a value := by
  show (b.setLink field a value).map _ >>= _ = _
  cases b.setLink field a value <;> rfl

theorem run_arg (b : Builder) (a : Address) (name : String) (value : Arg Address) :
    b.run [.arg a name value] = b.setArg a name value := by
  show (b.setArg a name value).map _ >>= _ = _
  cases b.setArg a name value <;> rfl

theorem run_scalars (b : Builder) (a : Address) (es : List (String × Scalar)) :
    b.run (es.map fun e => .arg a e.1 (.scalar e.2))
      = es.foldlM (fun b (name, s) => b.setArg a name (.scalar s)) b := by
  induction es generalizing b with
  | nil => rfl
  | cons e es ih =>
    rw [List.map_cons, ← List.singleton_append, run_append, run_arg, List.foldlM_cons]
    exact bind_congr fun b' => ih b'

end Builder

namespace OpenCell

/-- the operations that link to a part -/
def linkSteps (o : OpenCell) (place : Place) (child : Address) : List BuildStep :=
  match place with
  | .statement =>
    match o.last with
    | some last => [.link .next last child]
    | none => [.link .body o.address child]
  | .arg name primary =>
    .arg o.address name (.nested child) :: if primary then [.link .body o.address child] else []

/-- the operations that end the chain of a block -/
def closeSteps (o : OpenCell) (isBlock : Bool) : List BuildStep :=
  if isBlock then
    match o.last with
    | some last => [.link .next last .nothing]
    | none => [.link .body o.address .nothing]
  else []

theorem link_eq_run (o : OpenCell) (b : Builder) (place : Place) (child : Address) :
    o.link place child b = b.run (o.linkSteps place child) := by
  cases place with
  | statement =>
    unfold link linkSteps
    cases o.last with
    | some last => exact (Builder.run_link b .next last child).symm
    | none => exact (Builder.run_link b .body o.address child).symm
  | arg name primary =>
    show _ = b.run (.arg o.address name (.nested child) :: _)
    rw [← List.singleton_append, Builder.run_append, Builder.run_arg]
    refine bind_congr fun b' => ?_
    cases primary with
    | false => rfl
    | true => exact (Builder.run_link b' .body o.address child).symm

theorem close_eq_run (o : OpenCell) (b : Builder) (isBlock : Bool) :
    o.close b isBlock = b.run (o.closeSteps isBlock) := by
  unfold close closeSteps
  cases isBlock with
  | false => rfl
  | true =>
    cases o.last with
    | some last => exact (Builder.run_link b .next last .nothing).symm
    | none => exact (Builder.run_link b .body o.address .nothing).symm

end OpenCell

namespace Node

/-- the operations that make a cell with its parent and its scalars -/
def cellSteps (n : Node) (shape : KindShape) (parent a : Address) : List BuildStep :=
  .allocate shape.kind :: .link .parent a parent ::
    (n.scalars shape).map fun e => .arg a e.1 (.scalar e.2)

theorem allocate_eq_run (n : Node) (shape : KindShape) (parent : Address) (b : Builder) :
    n.allocate shape parent b = b.run (n.cellSteps shape parent b.size) >>= fun b' =>
      .ok (b.size, b') := by
  show _ = (Builder.run (b.allocate shape.kind).2 _) >>= _
  rw [← List.singleton_append, Builder.run_append, Builder.run_link, bind_assoc]
  refine bind_congr fun b' => ?_
  rw [Builder.run_scalars]
  rfl

end Node

/-! ## the operations of a round -/

namespace FlattenState

/-- the operations of a round; there are none where a part lies too deep or has no shape -/
def steps (corpus : Corpus) (policy : Policy) : FlattenState → List BuildStep
  | start root =>
    match root.openShape corpus policy 1 with
    | .error _ => []
    | .ok shape => root.cellSteps shape .nothing Builder.initial.size
  | within ⟨o, depth, _, (place, c) :: _⟩ _ b =>
    match c.openShape corpus policy (depth + 1) with
    | .error _ => []
    | .ok shape =>
      c.cellSteps shape (o.parentOf policy.linkage place) b.size ++ o.linkSteps place b.size
  | within ⟨o, _, isBlock, []⟩ _ _ => o.closeSteps isBlock

/-- the builder after a round -/
def builderOf : FlattenState ⊕ (Address × Builder) → Builder
  | .inl s => s.builder
  | .inr r => r.2

end FlattenState

namespace Node

section
variable {corpus : Corpus} {policy : Policy} {s s' t : FlattenState} {trace : List FlattenState}

theorem openFrame_eq_run (n : Node) (depth : Nat) (parent : Address) (b : Builder) :
    n.openFrame corpus policy depth parent b = n.openShape corpus policy depth >>= fun shape =>
      (b.run (n.cellSteps shape parent b.size)).mapError .build >>= fun b' =>
      .ok (⟨⟨b.size, none⟩, depth, shape.isBlock, n.parts shape⟩, b') := by
  refine bind_congr fun shape => ?_
  rw [allocate_eq_run]
  cases b.run (n.cellSteps shape parent b.size) <;> rfl

/-- **What a round does**: its operations in turn, and nothing else to the builder; or it finds a fault
of the tree before any operation -/
theorem flattenRound_eq_run (s : FlattenState) :
    (∃ go : Builder → FlattenState ⊕ (Address × Builder), (∀ b, FlattenState.builderOf (go b) = b) ∧
      flattenRound corpus policy s
        = (s.builder.run (s.steps corpus policy)).mapError .build >>= fun b => .ok (go b)) ∨
    (∃ fault, flattenRound corpus policy s = .error fault) ∧ s.steps corpus policy = [] := by
  cases s with
  | start root =>
    rw [flattenRound, openFrame_eq_run, FlattenState.steps]
    cases root.openShape corpus policy 1 with
    | error fault => exact .inr ⟨⟨fault, rfl⟩, rfl⟩
    | ok shape =>
      refine .inl ⟨fun b => .inl (.within
        ⟨⟨Builder.initial.size, none⟩, 1, shape.isBlock, root.parts shape⟩ [] b), fun b => rfl, ?_⟩
      show ((Builder.initial.run _).mapError FlattenFault.build >>= _) >>= _ = _
      rw [bind_assoc]
      rfl
  | within current parents b =>
    obtain ⟨o, depth, isBlock, ps⟩ := current
    cases ps with
    | nil =>
      rw [flattenRound, OpenCell.close_eq_run]
      refine .inl ⟨FlattenState.leave o.address parents, fun b => ?_, rfl⟩
      cases parents <;> rfl
    | cons p rest =>
      obtain ⟨place, c⟩ := p
      rw [flattenRound, openFrame_eq_run, FlattenState.steps]
      cases c.openShape corpus policy (depth + 1) with
      | error fault => exact .inr ⟨⟨fault, rfl⟩, rfl⟩
      | ok shape =>
        refine .inl ⟨fun b' => .inl (.within
          ⟨⟨b.size, none⟩, depth + 1, shape.isBlock, c.parts shape⟩
          (⟨o.after place b.size, depth, isBlock, rest⟩ :: parents) b'), fun b' => rfl, ?_⟩
        show ((b.run _).mapError FlattenFault.build >>= _) >>= _
          = (b.run (c.cellSteps _ _ _ ++ o.linkSteps place b.size)).mapError FlattenFault.build >>= _
        rw [Builder.run_append, bind_assoc]
        cases b.run (c.cellSteps shape (o.parentOf policy.linkage place) b.size) with
        | error fault => rfl
        | ok b' =>
          show ((o.link place b.size b').mapError FlattenFault.build >>= _) = _
          rw [OpenCell.link_eq_run]
          rfl

/-- a round that is not a fault has done its operations -/
theorem run_of_flattenRound {r : FlattenState ⊕ (Address × Builder)}
    (h : flattenRound corpus policy s = .ok r) :
    s.builder.run (s.steps corpus policy) = .ok (FlattenState.builderOf r) := by
  rcases flattenRound_eq_run s with ⟨go, hgo, hrun⟩ | ⟨⟨fault, hfault⟩, _⟩
  · rw [hrun] at h
    obtain ⟨b, hb, hr⟩ := bind_eq_ok.mp h
    cases hr
    rw [hgo, (mapError_eq_ok _).mp hb]
  · cases hfault.symm.trans h

/-- a round that fails with a fault of the tree has done none -/
theorem run_of_flattenRound_error {fault : FlattenFault}
    (h : flattenRound corpus policy s = .error fault) (hf : ∀ refused, fault ≠ .build refused) :
    s.builder.run (s.steps corpus policy) = .ok s.builder := by
  rcases flattenRound_eq_run s with ⟨go, _, hrun⟩ | ⟨_, hnone⟩
  · rw [hrun] at h
    cases hb : s.builder.run (s.steps corpus policy) with
    | error refused =>
      rw [hb] at h
      cases h
      exact absurd rfl (hf refused)
    | ok b =>
      rw [hb] at h
      cases h
  · rw [hnone]
    rfl

/-- the builder is what the operations of the rounds so far have made -/
theorem run_of_rounds (h : Loop.Rounds (flattenRound corpus policy) s trace t) :
    s.builder.run (trace.flatMap (·.steps corpus policy)) = .ok t.builder := by
  induction h with
  | here s => rfl
  | round hs _ ih =>
    rw [List.flatMap_cons, Builder.run_append, run_of_flattenRound hs]
    exact ih

end

end Node

/-! ## the sentinel -/

/-- operations that write nothing of the sentinel -/
def BuildStep.SpareSentinel (steps : List BuildStep) : Prop :=
  ∀ w ∈ BuildStep.writes steps, w.1.1 ≠ Address.nothing

theorem BuildStep.spareSentinel_append {steps more : List BuildStep} (h : SpareSentinel steps)
    (h' : SpareSentinel more) : SpareSentinel (steps ++ more) := by
  intro w hw
  unfold writes at hw
  rw [List.filterMap_append, List.mem_append] at hw
  rcases hw with hw | hw
  · exact h w hw
  · exact h' w hw

/-- neither the cell nor the last of its statements is the sentinel -/
def OpenCell.Real (o : OpenCell) : Prop := o.address ≠ .nothing ∧ o.last ≠ some .nothing

namespace OpenCell

section
variable {o : OpenCell}

theorem Real.last_ne (ho : o.Real) {last : Address} (hlast : o.last = some last) :
    last ≠ .nothing := fun h => ho.2 (hlast.trans (congrArg some h))

theorem Real.after (ho : o.Real) (place : Place) {child : Address} (hchild : child ≠ .nothing) :
    (o.after place child).Real := by
  cases place with
  | statement => exact ⟨ho.1, fun h => hchild (Option.some.inj h)⟩
  | arg name primary => exact ho

/-- a link of the cell or of the last statement is no link of the sentinel -/
theorem Real.spare_chain (ho : o.Real) (next : Address) : BuildStep.SpareSentinel
    (match o.last with
      | some last => [.link .next last next]
      | none => [.link .body o.address next]) := by
  cases hlast : o.last with
  | some last => exact List.forall_mem_singleton.mpr (ho.last_ne hlast)
  | none => exact List.forall_mem_singleton.mpr ho.1

theorem Real.spare_linkSteps (ho : o.Real) (place : Place) (child : Address) :
    BuildStep.SpareSentinel (o.linkSteps place child) := by
  cases place with
  | statement => exact ho.spare_chain child
  | arg name primary =>
    cases primary with
    | false => exact List.forall_mem_singleton.mpr ho.1
    | true => exact List.forall_mem_cons.mpr ⟨ho.1, List.forall_mem_singleton.mpr ho.1⟩

theorem Real.spare_closeSteps (ho : o.Real) (isBlock : Bool) :
    BuildStep.SpareSentinel (o.closeSteps isBlock) := by
  cases isBlock with
  | false => exact nofun
  | true => exact ho.spare_chain .nothing

end

end OpenCell

/-- a cell is made by writing it alone -/
theorem Node.spare_cellSteps (n : Node) (shape : KindShape) (parent : Address) {a : Address}
    (ha : a ≠ .nothing) : BuildStep.SpareSentinel (n.cellSteps shape parent a) := by
  intro w hw
  obtain ⟨s, hs, hw⟩ := List.mem_filterMap.mp hw
  rcases List.mem_cons.mp hs with rfl | hs
  · cases hw
  rcases List.mem_cons.mp hs with rfl | hs
  · cases hw
    exact ha
  · obtain ⟨e, _, rfl⟩ := List.mem_map.mp hs
    cases hw
    exact ha

namespace FlattenState

def frames : FlattenState → List FlattenFrame
  | start _ => []
  | within current parents _ => current :: parents

/-- no open cell is the sentinel, and none will be that is opened next -/
structure Real (s : FlattenState) : Prop where
  size : s.builder.size ≠ 0
  cells : ∀ f ∈ s.frames, f.cell.Real

theorem real_start (root : Node) : (start root).Real := ⟨Nat.one_ne_zero, nofun⟩

section
variable {corpus : Corpus} {policy : Policy} {s s' t : FlattenState} {trace : List FlattenState}

/-- what a round does to the builder leaves the sentinel alone -/
theorem Real.spare_steps (hs : s.Real) : BuildStep.SpareSentinel (s.steps corpus policy) := by
  obtain ⟨hsize, hcells⟩ := hs
  cases s with
  | start root =>
    rw [steps]
    cases root.openShape corpus policy 1 with
    | error fault => exact nofun
    | ok shape => exact root.spare_cellSteps shape _ hsize
  | within current parents b =>
    obtain ⟨o, depth, isBlock, ps⟩ := current
    have ho : o.Real := hcells _ List.mem_cons_self
    cases ps with
    | nil => exact ho.spare_closeSteps isBlock
    | cons p rest =>
      obtain ⟨place, c⟩ := p
      rw [steps]
      cases c.openShape corpus policy (depth + 1) with
      | error fault => exact nofun
      | ok shape =>
        exact BuildStep.spareSentinel_append (c.spare_cellSteps shape _ hsize)
          (ho.spare_linkSteps place _)

/-- a new cell comes after all others -/
theorem cell_of_openFrame {n : Node} {depth : Nat} {parent : Address} {b b' : Builder}
    {frame : FlattenFrame} (h : n.openFrame corpus policy depth parent b = .ok (frame, b')) :
    frame.cell = ⟨b.size, none⟩ := by
  rw [Node.openFrame_eq_run] at h
  obtain ⟨shape, _, h⟩ := bind_eq_ok.mp h
  obtain ⟨b₁, _, h⟩ := bind_eq_ok.mp h
  cases h
  rfl

/-- **A round opens no cell that is the sentinel**, and makes none the last statement of another -/
theorem Real.round (hs : s.Real) (h : Node.flattenRound corpus policy s = .ok (.inl s')) :
    s'.Real := by
  obtain ⟨hpos, hcells⟩ := hs
  have hsize : s'.builder.size = s.builder.size + BuildStep.allocations (s.steps corpus policy) :=
    Builder.run_size (Node.run_of_flattenRound h)
  refine ⟨by omega, ?_⟩
  cases s with
  | start root =>
    obtain ⟨⟨frame, b⟩, hopen, h⟩ := bind_eq_ok.mp h
    cases h
    refine List.forall_mem_singleton.mpr ?_
    rw [cell_of_openFrame hopen]
    exact ⟨hpos, nofun⟩
  | within current parents b =>
    obtain ⟨o, depth, isBlock, ps⟩ := current
    obtain ⟨ho, hparents⟩ := List.forall_mem_cons.mp hcells
    cases ps with
    | nil =>
      obtain ⟨b', _, h⟩ := bind_eq_ok.mp h
      cases parents with
      | nil => cases h
      | cons parent parents =>
        cases h
        exact hparents
    | cons p rest =>
      obtain ⟨place, c⟩ := p
      obtain ⟨⟨frame, b₁⟩, hopen, h⟩ := bind_eq_ok.mp h
      obtain ⟨b₂, _, h⟩ := bind_eq_ok.mp h
      cases h
      have hcell := cell_of_openFrame hopen
      refine List.forall_mem_cons.mpr ⟨?_, List.forall_mem_cons.mpr ⟨?_, hparents⟩⟩
      · rw [hcell]
        exact ⟨hpos, nofun⟩
      · rw [hcell]
        exact ho.after place hpos

theorem Real.rounds (h : Loop.Rounds (Node.flattenRound corpus policy) s trace t) (hs : s.Real) :
    t.Real ∧ BuildStep.SpareSentinel (trace.flatMap (·.steps corpus policy)) := by
  induction h with
  | here s => exact ⟨hs, nofun⟩
  | round hround _ ih =>
    obtain ⟨ht, hrest⟩ := ih (hs.round hround)
    rw [List.flatMap_cons]
    exact ⟨ht, BuildStep.spareSentinel_append hs.spare_steps hrest⟩

end

end FlattenState

/-! ## no write is refused -/

/-- on a new builder, operations that are not refused, that write no slot twice, none of a draft that is
not there yet, and none of the sentinel -/
structure BuildStep.WriteOnce (steps : List BuildStep) : Prop where
  accepted : ∃ b, Builder.initial.run steps = .ok b
  nodup : ((BuildStep.writes steps).map Prod.fst).Nodup
  allocated : ∀ before s after p v, steps = before ++ s :: after → s.write? = some (p, v) →
    p.1 < Builder.initial.size + BuildStep.allocations before
  spared : BuildStep.SpareSentinel steps

/-- the builder sees to it that the slots are different and there; arguments of the sentinel it does not
guard -/
theorem BuildStep.writeOnce_of_run {steps : List BuildStep} {b : Builder}
    (hb : Builder.initial.run steps = .ok b) (hspared : SpareSentinel steps) : WriteOnce steps where
  accepted := ⟨b, hb⟩
  nodup := (Builder.run_writes hb).2
  allocated before s after p v hsteps hs := by
    rw [hsteps] at hb
    exact Builder.run_write_lt hb hs
  spared := hspared

namespace Node

section
variable {corpus : Corpus} {policy : Policy} {levels : Nat} {n : Node} {trace : List FlattenState}
  {t : FlattenState}

theorem flattenFault?_eq_some {limit : Nat} {n : Node} {fault : FlattenFault}
    (h : n.flattenFault? corpus limit levels = some fault) :
    (∃ u, fault = .unknownKind u) ∨ fault = .depthExceeded limit := by
  induction levels generalizing n with
  | zero =>
    cases h
    exact .inr rfl
  | succ levels ih =>
    rw [flattenFault?] at h
    cases hs : corpus.shapeOf? n.kind with
    | none =>
      rw [hs] at h
      cases h
      exact .inl ⟨_, rfl⟩
    | some shape =>
      rw [hs] at h
      obtain ⟨p, _, hp⟩ := List.exists_of_findSome?_eq_some h
      exact ih hp

/-- the loop ends with the root at its address, or with a fault of the tree -/
theorem ends_flatten (corpus : Corpus) (policy : Policy) (n : Node) : ∃ out,
    Loop.Ends (flattenRound corpus policy) (.ok (.inl (.start n))) out ∧
      n.flatten corpus policy = out.map (fun r => (r.2.finish, r.1)) ∧
      ((∃ b, out = .ok (.root, b)) ∨ (∃ u, out = .error (.unknownKind u)) ∨
        out = .error (.depthExceeded policy.maxDepth)) := by
  have heq : n.flattenBelow corpus policy policy.maxDepth .nothing (fun _ b => .ok b) .initial = _ :=
    flattenBelow_eq _ _ n [.sentinel] [.sentinel] rfl fun _ => rfl
  refine ⟨_, ends_flattenBelow n, ?_, ?_⟩
  · rw [flatten]
    cases n.flattenBelow corpus policy policy.maxDepth .nothing (fun _ b => .ok b) .initial <;> rfl
  · rw [heq]
    cases hf : n.flattenFault? corpus policy.maxDepth policy.maxDepth with
    | none => exact .inl ⟨_, rfl⟩
    | some fault =>
      rcases flattenFault?_eq_some hf with ⟨u, rfl⟩ | rfl
      · exact .inr (.inl ⟨u, rfl⟩)
      · exact .inr (.inr rfl)

/-- no round is refused: the loop would end so -/
theorem flattenRound_ne_refused
    (h : Loop.Rounds (flattenRound corpus policy) (.start n) trace t) (refused : BuildFault) :
    flattenRound corpus policy t ≠ .error (.build refused) := by
  intro heq
  have hrefused : Loop.Ends (flattenRound corpus policy) (flattenRound corpus policy t)
      (.error (.build refused)) := by
    rw [heq]
    exact .fault _
  obtain ⟨out, hends, _, hout⟩ := ends_flatten corpus policy n
  obtain rfl := hends.unique (.next (h.ends hrefused))
  rcases hout with ⟨_, hout⟩ | ⟨_, hout⟩ | hout <;> cases hout

/-- the operations of the next round are not refused either -/
theorem run_of_rounds_next (h : Loop.Rounds (flattenRound corpus policy) (.start n) trace t) :
    ∃ b, Builder.initial.run ((trace ++ [t]).flatMap (·.steps corpus policy)) = .ok b := by
  have hnext : ∃ b, t.builder.run (t.steps corpus policy) = .ok b := by
    cases hround : flattenRound corpus policy t with
    | ok r => exact ⟨_, run_of_flattenRound hround⟩
    | error fault =>
      refine ⟨_, run_of_flattenRound_error hround fun refused hf => ?_⟩
      exact flattenRound_ne_refused h refused (hf ▸ hround)
  obtain ⟨b, hb⟩ := hnext
  refine ⟨b, ?_⟩
  rw [List.flatMap_append, List.flatMap_singleton, Builder.run_append]
  exact bind_eq_ok.mpr ⟨t.builder, run_of_rounds h, hb⟩

/-- **Flattening writes no slot twice**, none of a cell that is not there yet, and none of the sentinel,
whatever the tree, and ends with a heap, an unknown kind, or a tree that is too deep. The loop ends so;
and wherever it stands before that, its builder is what the operations of the rounds so far have made,
the next round is not refused, and with its operations too no slot is written twice. -/
theorem flatten_writes_once {corpus : Corpus} {policy : Policy} {n : Node} :
    (∃ out, Loop.Ends (flattenRound corpus policy) (.ok (.inl (.start n))) out ∧
      n.flatten corpus policy = out.map (fun r => (r.2.finish, r.1)) ∧
      ((∃ b, out = .ok (.root, b)) ∨ (∃ u, out = .error (.unknownKind u)) ∨
        out = .error (.depthExceeded policy.maxDepth))) ∧
    ∀ trace t, Loop.Rounds (flattenRound corpus policy) (.start n) trace t →
      Builder.initial.run (trace.flatMap (·.steps corpus policy)) = .ok t.builder ∧
      (∀ refused, flattenRound corpus policy t ≠ .error (.build refused)) ∧
      BuildStep.WriteOnce ((trace ++ [t]).flatMap (·.steps corpus policy)) := by
  refine ⟨ends_flatten corpus policy n, fun trace t h => ?_⟩
  obtain ⟨b, hb⟩ := run_of_rounds_next h
  obtain ⟨ht, htrace⟩ := (FlattenState.real_start n).rounds h
  refine ⟨run_of_rounds h, flattenRound_ne_refused h, BuildStep.writeOnce_of_run hb ?_⟩
  rw [List.flatMap_append, List.flatMap_singleton]
  exact BuildStep.spareSentinel_append htrace ht.spare_steps

end

end Node

namespace Sample

/-- a sequence of a sequence and a node of no kind -/
def strayed : Node :=
  ((Node.ofKind "sequence").withStatement (.ofKind "sequence")).withStatement (.ofKind "teleport")

/-- before the second statement is met, the first is linked to and closed -/
theorem strayed_writes_once : ∃ trace t,
    Loop.Rounds (Node.flattenRound nestingCorpus .default) (.start strayed) trace t ∧
      Node.flattenRound nestingCorpus .default t = .error (.unknownKind ⟨"teleport"⟩) ∧
      (BuildStep.writes ((trace ++ [t]).flatMap (·.steps nestingCorpus .default))).map Prod.fst =
        [(1, .link .parent), (2, .link .parent), (1, .link .body), (2, .link .body)] ∧
      BuildStep.WriteOnce ((trace ++ [t]).flatMap (·.steps nestingCorpus .default)) :=
  ⟨_, _, .round rfl (.round rfl (.round rfl (.here _))), rfl, rfl,
    (Node.flatten_writes_once.2 _ _ (.round rfl (.round rfl (.round rfl (.here _))))).2.2⟩

end Sample

end ScriptHeap
