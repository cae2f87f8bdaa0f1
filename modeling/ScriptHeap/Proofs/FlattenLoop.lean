import ScriptHeap.Proofs.Flattening
import ScriptHeap.Proofs.Loop
/-!
# The flattening as a loop

* `FlattenFrame`, `FlattenState`   a cell whose parts are being added, and the cells that are open
                       around it;
* `Node.openFrame`     a node gets its cell, unless it lies too deep or has no shape;
* `Node.flattenRound`  a round: one more cell is opened and linked to at once, or a cell is closed;
* `Node.ends_fill`     the loop adds the parts that a cell lacks, then goes on above;
* `Node.ends_flattenBelow`   the loop ends as the flattening does, on any tree.
-/

namespace ScriptHeap

/-- an open cell with its depth, whether it is a block, and the parts that are still to be added -/
structure FlattenFrame where
  cell : OpenCell
  depth : Nat
  isBlock : Bool
  parts : List (Place × Node)

/-- where the loop stands: no cell is there yet, or some are open, the innermost and those above it,
nearest first -/
inductive FlattenState where
  | start (root : Node)
  | within (current : FlattenFrame) (parents : List FlattenFrame) (b : Builder)

namespace FlattenState

def builder : FlattenState → Builder
  | start _ => .initial
  | within _ _ b => b

/-- a cell is closed: the one above it is the innermost now, or the root is done -/
def leave (a : Address) (parents : List FlattenFrame) (b : Builder) :
    FlattenState ⊕ (Address × Builder) :=
  match parents with
  | parent :: parents => .inl (within parent parents b)
  | [] => .inr (a, b)

end FlattenState

namespace Node

/-! ## rounds -/

/-- the shape that a node is to get a cell by, at a depth within the limit -/
def openShape (corpus : Corpus) (policy : Policy) (depth : Nat) (n : Node) :
    Except FlattenFault KindShape :=
  if policy.maxDepth < depth then .error (.depthExceeded policy.maxDepth)
  else (corpus.shapeOf n.kind).mapError .unknownKind

/-- the cell of a node, none of its parts being there -/
def openFrame (corpus : Corpus) (policy : Policy) (depth : Nat) (parent : Address) (n : Node)
    (b : Builder) : Except FlattenFault (FlattenFrame × Builder) := do
  let shape ← n.openShape corpus policy depth
  let (a, b) ← (n.allocate shape parent b).mapError .build
  return (⟨⟨a, none⟩, depth, shape.isBlock, n.parts shape⟩, b)

/-- the next part of the innermost cell is opened and linked to; where none is left, the cell is
closed -/
def flattenRound (corpus : Corpus) (policy : Policy) :
    FlattenState → Except FlattenFault (FlattenState ⊕ (Address × Builder))
  | .start root => do
    let (frame, b) ← root.openFrame corpus policy 1 .nothing .initial
    return .inl (.within frame [] b)
  | .within ⟨o, depth, isBlock, (place, c) :: rest⟩ parents b => do
    let (frame, b) ← c.openFrame corpus policy (depth + 1) (o.parentOf policy.linkage place) b
    let child := frame.cell.address
    let b ← (o.link place child b).mapError .build
    return .inl (.within frame (⟨o.after place child, depth, isBlock, rest⟩ :: parents) b)
  | .within ⟨o, _, isBlock, []⟩ parents b => do
    let b ← (o.close b isBlock).mapError .build
    return FlattenState.leave o.address parents b

section
variable {corpus : Corpus} {policy : Policy} {levels depth : Nat} {n : Node} {parent : Address}
  {frame : FlattenFrame} {parents : List FlattenFrame} {b b' : Builder}

theorem openShape_of_le (hdepth : depth ≤ policy.maxDepth) :
    n.openShape corpus policy depth = (corpus.shapeOf n.kind).mapError .unknownKind :=
  if_neg (Nat.not_lt.mpr hdepth)

theorem openFrame_of_lt (hdepth : policy.maxDepth < depth) :
    n.openFrame corpus policy depth parent b = .error (.depthExceeded policy.maxDepth) := by
  rw [openFrame, openShape, if_pos hdepth]
  rfl

/-- what the cell of a node is opened with -/
theorem openFrame_eq_ok (h : n.openFrame corpus policy depth parent b = .ok (frame, b')) :
    ∃ shape a, n.openShape corpus policy depth = .ok shape ∧
      n.allocate shape parent b = .ok (a, b') ∧
      frame = ⟨⟨a, none⟩, depth, shape.isBlock, n.parts shape⟩ := by
  obtain ⟨shape, hshape, h⟩ := bind_eq_ok.mp h
  obtain ⟨⟨a, b₁⟩, ha, h⟩ := bind_eq_ok.mp h
  cases h
  exact ⟨shape, a, hshape, (mapError_eq_ok _).mp ha, rfl⟩

/-! ## the loop and the recursion -/

/-- within the limit a node is flattened in three steps: its cell is opened, it is linked to, and its
parts are added -/
theorem flattenBelow_of_le (hdepth : depth ≤ policy.maxDepth)
    {link : Address → Builder → Except BuildFault Builder} :
    n.flattenBelow corpus policy (levels + 1) parent link b
      = n.openFrame corpus policy depth parent b >>= fun r =>
        (link r.1.cell.address r.2).mapError .build >>= fun b =>
        fill corpus policy levels r.1.isBlock r.1.parts (r.1.cell, b) >>= fun b =>
        .ok (r.1.cell.address, b) := by
  rw [flattenBelow_succ, openFrame, openShape_of_le hdepth, bind_assoc]
  refine bind_congr fun shape => ?_
  rw [bind_assoc]
  rfl

/-- a cell that lacks nothing is closed -/
theorem ends_fill_nil {o : OpenCell} {isBlock : Bool}
    {K : Builder → Except FlattenFault (Address × Builder)}
    (hK : ∀ b, Loop.Ends (flattenRound corpus policy)
      (.ok (FlattenState.leave o.address parents b)) (K b)) (b : Builder) :
    Loop.Ends (flattenRound corpus policy) (.ok (.inl (.within ⟨o, depth, isBlock, []⟩ parents b)))
      (fill corpus policy levels isBlock [] (o, b) >>= K) := by
  refine .next ?_
  show Loop.Ends _ _ ((o.close b isBlock).mapError FlattenFault.build >>= K)
  rw [flattenRound]
  cases o.close b isBlock with
  | error fault => exact .fault _
  | ok b' => exact hK b'

/-- if the loop ends somehow once a cell is closed, it first adds the parts that the cell lacks; the
levels that are left are those that the depth has not used -/
theorem ends_fill (hdepth : depth + levels = policy.maxDepth) {o : OpenCell} {isBlock : Bool}
    {K : Builder → Except FlattenFault (Address × Builder)}
    (hK : ∀ b, Loop.Ends (flattenRound corpus policy)
      (.ok (FlattenState.leave o.address parents b)) (K b))
    (ps : List (Place × Node)) (b : Builder) :
    Loop.Ends (flattenRound corpus policy) (.ok (.inl (.within ⟨o, depth, isBlock, ps⟩ parents b)))
      (fill corpus policy levels isBlock ps (o, b) >>= K) := by
  -- outer induction on the levels below the cell, inner induction on the parts that are left
  induction levels generalizing depth o isBlock parents K ps b with
  | zero =>
    cases ps with
    | nil => exact ends_fill_nil hK b
    | cons p rest =>
      refine .next ?_
      rw [flattenRound, openFrame_of_lt (by omega), fill_cons]
      exact .fault _
  | succ levels ih =>
    induction ps generalizing o b with
    | nil => exact ends_fill_nil hK b
    | cons p rest ihrest =>
      obtain ⟨place, c⟩ := p
      have hbelow : depth + 1 + levels = policy.maxDepth := by omega
      refine .next ?_
      rw [flattenRound, fill_cons, flattenBelow_of_le (Nat.le.intro hbelow)]
      cases hopen : c.openFrame corpus policy (depth + 1) (o.parentOf policy.linkage place) b with
      | error fault => exact .fault _
      | ok r =>
        obtain ⟨frame, b₁⟩ := r
        obtain ⟨shape, a, _, _, rfl⟩ := openFrame_eq_ok hopen
        show Loop.Ends _ ((o.link place a b₁).mapError FlattenFault.build >>= _)
          (((o.link place a b₁).mapError FlattenFault.build >>= _) >>= _ >>= K)
        cases o.link place a b₁ with
        | error fault => exact .fault _
        | ok b₂ =>
          -- once the part is closed, the loop adds the other parts
          have hclosed : ∀ b, Loop.Ends (flattenRound corpus policy)
              (.ok (FlattenState.leave a (⟨o.after place a, depth, isBlock, rest⟩ :: parents) b))
              (fill corpus policy (levels + 1) isBlock rest (o.after place a, b) >>= K) :=
            fun b => ihrest (o := o.after place a) hK b
          show Loop.Ends _ (.ok (.inl _))
            ((fill corpus policy levels shape.isBlock (c.parts shape) (⟨a, none⟩, b₂) >>= fun b =>
              .ok (a, b)) >>= _ >>= K)
          rw [bind_assoc, bind_assoc]
          exact ih hbelow (o := ⟨a, none⟩) hclosed (c.parts shape) b₂

/-- **The loop ends, and as the flattening does** -/
theorem ends_flattenBelow (root : Node) :
    Loop.Ends (flattenRound corpus policy) (.ok (.inl (.start root)))
      (root.flattenBelow corpus policy policy.maxDepth .nothing (fun _ b => .ok b) .initial) := by
  obtain ⟨levels, hlevels⟩ : ∃ levels, policy.maxDepth = levels + 1 :=
    Nat.exists_eq_succ_of_ne_zero (Nat.ne_of_gt policy.maxDepth_pos)
  refine .next ?_
  rw [hlevels, flattenRound, flattenBelow_of_le policy.maxDepth_pos]
  cases hopen : root.openFrame corpus policy 1 .nothing .initial with
  | error fault => exact .fault _
  | ok r =>
    obtain ⟨frame, b⟩ := r
    obtain ⟨shape, a, _, _, rfl⟩ := openFrame_eq_ok hopen
    have hclosed : ∀ b, Loop.Ends (flattenRound corpus policy)
        (.ok (FlattenState.leave a [] b)) (.ok (a, b)) := fun b => .result (a, b)
    exact ends_fill ((Nat.add_comm 1 levels).trans hlevels.symm) hclosed (root.parts shape) b

end

end Node

end ScriptHeap
