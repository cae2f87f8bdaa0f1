import ScriptHeap.Proofs.Loop
import ScriptHeap.Proofs.VisitOrder
import ScriptHeap.Corpus.BuiltIn
import ScriptHeap.Sample
/-!
# The check as a loop

* `Node.CheckState`    a path and the nodes that are left at every node along it;
* `Node.checkRound`    a round: one more node is entered, or the last node of the path is left;
* `Node.ends_pending`  the loop checks what is left below a path, then goes on above;
* `Node.check_visits_in_order`   the loop, the check of a tree and the check of its nodes in pre-order
                       are one; what it finds is true of the first node that has a fault.

The path is kept by the rounds: it grows when a node is entered and shrinks when nothing is left below.
-/

namespace ScriptHeap

namespace Node

/-! ## rounds -/

/-- the path to a node, the nodes below that are left, and those left at the nodes above, nearest first -/
structure CheckState where
  path : NodePath
  pending : List Visit
  parents : List (List Visit)

/-- the next node below is entered; where none is left, the last node of the path is left -/
def checkRound (corpus : Corpus) (limit : Nat) : CheckState → Except CheckFault (CheckState ⊕ Unit)
  | ⟨path, v :: rest, parents⟩ =>
    (Stop.enter corpus limit ⟨path ++ [v.step], some v.allowed, v.node⟩).map fun visits =>
      .inl ⟨path ++ [v.step], visits, rest :: parents⟩
  | ⟨path, [], parent :: parents⟩ => .ok (.inl ⟨path.dropLast, parent, parents⟩)
  | ⟨_, [], []⟩ => .ok (.inr ())

/-- the root is entered -/
def checkStart (corpus : Corpus) (limit : Nat) (n : Node) : Except CheckFault (CheckState ⊕ Unit) :=
  (Stop.enter corpus limit ⟨[⟨.root, n.kind⟩], none, n⟩).map fun visits =>
    .inl ⟨[⟨.root, n.kind⟩], visits, []⟩

section
variable {corpus : Corpus} {limit levels : Nat} {path : NodePath} {parents : List (List Visit)}
  {out : Except CheckFault Unit}

/-- if the loop ends somehow once nothing is left below a path, it first checks what is left there; the
levels that are left are those that the path has not used -/
theorem ends_pending (pending : List Visit) (h : path.length + levels = limit)
    (hout : Loop.Ends (checkRound corpus limit) (.ok (.inl ⟨path, [], parents⟩)) out) :
    Loop.Ends (checkRound corpus limit) (.ok (.inl ⟨path, pending, parents⟩))
      ((pending.forM fun v =>
        checkBelow corpus limit levels (v.step :: path.reverse) (some v.allowed) v.node) >>=
          fun _ => out) := by
  induction levels generalizing path pending parents out with
  | zero =>
    cases pending with
    | nil => exact hout
    | cons v rest =>
      have hdepth : limit < (path ++ [v.step]).length := by
        rw [List.length_append, List.length_singleton]
        omega
      refine .next ?_
      rw [checkRound, Stop.enter_of_lt hdepth]
      exact .fault _
  | succ levels ih =>
    induction pending with
    | nil => exact hout
    | cons v rest ihrest =>
      have hdepth : (path ++ [v.step]).length + levels = limit := by
        rw [List.length_append, List.length_singleton]
        omega
      refine .next ?_
      rw [checkRound, Stop.enter_of_le (Nat.le.intro hdepth)]
      show Loop.Ends _ _ ((checkBelow corpus limit (levels + 1) (v.step :: path.reverse) _ v.node >>=
        fun _ => rest.forM _) >>= fun _ => out)
      rw [bind_assoc, checkBelow, ← List.reverse_concat, List.reverse_reverse]
      cases v.node.checkAlone corpus (some v.allowed) with
      | error fault => exact .fault _
      | ok visits =>
        refine ih visits hdepth (.next ?_)
        -- the path is as it was before the node, and the rest of the nodes is left
        rw [checkRound, List.dropLast_concat]
        exact ihrest

/-- the loop ends, and as the check of the tree does -/
theorem ends_checkBelow (hlimit : 0 < limit) (n : Node) :
    Loop.Ends (checkRound corpus limit) (n.checkStart corpus limit)
      (checkBelow corpus limit limit [⟨.root, n.kind⟩] none n) := by
  obtain ⟨levels, rfl⟩ : ∃ levels, limit = levels + 1 :=
    Nat.exists_eq_succ_of_ne_zero (Nat.ne_of_gt hlimit)
  rw [checkStart, Stop.enter_of_le hlimit, checkBelow]
  cases n.checkAlone corpus none with
  | error fault => exact .fault _
  | ok visits =>
    have hempty : Loop.Ends (checkRound corpus (levels + 1)) (.ok (.inl ⟨[⟨.root, n.kind⟩], [], []⟩))
        (pure ()) := .next (.result ())
    have hvisits := ends_pending visits (Nat.add_comm 1 levels) hempty
    rw [bind_pure_unit] at hvisits
    exact hvisits

/-- **the loop ends, and as the check of the nodes in pre-order does; a tree is accepted if all its
nodes pass, and a fault is true of the first node that does not pass, at the end of its path** -/
theorem check_visits_in_order (corpus : Corpus) (policy : Policy) (n : Node) :
    (∀ out, Loop.Ends (checkRound corpus policy.maxDepth) (n.checkStart corpus policy.maxDepth) out ↔
      out = n.check corpus policy) ∧
    n.check corpus policy = (n.stops corpus).forM (Stop.check corpus policy.maxDepth) ∧
    (n.check corpus policy = .ok () ↔ ∀ path allowed m, n.Leads corpus path allowed m →
      Stop.Passes corpus policy.maxDepth ⟨path, allowed, m⟩) ∧
    ∀ path fault, n.check corpus policy = .error (.node path fault) →
      ∃ before allowed m after, n.stops corpus = before ++ ⟨path, allowed, m⟩ :: after ∧
        n.Leads corpus path allowed m ∧ m.HasFault corpus allowed fault ∧
        ∀ s ∈ before, s.Passes corpus policy.maxDepth := by
  refine ⟨fun out => (ends_checkBelow policy.maxDepth_pos n).iff, check_eq_forM, check_eq_ok_iff_leads, fun path fault h => ?_⟩
  rw [check_eq_forM] at h
  obtain ⟨before, s, after, hstops, hbefore, hs⟩ := forM_eq_error_iff.mp h
  obtain ⟨rfl, hfault⟩ := Stop.check_eq_error hs
  have hmem : s ∈ n.stops corpus := by
    rw [hstops]
    exact List.mem_append_right _ List.mem_cons_self
  exact ⟨before, s.allowed, s.node, after, hstops, leads_of_mem_stops hmem, hfault,
    fun t ht => Stop.check_eq_ok.mp (hbefore t ht)⟩

end

end Node

namespace Sample

/-- a program whose second statement is a conditional with a photo as a branch -/
def misplaced : Node :=
  let test := int (str (str (.ofKind "_if") "lhs" "x") "op" "is") "rhs" 0
  let branches := sub (sub test "_then" (.ofKind "take_photo")) "_else" (.ofKind "nothing")
  (sub (int (.ofKind "sequence") "version" 1) "locals" (.ofKind "scope_declaration"))
    |>.withStatement (.ofKind "take_photo")
    |>.withStatement branches

def misplacedPath : NodePath :=
  [⟨.root, "sequence"⟩, ⟨.body 1, "_if"⟩, ⟨.arg "_then", "take_photo"⟩]

/-- the branch is found, and all nodes before it pass -/
theorem misplaced_fault_found :
    misplaced.check Corpus.builtIn .default = .error (.node misplacedPath
      (.invalid (.disallowedKind "take_photo" [.execute, .nothing]))) ∧
    ∃ before allowed m after, misplaced.stops Corpus.builtIn
        = before ++ ⟨misplacedPath, allowed, m⟩ :: after ∧
      misplaced.Leads Corpus.builtIn misplacedPath allowed m ∧
      m.HasFault Corpus.builtIn allowed (.invalid (.disallowedKind "take_photo" [.execute, .nothing])) ∧
      ∀ s ∈ before, s.Passes Corpus.builtIn Policy.default.maxDepth := by
  have hcheck : misplaced.check Corpus.builtIn .default = .error (.node misplacedPath
      (.invalid (.disallowedKind "take_photo" [.execute, .nothing]))) := by decide +kernel
  exact ⟨hcheck, (Node.check_visits_in_order Corpus.builtIn .default misplaced).2.2.2 _ _ hcheck⟩

end Sample

end ScriptHeap
