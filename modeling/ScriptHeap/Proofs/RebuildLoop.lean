import ScriptHeap.Proofs.Loop
import ScriptHeap.Proofs.Rebuilt
/-!
# The reading as a loop

* `Pending`            a cell that is still to be read, and where its node goes;
* `OpenedCell.bare`, `OpenedCell.pending`   a node with the scalars only, and what it still lacks;
* `OpenedCell.foldlM_pending`   what is lacking, read and attached one after the other, gives the node
                       that is read at once;
* `Frame`, `Heap.readRound`   a node under construction, and a round: one more cell is opened, or a node
                       is attached to the one above;
* `Heap.ends_rebuildBelow`   the loop ends as the reading does, on any heap.
-/

namespace ScriptHeap

/-! ## the order of insertion -/

/-- an entry may be put in before or after entries of other names -/
theorem Entries.insert_foldl_insert {α : Type} {name : String} {v : α} {l : List (String × α)}
    {m : Entries α} (hm : Sorted m) (hl : (l.map Prod.fst).Nodup) (hname : name ∉ l.map Prod.fst) :
    insert name v (l.foldl (fun acc e => insert e.1 e.2 acc) m)
      = l.foldl (fun acc e => insert e.1 e.2 acc) (insert name v m) := by
  refine ext_find? (sorted_insert _ _ (foldl_insert_sorted _ _ hm))
    (foldl_insert_sorted _ _ (sorted_insert _ _ hm)) fun other => ?_
  rw [find?_foldl_insert hl]
  by_cases hother : other = name
  · subst hother
    rw [find?_insert_self, find?_insert_self, find?_eq_none_iff_not_mem.mpr hname]
    rfl
  · rw [find?_insert_of_ne hother, find?_insert_of_ne hother, find?_foldl_insert hl]

/-! ## what a node lacks -/

/-- a cell to read; its node is an argument of this name, or a statement -/
structure Pending where
  target : Target
  arg? : Option String

/-- the node with one more node below: the argument of a name, or the last statement -/
def Node.attach (n child : Node) : Option String → Node
  | some name => n.withArg name (.nested child)
  | none => n.withStatement child

/-- a node below is read and attached -/
def Pending.read (f : Target → Except RebuildFault Node) (n : Node) (p : Pending) :
    Except RebuildFault Node :=
  (f p.target).map fun child => n.attach child p.arg?

namespace OpenedCell

/-- the scalars among arguments -/
def scalars (args : List (String × Arg Target)) : List (String × Arg Node) :=
  args.filterMap fun e => match e.2 with
    | .scalar s => some (e.1, .scalar s)
    | .nested _ => none

/-- the node with its scalars -/
def bare (o : OpenedCell) : Node := ⟨o.kind.name, Entries.ofList (scalars o.args), []⟩

def argsPending (args : List (String × Arg Target)) : List Pending :=
  (Entries.nested args).map fun e => ⟨e.2, some e.1⟩

/-- node arguments as they are declared, then statements -/
def pending (o : OpenedCell) : List Pending :=
  argsPending o.args ++ o.statements.map fun t => ⟨t, none⟩

section
variable {f : Target → Except RebuildFault Node} {kind : String} {m : Entries (Arg Node)}
  {body : List Node}

theorem names_scalars (args : List (String × Arg Target)) :
    ((scalars args).map Prod.fst).Sublist (args.map Prod.fst) := by
  refine sublist_map_filterMap (fun e y hy => ?_) args
  obtain ⟨name, s | t⟩ := e
  · cases hy
    rfl
  · cases hy

/-- scalars first and nested nodes later, or all arguments as they are declared -/
theorem foldlM_argsPending {args : List (String × Arg Target)} (hn : (args.map Prod.fst).Nodup)
    (hm : Entries.Sorted m) :
    (argsPending args).foldlM (Pending.read f)
        ⟨kind, (scalars args).foldl (fun acc e => Entries.insert e.1 e.2 acc) m, body⟩
      = (args.mapM (Heap.readArg f)).map fun es =>
        ⟨kind, es.foldl (fun acc e => Entries.insert e.1 e.2 acc) m, body⟩ := by
  induction args generalizing m with
  | nil => rfl
  | cons e args ih =>
    obtain ⟨name, value⟩ := e
    rw [List.map_cons, List.nodup_cons] at hn
    rw [map_mapM_cons]
    cases value with
    | scalar s => exact ih hn.2 (Entries.sorted_insert name (.scalar s) hm)
    | nested t =>
      show ((f t).map _ >>= fun n => (argsPending args).foldlM (Pending.read f) n)
        = (f t).map _ >>= fun e => _
      cases f t with
      | error fault => rfl
      | ok child =>
        have hscalars := names_scalars args
        show (argsPending args).foldlM (Pending.read f)
          ⟨kind, Entries.insert name (.nested child) ((scalars args).foldl _ m), body⟩ = _
        rw [Entries.insert_foldl_insert hm (hn.2.sublist hscalars) fun h => hn.1 (hscalars.subset h)]
        exact ih hn.2 (Entries.sorted_insert name (.nested child) hm)

theorem foldlM_statements (ts : List Target) :
    (ts.map fun t => (⟨t, none⟩ : Pending)).foldlM (Pending.read f) ⟨kind, m, body⟩
      = (ts.mapM f).map fun cs => ⟨kind, m, body ++ cs⟩ := by
  induction ts generalizing body with
  | nil =>
    show Except.ok (Node.mk kind m body) = .ok ⟨kind, m, body ++ []⟩
    rw [List.append_nil]
  | cons t ts ih =>
    rw [map_mapM_cons]
    show ((f t).map _ >>= fun n => (ts.map _).foldlM (Pending.read f) n) = f t >>= fun c => _
    cases f t with
    | error fault => rfl
    | ok c =>
      show (ts.map _).foldlM (Pending.read f) ⟨kind, m, body ++ [c]⟩
        = (ts.mapM f).map fun cs => ⟨kind, m, body ++ ([c] ++ cs)⟩
      rw [ih]
      simp only [List.append_assoc]

/-- what a node lacks, read and attached one after the other, or read at once -/
theorem foldlM_pending {o : OpenedCell} (hn : (o.args.map Prod.fst).Nodup) :
    o.pending.foldlM (Pending.read f) o.bare = o.args.mapM (Heap.readArg f) >>= fun args =>
      o.statements.mapM f >>= fun body => .ok ⟨o.kind.name, Entries.ofList args, body⟩ := by
  rw [pending, List.foldlM_append, bare, Entries.ofList, foldlM_argsPending hn Entries.sorted_nil,
    bind_of_map]
  refine bind_congr fun args => ?_
  rw [foldlM_statements]
  cases o.statements.mapM f <;> rfl

end

end OpenedCell

/-! ## rounds -/

/-- a node under construction: its depth, where it goes when it is done, and what it still lacks -/
structure Frame where
  node : Node
  depth : Nat
  arg? : Option String
  pending : List Pending

/-- the innermost node under construction, and those above it, nearest first -/
structure ReadState where
  current : Frame
  parents : List Frame

namespace Heap

/-- a cell is opened at a depth within the limit -/
def openFrame (h : Heap) (corpus : Corpus) (limit : Nat) (a : Address) (arg? : Option String)
    (allowed : Option (List Kind)) (depth : Nat) : Except RebuildFault Frame :=
  if limit < depth then .error (.depthExceeded limit)
  else ((h.openCell corpus allowed a).mapError .corrupt).map fun o => ⟨o.bare, depth, arg?, o.pending⟩

/-- the next cell that the node lacks is opened; where it lacks none, the node is attached -/
def readRound (h : Heap) (corpus : Corpus) (limit : Nat) :
    ReadState → Except RebuildFault (ReadState ⊕ Node)
  | ⟨⟨node, depth, arg?, p :: rest⟩, parents⟩ =>
    (h.openFrame corpus limit p.target.address p.arg? (some p.target.allowed) (depth + 1)).map
      fun frame => .inl ⟨frame, ⟨node, depth, arg?, rest⟩ :: parents⟩
  | ⟨⟨node, _, arg?, []⟩, parent :: parents⟩ =>
    .ok (.inl ⟨{ parent with node := parent.node.attach node arg? }, parents⟩)
  | ⟨⟨node, _, _, []⟩, []⟩ => .ok (.inr node)

/-- the root is opened -/
def readStart (h : Heap) (corpus : Corpus) (limit : Nat) (root : Address) :
    Except RebuildFault (ReadState ⊕ Node) :=
  (h.openFrame corpus limit root none none 1).map fun frame => .inl ⟨frame, []⟩

section
variable {h : Heap} {corpus : Corpus} {limit levels depth : Nat} {allowed : Option (List Kind)}
  {a : Address} {arg? : Option String} {parents : List Frame}

theorem openFrame_of_le (hdepth : depth ≤ limit) :
    h.openFrame corpus limit a arg? allowed depth
      = ((h.openCell corpus allowed a).mapError .corrupt).map fun o =>
        ⟨o.bare, depth, arg?, o.pending⟩ := if_neg (Nat.not_lt.mpr hdepth)

theorem openFrame_of_lt (hdepth : limit < depth) :
    h.openFrame corpus limit a arg? allowed depth = .error (.depthExceeded limit) := if_pos hdepth

/-- arguments are opened under the names that the kind declares -/
theorem names_of_openArgs {c : Cell} {specs : List ArgSpec} {args : List (String × Arg Target)}
    (h : openArgs c specs = .ok args) : args.map Prod.fst = specs.map (·.name) := by
  induction specs generalizing args with
  | nil =>
    cases h
    rfl
  | cons spec specs ih =>
    obtain ⟨v, rest, _, hrest, rfl⟩ := openArgs_cons_eq_ok.mp h
    rw [List.map_cons, List.map_cons, ih hrest]

theorem names_nodup_of_openCell {o : OpenedCell} (ho : h.openCell corpus allowed a = .ok o) :
    (o.args.map Prod.fst).Nodup := by
  obtain ⟨c, shape, _, hs, _, _, args, _, hargs, _, rfl⟩ := openCell_eq_ok.mp ho
  rw [show OpenedCell.args _ = args from rfl, names_of_openArgs hargs]
  exact Corpus.args_nodup hs

/-- one level of the reading: the cell is opened, and what its node lacks is read in order -/
theorem rebuildBelow_of_openCell {o : OpenedCell} (ho : h.openCell corpus allowed a = .ok o) :
    h.rebuildBelow corpus limit (levels + 1) allowed a = o.pending.foldlM (Pending.read fun t =>
      h.rebuildBelow corpus limit levels (some t.allowed) t.address) o.bare := by
  rw [rebuildBelow_succ_eq, ho, OpenedCell.foldlM_pending (names_nodup_of_openCell ho)]
  rfl

theorem rebuildBelow_of_openCell_error {fault : Corruption}
    (ho : h.openCell corpus allowed a = .error fault) :
    h.rebuildBelow corpus limit (levels + 1) allowed a = .error (.corrupt fault) := by
  rw [rebuildBelow_succ_eq, ho]
  rfl

/-- if the loop ends somehow once a node lacks nothing, it first reads what the node lacks; the levels
that are left are those that the depth has not used -/
theorem ends_pending (hdepth : depth + levels = limit) {K : Node → Except RebuildFault Node}
    (hK : ∀ n, Loop.Ends (h.readRound corpus limit) (.ok (.inl ⟨⟨n, depth, arg?, []⟩, parents⟩)) (K n))
    (n : Node) (pending : List Pending) :
    Loop.Ends (h.readRound corpus limit) (.ok (.inl ⟨⟨n, depth, arg?, pending⟩, parents⟩))
      (pending.foldlM (Pending.read fun t =>
        h.rebuildBelow corpus limit levels (some t.allowed) t.address) n >>= K) := by
  induction levels generalizing depth arg? parents K n pending with
  | zero =>
    cases pending with
    | nil => exact hK n
    | cons p rest =>
      refine .next ?_
      rw [readRound, openFrame_of_lt (by omega)]
      exact .fault _
  | succ levels ih =>
    induction pending generalizing n with
    | nil => exact hK n
    | cons p rest ihrest =>
      have hbelow : depth + 1 + levels = limit := by omega
      refine .next ?_
      rw [readRound, openFrame_of_le (Nat.le.intro hbelow), List.foldlM_cons, bind_assoc, Pending.read]
      cases ho : h.openCell corpus (some p.target.allowed) p.target.address with
      | error fault =>
        rw [rebuildBelow_of_openCell_error ho]
        exact .fault _
      | ok o =>
        rw [rebuildBelow_of_openCell ho]
        have hattached : ∀ child, Loop.Ends (h.readRound corpus limit)
            (.ok (.inl ⟨⟨child, depth + 1, p.arg?, []⟩, ⟨n, depth, arg?, rest⟩ :: parents⟩)) _ :=
          fun child => .next (ihrest (n.attach child p.arg?))
        rw [bind_of_map]
        exact ih hbelow hattached o.bare o.pending

/-- the loop ends, and as the reading does -/
theorem ends_rebuildBelow (hlimit : 0 < limit) (root : Address) :
    Loop.Ends (h.readRound corpus limit) (h.readStart corpus limit root)
      (h.rebuildBelow corpus limit limit none root) := by
  obtain ⟨levels, rfl⟩ : ∃ levels, limit = levels + 1 :=
    Nat.exists_eq_succ_of_ne_zero (Nat.ne_of_gt hlimit)
  rw [readStart, openFrame_of_le hlimit]
  cases ho : h.openCell corpus none root with
  | error fault =>
    rw [rebuildBelow_of_openCell_error ho]
    exact .fault _
  | ok o =>
    have hdone : ∀ n, Loop.Ends (h.readRound corpus (levels + 1)) (.ok (.inl ⟨⟨n, 1, none, []⟩, []⟩))
        (pure n) := fun n => .next (.result n)
    have hread := ends_pending (Nat.add_comm 1 levels) hdone o.bare o.pending
    rw [bind_pure] at hread
    rw [rebuildBelow_of_openCell ho]
    exact hread

end

end Heap

end ScriptHeap
