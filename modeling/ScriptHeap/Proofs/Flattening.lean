import ScriptHeap.Proofs.Outcome
import ScriptHeap.Proofs.Seat
/-!
# What flattening does

* `Node.flattenFault?` the first node, in the order of visits, that has no shape or lies too deep;
* `OpenCell.filled`    the drafts once all parts of an open cell are there;
* `Node.fill_eq`       adding them fails with the first fault below one of them, or gives these drafts;
* `Node.flattenBelow_eq`   flattening fails with that fault, or appends the drafts of the seats;
* `Node.flatten_eq`    the heap of a tree: the sentinel, then the cells of all seats.

In particular the builder never refuses a write.
-/

namespace ScriptHeap

/-! ## builders as lists of drafts -/

namespace Builder

/-- the builder with these drafts -/
def ofDrafts (l : List Draft) : Builder := ⟨l.toArray⟩

section
variable {l : List Draft} {a : Address} {d : Draft}

theorem write_ofDrafts {slot : Slot} {written : Draft → Bool} {f : Draft → Draft}
    (hd : l[a]? = some d) (hw : written d = false) :
    (ofDrafts l).write a slot written f = .ok (ofDrafts (l.modify a f)) := by
  obtain ⟨ha, hget⟩ := List.getElem?_eq_some_iff.mp hd
  have hsize : a < (ofDrafts l).drafts.size := ha
  have hdraft : (ofDrafts l).drafts[a] = d := hget
  have hset : l.set a (f d) = l.modify a f := by
    rw [List.modify_eq_take_cons_drop ha, List.set_eq_take_append_cons_drop, if_pos ha, hget]
  rw [write, dif_pos hsize, hdraft, hw, if_neg Bool.false_ne_true, ← hset]
  simp [ofDrafts]

theorem setLink_ofDrafts {field : LinkField} {value : Address} (hd : l[a]? = some d)
    (hf : d.link? field = none) :
    (ofDrafts l).setLink field a value = .ok (ofDrafts (l.modify a (·.withLink value field))) :=
  write_ofDrafts hd (by rw [hf]; rfl)

theorem setArg_ofDrafts {name : String} {value : Arg Address} (hd : l[a]? = some d)
    (hf : d.args.find? name = none) :
    (ofDrafts l).setArg a name value = .ok (ofDrafts (l.modify a (·.withArg name value))) :=
  write_ofDrafts hd (by rw [hf]; rfl)

theorem allocate_ofDrafts (l : List Draft) (kind : Kind) :
    (ofDrafts l).allocate kind = (l.length, ofDrafts (l ++ [.ofKind kind])) := by
  simp [allocate, ofDrafts, size]

theorem finish_ofDrafts (l : List Draft) : (ofDrafts l).finish = ⟨(l.map Draft.toCell).toArray⟩ := by
  simp [finish, ofDrafts]

end

end Builder

/-! ## a list with an element changed -/

section
variable {l m : List Draft} {a : Nat} {f : Draft → Draft}

theorem modify_append_left (ha : a < l.length) : (l ++ m).modify a f = l.modify a f ++ m := by
  induction l generalizing a with
  | nil => cases ha
  | cons d l ih =>
    cases a with
    | zero => rfl
    | succ a =>
      rw [List.cons_append, List.modify_succ_cons, List.modify_succ_cons, List.cons_append,
        ih (Nat.lt_of_succ_lt_succ ha)]

theorem modify_append_length {d : Draft} (ha : a = l.length) :
    (l ++ d :: m).modify a f = l ++ f d :: m := by
  subst ha
  induction l with
  | nil => rfl
  | cons e l ih => rw [List.cons_append, List.length_cons, List.modify_succ_cons, ih, List.cons_append]

end

/-! ## adding parts to a cell -/

/-- nothing is written in a slot -/
def Draft.Free (d : Draft) (slot : Slot) : Prop := d.read slot = none

theorem Draft.free_fill {place : Place} {child : Address} {d : Draft} {slot : Slot}
    (hs : slot ∉ place.slots) (hd : d.Free slot) : (place.fill child d).Free slot := by
  show (place.fill child d).read slot = none
  rw [read_fill, if_neg hs]
  exact hd

theorem Draft.body_fill {place : Place} {child : Address} {d : Draft}
    (hs : Slot.link .body ∉ place.slots) : (place.fill child d).body = d.body := by
  cases place with
  | statement => rfl
  | arg name primary =>
    cases primary with
    | false => rfl
    | true => exact absurd (List.mem_cons_of_mem _ List.mem_cons_self) hs

theorem Draft.fill_withBody {place : Place} {child body : Address} {d : Draft}
    (hs : Slot.link .body ∉ place.slots) :
    place.fill child (d.withLink body .body) = (place.fill child d).withLink body .body := by
  cases place with
  | statement => rfl
  | arg name primary =>
    cases primary with
    | false => rfl
    | true => exact absurd (List.mem_cons_of_mem _ List.mem_cons_self) hs

namespace OpenCell

/-- the drafts after a next statement is chained to the last one, or to the block -/
def chain (o : OpenCell) (next : Address) (l : List Draft) : List Draft :=
  match o.last with
  | some last => l.modify last (·.withLink next .next)
  | none => l.modify o.address (·.withLink next .body)

theorem length_chain (o : OpenCell) (next : Address) (l : List Draft) :
    (o.chain next l).length = l.length := by
  unfold chain
  split <;> rw [List.length_modify]

/-- the drafts after the chain of a block is ended at an address; other cells have no chain -/
def closed (o : OpenCell) (isBlock : Bool) (next : Address) (l : List Draft) : List Draft :=
  if isBlock then o.chain next l else l

/-- the drafts are such that all parts can be added to the cell and its chain can be ended -/
structure Ready (o : OpenCell) (l : List Draft) (isBlock : Bool) (ps : List (Place × Node)) :
    Prop where
  draft : ∃ d, l[o.address]? = some d ∧ (∀ slot ∈ ps.flatMap (·.1.slots), d.Free slot) ∧
    (isBlock = true → o.last = none → d.body = none)
  nodup : (ps.flatMap (·.1.slots)).Nodup
  block : isBlock = true → Slot.link .body ∉ ps.flatMap (·.1.slots)
  leaf : isBlock = false → ∀ p ∈ ps, p.1 ≠ .statement
  last : ∀ x, o.last = some x → x ≠ o.address ∧ ∃ e, l[x]? = some e ∧ e.next = none

section
variable {o : OpenCell} {l m : List Draft} {isBlock : Bool} {c : Node} {ps : List (Place × Node)}
  {child : Address}

/-- writing the next link of the last statement, or the body of the block, succeeds -/
theorem Ready.chain_eq (hr : o.Ready l true ps) (next : Address) :
    (match o.last with
      | some last => (Builder.ofDrafts l).setLink .next last next
      | none => (Builder.ofDrafts l).setLink .body o.address next : Except BuildFault Builder)
      = .ok (Builder.ofDrafts (o.chain next l)) := by
  unfold chain
  cases ho : o.last with
  | some x =>
    obtain ⟨_, e, he, hn⟩ := hr.last x ho
    exact Builder.setLink_ofDrafts he hn
  | none =>
    obtain ⟨d, hd, _, hb⟩ := hr.draft
    exact Builder.setLink_ofDrafts hd (hb rfl ho)

theorem Ready.link_statement (hr : o.Ready l true ps) :
    o.link .statement child (Builder.ofDrafts l) = .ok (Builder.ofDrafts (o.chain child l)) :=
  hr.chain_eq child

theorem Ready.close (hr : o.Ready l isBlock []) :
    o.close (Builder.ofDrafts l) isBlock
      = .ok (Builder.ofDrafts (o.closed isBlock .nothing l)) := by
  cases isBlock with
  | false => rfl
  | true => exact hr.chain_eq .nothing

theorem Ready.link_arg {name : String} {primary : Bool}
    (hr : o.Ready l isBlock ((.arg name primary, c) :: ps)) :
    o.link (.arg name primary) child (Builder.ofDrafts l)
      = .ok (Builder.ofDrafts (l.modify o.address ((Place.arg name primary).fill child))) := by
  obtain ⟨d, hd, hfree, _⟩ := hr.draft
  have hmem : ∀ slot ∈ (Place.arg name primary).slots, d.Free slot := fun slot hs =>
    hfree slot (List.mem_append_left _ hs)
  cases primary with
  | false =>
    have harg : d.Free (.arg name) := hmem _ List.mem_cons_self
    exact bind_eq_ok.mpr ⟨_, Builder.setArg_ofDrafts hd harg, rfl⟩
  | true =>
    have harg : d.Free (.arg name) := hmem _ List.mem_cons_self
    have hbody : d.Free (.link .body) := hmem _ (List.mem_cons_of_mem _ List.mem_cons_self)
    have hd' : (l.modify o.address (·.withArg name (.nested child)))[o.address]?
        = some (d.withArg name (.nested child)) := by
      rw [List.getElem?_modify_eq, hd]
      rfl
    refine bind_eq_ok.mpr ⟨_, Builder.setArg_ofDrafts hd harg, ?_⟩
    have hnone : (d.withArg name (.nested child)).link? .body = none :=
      show d.body = none from Option.map_eq_none_iff.mp hbody
    refine (Builder.setLink_ofDrafts hd' hnone).trans ?_
    rw [List.modify_modify_eq]
    rfl

/-- after a statement the cell is ready for the other parts -/
theorem Ready.after_statement {d₀ : Draft} (hr : o.Ready l true ((.statement, c) :: ps))
    (hn : d₀.next = none) :
    (OpenCell.mk o.address (some l.length)).Ready (o.chain l.length l ++ d₀ :: m) true ps := by
  obtain ⟨d, hd, hfree, _⟩ := hr.draft
  have ha : o.address < l.length := (List.getElem?_eq_some_iff.mp hd).1
  have hlen := o.length_chain l.length l
  have hget : ∃ d', (o.chain l.length l)[o.address]? = some d' ∧
      ∀ slot ∈ ps.flatMap (·.1.slots), d'.Free slot := by
    unfold chain
    cases ho : o.last with
    | some x =>
      have hne : x ≠ o.address := (hr.last x ho).1
      refine ⟨d, ?_, fun slot hs => hfree slot hs⟩
      rw [List.getElem?_modify_ne _ _ hne, hd]
    | none =>
      refine ⟨d.withLink l.length .body, ?_, fun slot hs => ?_⟩
      · rw [List.getElem?_modify_eq, hd]
        rfl
      · have hbody : slot ≠ .link .body := fun h => hr.block rfl (h ▸ hs)
        exact (Draft.read_withLink_of_ne hbody).trans (hfree slot hs)
  obtain ⟨d', hd', hfree'⟩ := hget
  refine ⟨⟨d', ?_, hfree', nofun⟩, hr.nodup, hr.block,
    nofun, fun x hx => ?_⟩
  · rw [List.getElem?_append_left (by rwa [hlen]), hd']
  · cases hx
    have hne : l.length ≠ o.address := by
      intro heq
      rw [heq] at ha
      exact Nat.lt_irrefl _ ha
    refine ⟨hne, d₀, ?_, hn⟩
    rw [List.getElem?_append_right (by rw [hlen]), hlen, Nat.sub_self]
    rfl

/-- after an argument the cell is ready for the other parts -/
theorem Ready.after_arg {name : String} {primary : Bool}
    (hr : o.Ready l isBlock ((.arg name primary, c) :: ps)) :
    o.Ready (l.modify o.address ((Place.arg name primary).fill child)) isBlock ps := by
  obtain ⟨d, hd, hfree, hbody⟩ := hr.draft
  have hdisj := List.nodup_append.mp hr.nodup
  refine ⟨⟨(Place.arg name primary).fill child d, ?_, fun slot hs => ?_, fun hb ho => ?_⟩,
    hdisj.2.1, fun hb hs => hr.block hb (List.mem_append_right _ hs),
    fun hb p hp => hr.leaf hb p (List.mem_cons_of_mem _ hp), fun x hx => ?_⟩
  · rw [List.getElem?_modify_eq, hd]
    rfl
  · exact Draft.free_fill (fun h => hdisj.2.2 slot h slot hs rfl)
      (hfree slot (List.mem_append_right _ hs))
  · rw [Draft.body_fill fun h => hr.block hb (List.mem_append_left _ h)]
    exact hbody hb ho
  · obtain ⟨hne, e, he, hn⟩ := hr.last x hx
    refine ⟨hne, e, ?_, hn⟩
    rw [List.getElem?_modify_ne _ _ hne.symm, he]

theorem Ready.append (hr : o.Ready l isBlock ps) : o.Ready (l ++ m) isBlock ps := by
  obtain ⟨d, hd, hrest⟩ := hr.draft
  refine ⟨⟨d, ?_, hrest⟩, hr.nodup, hr.block, hr.leaf, fun x hx => ?_⟩
  · rw [List.getElem?_append_left (List.getElem?_eq_some_iff.mp hd).1, hd]
  · obtain ⟨hne, e, he, hn⟩ := hr.last x hx
    refine ⟨hne, e, ?_, hn⟩
    rw [List.getElem?_append_left (List.getElem?_eq_some_iff.mp he).1, he]

theorem Ready.address_lt (hr : o.Ready l isBlock ps) : o.address < l.length := by
  obtain ⟨d, hd, _⟩ := hr.draft
  exact (List.getElem?_eq_some_iff.mp hd).1

theorem Ready.chain_append (hr : o.Ready l isBlock ps) (next : Address) :
    o.chain next (l ++ m) = o.chain next l ++ m := by
  unfold chain
  cases ho : o.last with
  | some x =>
    obtain ⟨_, e, he, _⟩ := hr.last x ho
    exact modify_append_left (List.getElem?_eq_some_iff.mp he).1
  | none => exact modify_append_left hr.address_lt

theorem Ready.closed_append (hr : o.Ready l isBlock ps) (next : Address) :
    o.closed isBlock next (l ++ m) = o.closed isBlock next l ++ m := by
  cases isBlock with
  | true => exact hr.chain_append next
  | false => rfl

theorem length_closed (o : OpenCell) (isBlock : Bool) (next : Address) (l : List Draft) :
    (o.closed isBlock next l).length = l.length := by
  cases isBlock with
  | true => exact o.length_chain next l
  | false => rfl

/-- the chain link and the address of an argument are written in either order -/
theorem Ready.closed_fill {name : String} {primary : Bool}
    (hr : o.Ready l isBlock ((.arg name primary, c) :: ps)) (next : Address) :
    o.closed isBlock next (l.modify o.address ((Place.arg name primary).fill child))
      = (o.closed isBlock next l).modify o.address ((Place.arg name primary).fill child) := by
  cases isBlock with
  | false => rfl
  | true =>
    show o.chain _ _ = (o.chain _ _).modify _ _
    unfold chain
    cases ho : o.last with
    | some x => exact List.modify_modify_ne _ _ _ (hr.last x ho).1.symm
    | none =>
      have hbody : Slot.link .body ∉ (Place.arg name primary).slots :=
        fun h => hr.block rfl (List.mem_append_left _ h)
      show (l.modify _ _).modify _ _ = (l.modify _ _).modify _ _
      rw [List.modify_modify_eq, List.modify_modify_eq]
      congr 1
      funext d
      exact (Draft.fill_withBody hbody).symm

end

/-! ## all parts of a cell -/

section
variable (corpus : Corpus) (linkage : ParentLinkage)

/-- the drafts once all parts are there: they are linked to, and those of their seats come last -/
def filled (o : OpenCell) (isBlock : Bool) (ps : List (Place × Node)) (l : List Draft) :
    List Draft :=
  (o.closed isBlock (nextStatement corpus l.length ps) l).modify o.address
      (·.filled (seatParts corpus linkage o.address l.length o.last ps)) ++
    (seatParts corpus linkage o.address l.length o.last ps).flatMap
      fun p => p.2.drafts corpus linkage

/-- the drafts of the first part, while its next link is not written -/
def firstDrafts (o : OpenCell) (place : Place) (c : Node) (l : List Draft) : List Draft :=
  (Seat.mk c l.length (o.parentOf linkage place) none).drafts corpus linkage

variable {corpus linkage} {o : OpenCell} {l : List Draft} {isBlock : Bool} {place : Place} {c : Node}
  {ps : List (Place × Node)}

theorem length_append_firstDrafts {k : List Draft} (hk : k.length = l.length) :
    (k ++ o.firstDrafts corpus linkage place c l).length = l.length + c.cellCount corpus := by
  rw [List.length_append, hk, firstDrafts, Seat.length_drafts]

theorem filled_nil : o.filled corpus linkage isBlock [] l = o.closed isBlock .nothing l := by
  show List.modify _ _ id ++ [] = _
  rw [List.modify_id, List.append_nil]
  rfl

/-- a statement is linked to, then its next link is written with the rest of the chain -/
theorem Ready.filled_statement (hr : o.Ready l true ((.statement, c) :: ps)) :
    (o.after .statement l.length).filled corpus linkage true ps
        (o.chain l.length l ++ o.firstDrafts corpus linkage .statement c l)
      = o.filled corpus linkage true ((.statement, c) :: ps) l := by
  have hchain := o.length_chain l.length l
  rw [filled, length_append_firstDrafts hchain, firstDrafts]
  show ((o.chain l.length l ++ _).modify l.length _).modify o.address _ ++ _
    = (o.chain l.length l).modify o.address _ ++ List.flatMap _ (_ :: _)
  rw [List.flatMap_cons, Seat.drafts_eq, modify_append_length hchain.symm,
    modify_append_left (hchain.symm ▸ hr.address_lt), List.append_assoc]
  refine congrArg _ (congrArg (· ++ _) ?_)
  exact (Seat.drafts_withNext c l.length _ _).symm

/-- an argument is written, then the others -/
theorem Ready.filled_arg {name : String} {primary : Bool}
    (hr : o.Ready l isBlock ((.arg name primary, c) :: ps)) :
    o.filled corpus linkage isBlock ps
        (l.modify o.address ((Place.arg name primary).fill l.length) ++
          o.firstDrafts corpus linkage (.arg name primary) c l)
      = o.filled corpus linkage isBlock ((.arg name primary, c) :: ps) l := by
  have hafter : o.Ready (l.modify o.address ((Place.arg name primary).fill l.length)) isBlock ps :=
    hr.after_arg
  have haddress : o.address < (o.closed isBlock
      (nextStatement corpus (l.length + c.cellCount corpus) ps) l).length := by
    rw [length_closed]
    exact hr.address_lt
  rw [filled, length_append_firstDrafts (List.length_modify _ _ _), hafter.closed_append,
    hr.closed_fill]
  show (_ ++ _ : List Draft).modify _ _ ++ _ = _ ++ List.flatMap _ (_ :: _)
  rw [modify_append_left (by rwa [List.length_modify]), List.modify_modify_eq, List.flatMap_cons,
    List.append_assoc]
  rfl

end

end OpenCell

namespace Node

/-! ## the first fault -/

/-- the value, unless there is a fault -/
def unlessFault {ε α : Type} (fault? : Option ε) (x : α) : Except ε α :=
  match fault? with
  | none => .ok x
  | some fault => .error fault

/-- the fault of the first node, in the order of visits, that has no shape or lies too deep -/
def flattenFault? (corpus : Corpus) (limit : Nat) : (levels : Nat) → Node → Option FlattenFault
  | 0, _ => some (.depthExceeded limit)
  | levels + 1, n =>
    match corpus.shapeOf? n.kind with
    | none => some (.unknownKind ⟨n.kind⟩)
    | some shape => (n.parts shape).findSome? fun p => flattenFault? corpus limit levels p.2

/-! ## the parts of a node -/

/-- one part: its cell is linked to, and its cells are added -/
def addPart (corpus : Corpus) (policy : Policy) (levels : Nat) (s : OpenCell × Builder)
    (p : Place × Node) : Except FlattenFault (OpenCell × Builder) :=
  p.2.flattenBelow corpus policy levels (s.1.parentOf policy.linkage p.1) (s.1.link p.1) s.2 >>=
    fun r => .ok (s.1.after p.1 r.1, r.2)

/-- the parts of an open cell are added in turn, and its chain is ended -/
def fill (corpus : Corpus) (policy : Policy) (levels : Nat) (isBlock : Bool)
    (ps : List (Place × Node)) (s : OpenCell × Builder) : Except FlattenFault Builder :=
  ps.foldlM (addPart corpus policy levels) s >>= fun s => (s.1.close s.2 isBlock).mapError .build

theorem flattenBelow_succ {corpus : Corpus} {policy : Policy} {levels : Nat} {parent : Address}
    {link : Address → Builder → Except BuildFault Builder} {n : Node} {b : Builder} :
    n.flattenBelow corpus policy (levels + 1) parent link b
      = (corpus.shapeOf n.kind).mapError .unknownKind >>= fun shape =>
        (n.allocate shape parent b).mapError .build >>= fun r =>
        (link r.1 r.2).mapError .build >>= fun b =>
        fill corpus policy levels shape.isBlock (n.parts shape) (⟨r.1, none⟩, b) >>= fun b =>
        .ok (r.1, b) := by
  rw [flattenBelow]
  refine bind_congr fun shape => bind_congr fun r => bind_congr fun b => ?_
  rw [fill, bind_assoc]
  rfl

section
variable {corpus : Corpus} {policy : Policy} {levels : Nat}

theorem fill_cons {isBlock : Bool} {place : Place} {c : Node} {ps : List (Place × Node)}
    {o : OpenCell} {b : Builder} : fill corpus policy levels isBlock ((place, c) :: ps) (o, b)
      = c.flattenBelow corpus policy levels (o.parentOf policy.linkage place) (o.link place) b
        >>= fun r => fill corpus policy levels isBlock ps (o.after place r.1, r.2) := by
  rw [fill, List.foldlM_cons, bind_assoc, addPart, bind_assoc]
  rfl

/-- what flattening has to do at some level: give a fault, or link to the node and append the drafts
of the seats -/
def FlattensTo (corpus : Corpus) (policy : Policy) (levels : Nat) : Prop :=
  ∀ (parent : Address) (link : Address → Builder → Except BuildFault Builder) (n : Node)
    (l linked : List Draft), linked.length = l.length →
    (∀ d, link l.length (.ofDrafts (l ++ [d])) = .ok (.ofDrafts (linked ++ [d]))) →
    n.flattenBelow corpus policy levels parent link (.ofDrafts l)
      = unlessFault (n.flattenFault? corpus policy.maxDepth levels) (l.length, .ofDrafts
        (linked ++ (Seat.mk n l.length parent none).drafts corpus policy.linkage))

/-- the parts of an open cell: the first fault, or the drafts once all of them are there -/
theorem fill_eq (ih : FlattensTo corpus policy levels) {o : OpenCell} {l : List Draft}
    {isBlock : Bool} {ps : List (Place × Node)} (hr : o.Ready l isBlock ps) :
    fill corpus policy levels isBlock ps (o, .ofDrafts l)
      = unlessFault (ps.findSome? fun p => p.2.flattenFault? corpus policy.maxDepth levels)
        (.ofDrafts (o.filled corpus policy.linkage isBlock ps l)) := by
  induction ps generalizing o l with
  | nil =>
    show (o.close (.ofDrafts l) isBlock).mapError FlattenFault.build = .ok _
    rw [hr.close, OpenCell.filled_nil]
    rfl
  | cons p ps ihps =>
    obtain ⟨place, c⟩ := p
    rw [fill_cons, List.findSome?_cons]
    cases place with
    | statement =>
      cases isBlock with
      | false => exact absurd rfl (hr.leaf rfl _ List.mem_cons_self)
      | true =>
        rw [ih _ _ c l (o.chain l.length l) (o.length_chain l.length l) fun d => by
          rw [hr.append.link_statement, hr.chain_append]]
        cases c.flattenFault? corpus policy.maxDepth levels with
        | some f => rfl
        | none =>
          have hready : (o.after .statement l.length).Ready
              (o.chain l.length l ++ o.firstDrafts corpus policy.linkage .statement c l) true ps := by
            rw [OpenCell.firstDrafts, Seat.drafts_eq]
            exact hr.after_statement (Seat.next_draft _)
          rw [← hr.filled_statement]
          exact ihps hready
    | arg name primary =>
      have hlinked := List.length_modify ((Place.arg name primary).fill l.length) l o.address
      rw [ih _ _ c l _ hlinked fun d => by
        rw [hr.append.link_arg, modify_append_left hr.address_lt]]
      cases c.flattenFault? corpus policy.maxDepth levels with
      | some f => rfl
      | none =>
        rw [← hr.filled_arg]
        exact ihps hr.after_arg.append

end

/-! ## the cell of a node -/

/-- the draft of a node before its parts are added -/
def opened (n : Node) (shape : KindShape) (parent : Address) : Draft :=
  ⟨shape.kind, some parent, none, none, n.scalarArgs shape⟩

/-- scalars of different names are written one after the other -/
theorem foldlM_setArg {l : List Draft} {es : List (String × Scalar)} {d : Draft}
    (hn : (es.map Prod.fst).Nodup) (hd : ∀ e ∈ es, d.args.find? e.1 = none) :
    es.foldlM (fun b (name, s) => b.setArg l.length name (.scalar s)) (Builder.ofDrafts (l ++ [d]))
      = .ok (.ofDrafts
          (l ++ [{ d with args := es.foldl (fun m e => m.insert e.1 (.scalar e.2)) d.args }])) := by
  induction es generalizing d with
  | nil => rfl
  | cons e es ih =>
    obtain ⟨name, s⟩ := e
    rw [List.map_cons, List.nodup_cons] at hn
    have hget : (l ++ [d])[l.length]? = some d := by
      rw [List.getElem?_append_right (Nat.le_refl _), Nat.sub_self]
      rfl
    rw [List.foldlM_cons]
    refine bind_eq_ok.mpr ⟨_, Builder.setArg_ofDrafts hget (hd _ List.mem_cons_self), ?_⟩
    rw [modify_append_length rfl]
    refine ih hn.2 fun e he => ?_
    have hne : e.1 ≠ name := fun h => hn.1 (List.mem_map.mpr ⟨e, he, h⟩)
    show (d.args.insert name _).find? e.1 = none
    rw [NameMap.find?_insert_of_ne _ hne]
    exact hd e (List.mem_cons_of_mem _ he)

theorem allocate_ofDrafts {n : Node} {shape : KindShape} (hn : (shape.args.map (·.name)).Nodup)
    (parent : Address) (l : List Draft) :
    n.allocate shape parent (.ofDrafts l)
      = .ok (l.length, .ofDrafts (l ++ [n.opened shape parent])) := by
  have hget : (l ++ [Draft.ofKind shape.kind])[l.length]? = some (.ofKind shape.kind) := by
    rw [List.getElem?_append_right (Nat.le_refl _), Nat.sub_self]
    rfl
  rw [allocate, Builder.allocate_ofDrafts]
  refine bind_eq_ok.mpr ⟨_, Builder.setLink_ofDrafts hget rfl, ?_⟩
  rw [modify_append_length rfl]
  exact bind_eq_ok.mpr ⟨_, foldlM_setArg (scalars_nodup hn) fun _ _ => rfl, rfl⟩

/-! ## the parts of a fresh cell -/

section
variable {n : Node} {shape : KindShape}

theorem slots_bodyParts {slot : Slot} (h : slot ∈ (n.bodyParts shape.body).flatMap (·.1.slots)) :
    ∃ name c, shape.body = .primary name ∧ n.nestedArg? name = some c ∧
      (slot = .arg name ∨ slot = .link .body) := by
  obtain ⟨p, hp, hs⟩ := List.mem_flatMap.mp h
  rcases mem_bodyParts hp with ⟨_, _, hplace, _⟩ | ⟨name, hrule, hplace, hc⟩
  · rw [hplace] at hs
    cases hs
  · rw [hplace] at hs
    have hslots : slot ∈ [Slot.arg name, .link .body] := hs
    rw [List.mem_pair] at hslots
    exact ⟨name, _, hrule, hc, hslots⟩

theorem slots_argParts {slot : Slot}
    (h : slot ∈ (shape.ordinaryArgs.filterMap n.argPart?).flatMap (·.1.slots)) :
    ∃ spec ∈ shape.ordinaryArgs, slot = .arg spec.name ∧ ∃ c, n.nestedArg? spec.name = some c := by
  obtain ⟨p, hp, hs⟩ := List.mem_flatMap.mp h
  obtain ⟨spec, hspec, hpart⟩ := List.mem_filterMap.mp hp
  obtain ⟨_, hplace, hc⟩ := argPart?_eq_some_iff.mp hpart
  rw [hplace] at hs
  exact ⟨spec, hspec, List.mem_singleton.mp hs, _, hc⟩

theorem slots_parts {slot : Slot} (hs : slot ∈ (n.parts shape).flatMap (·.1.slots)) :
    slot = .link .body ∨ ∃ name c, slot = .arg name ∧ n.nestedArg? name = some c := by
  change slot ∈ (_ ++ _ : List (Place × Node)).flatMap _ at hs
  rw [List.flatMap_append, List.mem_append] at hs
  rcases hs with hs | hs
  · obtain ⟨name, c, _, hc, rfl | rfl⟩ := slots_bodyParts hs
    · exact .inr ⟨name, c, rfl, hc⟩
    · exact .inl rfl
  · obtain ⟨spec, _, rfl, c, hc⟩ := slots_argParts hs
    exact .inr ⟨spec.name, c, rfl, hc⟩

theorem primary_ne_of_mem_ordinaryArgs {spec : ArgSpec} (h : spec ∈ shape.ordinaryArgs)
    {name : String} (hp : shape.body = .primary name) : spec.name ≠ name := by
  have hne := (List.mem_filter.mp h).2
  rw [KindShape.primary?_eq_some_iff.mpr hp] at hne
  intro heq
  rw [heq] at hne
  simp at hne

theorem slots_bodyParts_nodup : ((n.bodyParts shape.body).flatMap (·.1.slots)).Nodup := by
  cases shape.body with
  | block kinds =>
    have hnil : ((n.body.map fun c => (Place.statement, c)).flatMap (·.1.slots)) = [] := by
      rw [List.flatMap_eq_nil_iff]
      intro p hp
      obtain ⟨c, _, rfl⟩ := List.mem_map.mp hp
      rfl
    show ((n.body.map fun c => (Place.statement, c)).flatMap (·.1.slots)).Nodup
    rw [hnil]
    exact List.nodup_nil
  | primary name =>
    cases hc : n.nestedArg? name with
    | none =>
      rw [bodyParts, hc]
      exact List.nodup_nil
    | some c =>
      rw [bodyParts, hc]
      show [Slot.arg name, .link .body].Nodup
      simp
  | none => exact List.nodup_nil

theorem slots_argParts_sublist (n : Node) (specs : List ArgSpec) :
    ((specs.filterMap n.argPart?).flatMap (·.1.slots)).Sublist
      ((specs.map (·.name)).map Slot.arg) := by
  induction specs with
  | nil => exact .slnil
  | cons spec specs ih =>
    rw [List.filterMap_cons]
    split
    · exact ih.cons _
    · next p hp =>
      rw [List.flatMap_cons, (argPart?_eq_some_iff.mp hp).2.1]
      exact ih.cons_cons _

/-- no slot of a cell is written twice -/
theorem slots_nodup (hn : (shape.args.map (·.name)).Nodup) :
    ((n.parts shape).flatMap (·.1.slots)).Nodup := by
  have hargs : ((shape.ordinaryArgs.filterMap n.argPart?).flatMap (·.1.slots)).Nodup :=
    ((ordinaryArgs_nodup hn).map fun _ _ h => Slot.arg.inj h).sublist (slots_argParts_sublist n _)
  show ((_ ++ _ : List (Place × Node)).flatMap _).Nodup
  rw [List.flatMap_append, List.nodup_append]
  refine ⟨slots_bodyParts_nodup, hargs, fun slot hs slot' hs' heq => ?_⟩
  subst heq
  obtain ⟨name, _, hrule, _, hslot⟩ := slots_bodyParts hs
  obtain ⟨spec, hspec, hslot', _⟩ := slots_argParts hs'
  have hne := primary_ne_of_mem_ordinaryArgs hspec hrule
  subst hslot'
  rcases hslot with hslot | hslot
  · exact hne (Slot.arg.inj hslot)
  · cases hslot

theorem ready_parts (hn : (shape.args.map (·.name)).Nodup) (parent : Address) (l : List Draft) :
    (OpenCell.mk l.length none).Ready (l ++ [n.opened shape parent]) shape.isBlock
      (n.parts shape) := by
  refine ⟨⟨n.opened shape parent, ?_, fun slot hs => ?_, fun _ _ => rfl⟩, slots_nodup hn,
    fun hb hs => ?_, fun hb p hp hplace => ?_, fun x hx => (by cases hx)⟩
  · rw [List.getElem?_append_right (Nat.le_refl _), Nat.sub_self]
    rfl
  · -- the argument of a part is nested, so no scalar is written there
    rcases slots_parts hs with rfl | ⟨name, c, rfl, hc⟩
    · rfl
    · exact find?_scalarArgs_of_nestedArg? hn hc
  · obtain ⟨kinds, hblock⟩ := KindShape.isBlock_iff.mp hb
    change _ ∈ (_ ++ _ : List (Place × Node)).flatMap _ at hs
    rw [List.flatMap_append, List.mem_append] at hs
    rcases hs with hs | hs
    · obtain ⟨name, _, hprimary, _⟩ := slots_bodyParts hs
      rw [hblock] at hprimary
      cases hprimary
    · obtain ⟨_, _, hslot, _⟩ := slots_argParts hs
      cases hslot
  · rcases List.mem_append.mp hp with hp | hp
    · rcases mem_bodyParts hp with ⟨kinds, hblock, _⟩ | ⟨_, _, hplace', _⟩
      · rw [KindShape.isBlock_iff.mpr ⟨kinds, hblock⟩] at hb
        cases hb
      · rw [hplace'] at hplace
        cases hplace
    · obtain ⟨spec, _, hpart⟩ := List.mem_filterMap.mp hp
      rw [(argPart?_eq_some_iff.mp hpart).2.1] at hplace
      cases hplace

end

theorem closed_opened (n : Node) (shape : KindShape) (parent next : Address) (l : List Draft)
    (isBlock : Bool) : (OpenCell.mk l.length none).closed isBlock next (l ++ [n.opened shape parent])
      = l ++ [⟨shape.kind, some parent, none, if isBlock then some next else none,
        n.scalarArgs shape⟩] := by
  cases isBlock with
  | false => rfl
  | true => exact modify_append_length rfl

/-- the drafts once all parts of a node are there are those of its seat -/
theorem filled_opened {corpus : Corpus} {linkage : ParentLinkage} {n : Node} {shape : KindShape}
    (hs : corpus.shapeOf? n.kind = some shape) (parent : Address) (l : List Draft) :
    (OpenCell.mk l.length none).filled corpus linkage shape.isBlock (n.parts shape)
        (l ++ [n.opened shape parent])
      = l ++ (Seat.mk n l.length parent none).drafts corpus linkage := by
  have hlen : (l ++ [n.opened shape parent]).length = l.length + 1 := List.length_append
  rw [OpenCell.filled, hlen, closed_opened, modify_append_length rfl, Seat.drafts_eq,
    Seat.draft_eq hs, Seat.parts_eq hs, List.append_assoc]
  rfl

/-! ## trees -/

/-- **Flattening below a node**: the first fault, or the drafts of the seats after all drafts -/
theorem flattenBelow_eq {corpus : Corpus} {policy : Policy} {levels : Nat} :
    FlattensTo corpus policy levels := by
  induction levels with
  | zero => exact fun _ _ _ _ _ _ _ => rfl
  | succ levels ih =>
    intro parent link n l linked hlength hlink
    rw [flattenBelow_succ]
    cases hs : corpus.shapeOf? n.kind with
    | none =>
      have hnone : corpus.shapeOf n.kind = .error ⟨n.kind⟩ := by rw [Corpus.shapeOf, hs]
      rw [hnone, flattenFault?, hs]
      rfl
    | some shape =>
      have hn := Corpus.args_nodup (Corpus.shape?_of_shapeOf? hs)
      rw [Corpus.shapeOf_eq_ok_iff.mpr hs]
      show ((n.allocate shape parent (.ofDrafts l)).mapError FlattenFault.build >>= _) = _
      rw [allocate_ofDrafts hn]
      show ((link l.length (.ofDrafts (l ++ _))).mapError FlattenFault.build >>= _) = _
      rw [hlink]
      show (fill corpus policy levels shape.isBlock (n.parts shape)
        (OpenCell.mk l.length none, Builder.ofDrafts _) >>= fun b => Except.ok (l.length, b)) = _
      rw [← hlength, fill_eq ih (ready_parts hn parent linked), filled_opened hs, flattenFault?, hs]
      show _ = unlessFault ((n.parts shape).findSome? _) _
      cases (n.parts shape).findSome? fun p => p.2.flattenFault? corpus policy.maxDepth levels with
      | some fault => rfl
      | none => rfl

/-- the heap of a tree: the sentinel, then the cells of all seats -/
def heap (corpus : Corpus) (linkage : ParentLinkage) (n : Node) : Heap :=
  ⟨(Cell.sentinel :: ((Seat.root n).below corpus linkage).map (Seat.cell corpus linkage)).toArray⟩

/-- **Flattening a tree** fails with the first fault, or gives the heap of the tree -/
theorem flatten_eq {corpus : Corpus} {policy : Policy} {n : Node} :
    n.flatten corpus policy = unlessFault (n.flattenFault? corpus policy.maxDepth policy.maxDepth)
      (n.heap corpus policy.linkage, .root) := by
  have hinit : Builder.initial = .ofDrafts [.sentinel] := rfl
  rw [flatten, hinit, flattenBelow_eq _ _ n [.sentinel] [.sentinel] rfl fun _ => rfl]
  cases n.flattenFault? corpus policy.maxDepth policy.maxDepth with
  | some fault => rfl
  | none =>
    show Except.ok (Builder.finish (.ofDrafts _), _) = .ok (_, _)
    rw [Builder.finish_ofDrafts, List.map_append, Seat.drafts, List.map_map]
    rfl

theorem flatten_eq_ok {corpus : Corpus} {policy : Policy} {n : Node} {r : Heap × Address} :
    n.flatten corpus policy = .ok r ↔
      n.flattenFault? corpus policy.maxDepth policy.maxDepth = none ∧
        r = (n.heap corpus policy.linkage, .root) := by
  rw [flatten_eq]
  cases n.flattenFault? corpus policy.maxDepth policy.maxDepth with
  | some fault => exact ⟨nofun, fun h => (by cases h.1)⟩
  | none => exact ⟨fun h => (by cases h; exact ⟨rfl, rfl⟩), fun h => (by rw [h.2]; rfl)⟩

end Node

end ScriptHeap
