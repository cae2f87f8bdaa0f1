import ScriptHeap.Proofs.RoundedText
/-!
# Redirected pointers

* `Cell.redirect`, `Heap.redirect`   the same with one pointer led elsewhere;
* `Heap.sameBut_redirect`   all other pointers, and all kinds, stay;
* `Heap.not_check_of_sameBut`   a heap that differs from a checked one in a pointer is not checked;
* `Heap.check_redirect`     a heap that passes the check fails it when a pointer is redirected, and
                       its stored form is refused, by a library that rounds otherwise too.
-/

namespace ScriptHeap

/-! ## one cell -/

namespace Cell

/-- the same with a pointer led elsewhere -/
def redirect (c : Cell) : Pointer → Address → Cell
  | .next, b => { c with next := b }
  | .body, b => { c with body := b }
  | .arg name, b => { c with args := c.args.insert name (.nested b) }

section
variable {c : Cell} {p q : Pointer} {b b' : Address}

theorem kind_redirect : (c.redirect p b').kind = c.kind := by cases p <;> rfl

theorem pointer?_redirect_self : (c.redirect p b').pointer? p = some b' := by
  cases p with
  | next => rfl
  | body => rfl
  | arg name => exact pointer?_arg_iff.mpr (NameMap.find?_insert_self c.args name _)

theorem pointer?_redirect_of_ne (hne : q ≠ p) : (c.redirect p b').pointer? q = c.pointer? q := by
  cases p with
  | next => cases q <;> first | rfl | exact absurd rfl hne
  | body => cases q <;> first | rfl | exact absurd rfl hne
  | arg name =>
    cases q with
    | next => rfl
    | body => rfl
    | arg other =>
      have hother : other ≠ name := fun heq => hne (congrArg Pointer.arg heq)
      show ((c.args.insert name (.nested b')).find? other).bind _ = _
      rw [NameMap.find?_insert_of_ne c.args hother]
      rfl

/-- an address stays an address -/
theorem Typed.redirect {corpus : Corpus} (hc : c.Typed corpus) (hp : c.pointer? p = some b) :
    (c.redirect p b').Typed corpus := by
  obtain ⟨shape, hshape, hargs⟩ := hc
  cases p with
  | next => exact ⟨shape, hshape, hargs⟩
  | body => exact ⟨shape, hshape, hargs⟩
  | arg name =>
    refine ⟨shape, hshape, fun e he => ?_⟩
    rcases Entries.mem_insert he with rfl | he
    · have hold := Entries.mem_of_find? (pointer?_arg_iff.mp hp)
      obtain ⟨_, spec, hspec, hdeclared⟩ := hargs (name, .nested b) hold
      exact ⟨nofun, spec, hspec, hdeclared⟩
    · exact hargs e he

theorem Fits.redirect (hc : c.Fits) (hb : b' < UInt64.size) : (c.redirect p b').Fits := by
  cases p with
  | next =>
    refine ⟨fun field => ?_, hc.args⟩
    cases field with
    | next => exact hb
    | parent => exact hc.links .parent
    | body => exact hc.links .body
  | body =>
    refine ⟨fun field => ?_, hc.args⟩
    cases field with
    | body => exact hb
    | parent => exact hc.links .parent
    | next => exact hc.links .next
  | arg name =>
    refine ⟨fun field => ?_, fun e he => ?_⟩
    · cases field with
      | parent => exact hc.links .parent
      | next => exact hc.links .next
      | body => exact hc.links .body
    · rcases Entries.mem_insert he with rfl | he
      · exact hb
      · exact hc.args e he

end

end Cell

/-! ## one heap -/

namespace Heap

/-- the same with a pointer of one cell led elsewhere -/
def redirect (h : Heap) (a : Address) (p : Pointer) (b : Address) : Heap :=
  ⟨h.cells.modify a fun c => c.redirect p b⟩

section
variable {h : Heap} {corpus : Corpus} {a b b' : Address} {p : Pointer}

theorem getElem?_redirect (x : Address) : (h.redirect a p b').cells[x]? =
    if a = x then h.cells[x]?.map fun c => c.redirect p b' else h.cells[x]? :=
  Array.getElem?_modify

theorem sameBut_redirect : h.SameBut (h.redirect a p b') a p where
  kind x := by
    rw [getElem?_redirect]
    split
    · rw [Option.map_map]
      exact Option.map_congr fun _ _ => Cell.kind_redirect.symm
    · rfl
  pointer x q hne := by
    show h.cells[x]?.bind _ = (h.redirect a p b').cells[x]?.bind _
    rw [getElem?_redirect]
    split
    · next heq =>
      have hq : q ≠ p := fun h => hne (by rw [h, heq])
      rw [Option.bind_map]
      exact Option.bind_congr fun _ _ => (Cell.pointer?_redirect_of_ne hq).symm
    · rfl

theorem pointer?_redirect (hp : h.pointer? a p = some b) :
    (h.redirect a p b').pointer? a p = some b' := by
  obtain ⟨c, hc, _⟩ := exists_cell_of_pointer? hp
  have hcell : (h.redirect a p b').cells[a]? = some (c.redirect p b') := by
    rw [getElem?_redirect, if_pos rfl, hc, Option.map_some]
  rw [pointer?_eq hcell, Cell.pointer?_redirect_self]

/-- what redirecting the pointer keeps of the cell it is in, it keeps of all cells -/
theorem forall_cells_redirect {P : Cell → Prop} (hp : h.pointer? a p = some b)
    (hcells : ∀ c ∈ h.cells.toList, P c)
    (hcell : ∀ c, P c → c.pointer? p = some b → P (c.redirect p b')) :
    ∀ c ∈ (h.redirect a p b').cells.toList, P c := by
  intro c hc
  obtain ⟨x, hx⟩ := mem_cells_iff.mp hc
  rw [getElem?_redirect] at hx
  split at hx
  · next heq =>
    subst heq
    obtain ⟨d, hd, rfl⟩ := Option.map_eq_some_iff.mp hx
    rw [pointer?_eq hd] at hp
    exact hcell d (hcells d (mem_cells_iff.mpr ⟨a, hd⟩)) hp
  · exact hcells c (mem_cells_iff.mpr ⟨x, hx⟩)

theorem typed_redirect (ht : h.Typed corpus) (hp : h.pointer? a p = some b) :
    (h.redirect a p b').Typed corpus :=
  forall_cells_redirect hp ht fun _ hc hcp => hc.redirect hcp

theorem fits_redirect (hf : h.Fits) (hp : h.pointer? a p = some b) (hb : b' < UInt64.size) :
    (h.redirect a p b').Fits :=
  forall_cells_redirect hp hf fun _ hc _ => hc.redirect hb

/-- a heap of the same kinds that agrees in all other pointers does not pass the check -/
theorem not_check_of_sameBut {k : Heap} (hok : h.check corpus = .ok ())
    (hp : h.pointer? a p = some b) (hne : b' ≠ b) (hs : h.SameBut k a p)
    (hk : k.pointer? a p = some b') : k.check corpus ≠ .ok () := fun hcheck =>
  hne ((wellFormed_of_check hok).pointer_eq (wellFormed_of_check hcheck) hs hp hk).symm

/-- **No redirected pointer passes the check**: if a pointer of a checked heap is led anywhere else,
the check fails. If addresses are words, what is stored of the heap is refused for the same reason as
a value; as text it is refused by every library, however it rounds, and for the same reason by one
that reads doubles back -/
theorem check_redirect (hok : h.check corpus = .ok ()) (hp : h.pointer? a p = some b)
    (hne : b' ≠ b) : ∃ f, (h.redirect a p b').check corpus = .error f ∧
      (h.Fits → b' < UInt64.size →
        Heap.ofJson corpus (h.redirect a p b').toJson = .error (.corrupt f) ∧
        (∀ (lib : JsonLibrary) (k : Heap),
          Heap.ofBytes lib corpus (h.redirect a p b').canonicalBytes ≠ .ok k) ∧
        ∀ lib : JsonLibrary, lib.ReadsBack → 3 ≤ lib.nestingLimit →
          Heap.ofBytes lib corpus (h.redirect a p b').canonicalBytes = .error (.corrupt f)) := by
  have hw := wellFormed_of_check hok
  have hself : (h.redirect a p b').pointer? a p = some b' := pointer?_redirect hp
  cases hcheck : (h.redirect a p b').check corpus with
  | ok u => exact absurd hcheck (not_check_of_sameBut hok hp hne sameBut_redirect hself)
  | error f =>
    refine ⟨f, rfl, fun hf hb => ?_⟩
    have htyped : (h.redirect a p b').Typed corpus := typed_redirect hw.typed hp
    have hfits : (h.redirect a p b').Fits := fits_redirect hf hp hb
    have hread : Heap.ofJson corpus (h.redirect a p b').toJson = .error (.corrupt f) := by
      rw [ofJson_toJson htyped hfits, hcheck]
      rfl
    refine ⟨hread, fun lib k hk => ?_,
      fun lib hlib hlimit => (ofBytes_canonicalBytes hlib hlimit hfits).trans hread⟩
    -- what another library reads has other doubles, but the pointers are those of the text
    obtain ⟨rfl, hcheck'⟩ := eq_of_ofBytes htyped hfits hk
    exact not_check_of_sameBut hok hp hne (sameBut_mapFloats sameBut_redirect)
      ((pointer?_mapFloats a p).trans hself) hcheck'

end

end Heap

/-- a next link from the place back to the variable that it is the value of -/
theorem Sample.redirected_declaration_fails : ∃ f,
    (Sample.declaration.redirect 2 .next .root).check Corpus.builtIn = .error f ∧
      (∀ (lib : JsonLibrary) (k : Heap), Heap.ofBytes lib Corpus.builtIn
        (Sample.declaration.redirect 2 .next .root).canonicalBytes ≠ .ok k) ∧
      Heap.ofBytes .nearest Corpus.builtIn
        (Sample.declaration.redirect 2 .next .root).canonicalBytes = .error (.corrupt f) := by
  have hok : Sample.declaration.check Corpus.builtIn = .ok () := by decide +kernel
  have hp : Sample.declaration.pointer? 2 .next = some .nothing := by decide
  have hne : Address.root ≠ Address.nothing := by decide
  obtain ⟨f, hf, hread⟩ := Heap.check_redirect hok hp hne
  obtain ⟨_, hany, hbytes⟩ := hread (Heap.fits_of_check hok (by decide)) (by decide)
  exact ⟨f, hf, hany, hbytes .nearest JsonLibrary.nearest_readsBack (by decide)⟩

end ScriptHeap
