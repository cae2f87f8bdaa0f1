import Mathlib.Data.List.Forall2
/-!
# Computations that may fail

* `bind_eq_ok`, `mapError_eq_ok`, `map_eq_ok`   when a composed computation succeeds;
* `forM_eq_ok`, `forM_eq_error`, `forM_eq_error_iff`   a check of all members of a list, its success
                       and its fault;
* `mapM_eq_ok`         a computation on all members of a list;
* `foldlM_eq_ok`, `foldlM_eq_error`   a computation that goes through a list;
* `exists_forall₂`, `exists_getElem?_of_forall₂`   lists related member by member.
-/

namespace ScriptHeap

section
variable {ε δ α β γ : Type}

/-! ## composition -/

theorem bind_eq_ok {x : Except ε α} {f : α → Except ε β} {b : β} :
    (x >>= f) = .ok b ↔ ∃ a, x = .ok a ∧ f a = .ok b := by
  cases x with
  | error e =>
    refine ⟨fun h => ?_, fun ⟨a, ha, _⟩ => ?_⟩
    · cases h
    · cases ha
  | ok a =>
    refine ⟨fun h => ⟨a, rfl, h⟩, fun ⟨a', ha, hb⟩ => ?_⟩
    cases ha
    exact hb

theorem bind_eq_error {x : Except ε α} {f : α → Except ε β} {e : ε} :
    (x >>= f) = .error e ↔ x = .error e ∨ ∃ a, x = .ok a ∧ f a = .error e := by
  cases x with
  | error d =>
    refine ⟨fun h => .inl ?_, fun h => ?_⟩
    · cases h
      rfl
    · rcases h with h | ⟨a, ha, _⟩
      · cases h
        rfl
      · cases ha
  | ok a =>
    refine ⟨fun h => .inr ⟨a, rfl, h⟩, fun h => ?_⟩
    rcases h with h | ⟨a', ha, he⟩
    · cases h
    · cases ha
      exact he

theorem map_eq_ok {x : Except ε α} {f : α → β} {b : β} :
    x.map f = .ok b ↔ ∃ a, x = .ok a ∧ f a = b := by
  cases x <;> simp [Except.map]

theorem map_eq_error {x : Except ε α} {f : α → β} {e : ε} : x.map f = .error e ↔ x = .error e := by
  cases x <;> simp [Except.map]

theorem bind_of_map {x : Except ε α} {f : α → β} {g : β → Except ε γ} :
    (x.map f >>= g) = x >>= fun a => g (f a) := by
  cases x <;> rfl

theorem mapError_eq_ok {x : Except ε α} (f : ε → δ) {a : α} :
    x.mapError f = .ok a ↔ x = .ok a := by
  cases x with
  | error d => exact ⟨nofun, nofun⟩
  | ok b => exact ⟨fun h => (by cases h; rfl), fun h => (by cases h; rfl)⟩

/-! ## lists -/

theorem forM_eq_ok {f : α → Except ε Unit} {l : List α} :
    l.forM f = .ok () ↔ ∀ x ∈ l, f x = .ok () := by
  induction l with
  | nil => exact ⟨fun _ x hx => absurd hx List.not_mem_nil, fun _ => rfl⟩
  | cons x l ih =>
    show (f x >>= fun _ => l.forM f) = .ok () ↔ _
    rw [bind_eq_ok, List.forall_mem_cons, ← ih]
    exact ⟨fun ⟨_, hx, hl⟩ => ⟨hx, hl⟩, fun ⟨hx, hl⟩ => ⟨(), hx, hl⟩⟩

/-- the fault of a check is that of the first member that has one -/
theorem forM_eq_error_iff {f : α → Except ε Unit} {l : List α} {e : ε} : l.forM f = .error e ↔
    ∃ before x after, l = before ++ x :: after ∧ (∀ y ∈ before, f y = .ok ()) ∧
      f x = .error e := by
  induction l with
  | nil =>
    refine ⟨fun h => ?_, fun ⟨before, x, after, h, _⟩ => ?_⟩
    · cases h
    · cases before <;> cases h
  | cons z l ih =>
    show (f z >>= fun _ => l.forM f) = .error e ↔ _
    rw [bind_eq_error]
    constructor
    · rintro (hz | ⟨_, hz, hl⟩)
      · exact ⟨[], z, l, rfl, fun y hy => absurd hy List.not_mem_nil, hz⟩
      · obtain ⟨before, x, after, rfl, hb, hx⟩ := ih.mp hl
        exact ⟨z :: before, x, after, rfl, List.forall_mem_cons.mpr ⟨hz, hb⟩, hx⟩
    · rintro ⟨before, x, after, heq, hb, hx⟩
      cases before with
      | nil =>
        cases heq
        exact .inl hx
      | cons y before =>
        cases heq
        obtain ⟨hz, hb⟩ := List.forall_mem_cons.mp hb
        exact .inr ⟨(), hz, ih.mpr ⟨before, x, after, rfl, hb, hx⟩⟩

theorem forM_eq_error {f : α → Except ε Unit} {l : List α} {e : ε} (h : l.forM f = .error e) :
    ∃ x ∈ l, f x = .error e := by
  obtain ⟨before, x, after, rfl, _, hx⟩ := forM_eq_error_iff.mp h
  exact ⟨x, List.mem_append_right _ List.mem_cons_self, hx⟩

theorem forM_flatMap {f : β → Except ε Unit} (g : α → List β) (l : List α) :
    (l.flatMap g).forM f = l.forM fun x => (g x).forM f := by
  induction l with
  | nil => rfl
  | cons x l ih =>
    have happend : (g x ++ l.flatMap g).forM f = (g x).forM f >>= fun _ => (l.flatMap g).forM f :=
      List.forM_append
    rw [List.flatMap_cons, happend, ih]
    rfl

theorem map_mapM_cons {f : α → Except ε β} {g : List β → γ} (x : α) (l : List α) :
    ((x :: l).mapM f).map g = f x >>= fun y => (l.mapM f).map fun ys => g (y :: ys) := by
  rw [List.mapM_cons]
  cases f x with
  | error e => rfl
  | ok y =>
    show (l.mapM f >>= fun ys => _).map g = _
    cases l.mapM f <;> rfl

theorem mapM_eq_ok {f : α → Except ε β} {l : List α} {ys : List β} :
    l.mapM f = .ok ys ↔ List.Forall₂ (fun x y => f x = .ok y) l ys := by
  induction l generalizing ys with
  | nil =>
    rw [List.mapM_nil, List.forall₂_nil_left_iff]
    exact ⟨fun h => by cases h; rfl, fun h => by rw [h]; rfl⟩
  | cons x l ih =>
    rw [List.mapM_cons, bind_eq_ok, List.forall₂_cons_left_iff]
    constructor
    · intro ⟨y, hy, h⟩
      obtain ⟨zs, hzs, h⟩ := bind_eq_ok.mp h
      cases h
      exact ⟨y, zs, hy, ih.mp hzs, rfl⟩
    · rintro ⟨y, zs, hy, hzs, rfl⟩
      exact ⟨y, hy, bind_eq_ok.mpr ⟨zs, ih.mpr hzs, rfl⟩⟩

theorem foldlM_eq_ok {f : β → α → Except ε β} {l : List α} {b c : β} (h : l.foldlM f b = .ok c) :
    ∀ x ∈ l, ∃ b' c', f b' x = .ok c' := by
  induction l generalizing b with
  | nil => exact fun x hx => absurd hx List.not_mem_nil
  | cons y l ih =>
    rw [List.foldlM_cons] at h
    obtain ⟨b', hy, h⟩ := bind_eq_ok.mp h
    exact List.forall_mem_cons.mpr ⟨⟨b, b', hy⟩, ih h⟩

theorem foldlM_eq_error {f : β → α → Except ε β} {l : List α} {b : β} {e : ε}
    (h : l.foldlM f b = .error e) : ∃ x ∈ l, ∃ b', f b' x = .error e := by
  induction l generalizing b with
  | nil => cases h
  | cons y l ih =>
    rw [List.foldlM_cons] at h
    rcases bind_eq_error.mp h with hy | ⟨b', _, h⟩
    · exact ⟨y, List.mem_cons_self, b, hy⟩
    · obtain ⟨x, hx, hf⟩ := ih h
      exact ⟨x, List.mem_cons_of_mem _ hx, hf⟩

/-- members that can be related one by one can be related as a list -/
theorem exists_forall₂ {R : α → β → Prop} {l : List α} (h : ∀ x ∈ l, ∃ y, R x y) :
    ∃ ys, List.Forall₂ R l ys := by
  induction l with
  | nil => exact ⟨[], .nil⟩
  | cons x l ih =>
    obtain ⟨y, hy⟩ := h x List.mem_cons_self
    obtain ⟨ys, hys⟩ := ih fun z hz => h z (List.mem_cons_of_mem _ hz)
    exact ⟨y :: ys, .cons hy hys⟩

theorem exists_getElem?_of_forall₂ {R : α → β → Prop} {l : List α} {ys : List β}
    (h : List.Forall₂ R l ys) {i : Nat} {y : β} (hy : ys[i]? = some y) :
    ∃ x, l[i]? = some x ∧ R x y := by
  obtain ⟨hi, rfl⟩ := List.getElem?_eq_some_iff.mp hy
  obtain ⟨hlen, hR⟩ := List.forall₂_iff_get.mp h
  have hil : i < l.length := hlen ▸ hi
  exact ⟨l[i], List.getElem?_eq_getElem hil, hR i hil hi⟩

theorem exists_mem_of_forall₂ {R : α → β → Prop} {l : List α} {ys : List β}
    (h : List.Forall₂ R l ys) {y : β} (hy : y ∈ ys) : ∃ x ∈ l, R x y := by
  obtain ⟨i, hi⟩ := List.mem_iff_getElem?.mp hy
  obtain ⟨x, hx, hR⟩ := exists_getElem?_of_forall₂ h hi
  exact ⟨x, List.mem_of_getElem? hx, hR⟩

end

end ScriptHeap
