import Mathlib.Algebra.Order.Ring.Int
import Mathlib.Data.List.Forall2

/-!
# Objects with shared owners

A heap of objects that are released with their last owner. A cell keeps the object and the number of
its owners, as `std::shared_ptr` does; a pointer is never used again for another object, so that a
use of it after its object is gone can be told from a use of the next object at the same place. Such
a use is `none`.

* `Counted heap owners` is the invariant: each cell has as many owners as it says, and an object
  without an owner is gone. It is kept by `alloc`, `retain` and `release`.
* `Moves heap heap' owners` says what the owners and others can rely on meanwhile: the objects that
  are owned do not change, and an object that is gone does not come back.
* Variables that own objects are related to what they stand for by a relation that looks at the
  objects they own (`Framed`). `set_of_forall₂` is the rule for a change of one of many variables.
-/

/-- A heap of reference-counted objects. -/
structure SharedHeap (α : Type*) where
  /-- The objects, with their numbers of owners. -/
  cells : ℕ → Option (α × ℕ)
  /-- The pointers from here on have not been used. -/
  next : ℕ

namespace SharedHeap

variable {α : Type*}

def empty : SharedHeap α := ⟨fun _ ↦ none, 0⟩

/-- The object that a pointer points to. -/
def get (heap : SharedHeap α) (p : ℕ) : Option α := (heap.cells p).map Prod.fst

/-- Make an object, with one owner. It is at `heap.next`. -/
def alloc (heap : SharedHeap α) (a : α) : SharedHeap α :=
  ⟨Function.update heap.cells heap.next (some (a, 1)), heap.next + 1⟩

/-- Change one cell. -/
def set (heap : SharedHeap α) (p : ℕ) (cell : Option (α × ℕ)) : SharedHeap α :=
  { heap with cells := Function.update heap.cells p cell }

/-- Add an owner. -/
def retain (heap : SharedHeap α) (p : ℕ) : Option (SharedHeap α) :=
  match heap.cells p with
  | none => none
  | some (a, n) => some (heap.set p (some (a, n + 1)))

/-- Remove an owner, and the object with its last one. -/
def release (heap : SharedHeap α) (p : ℕ) : Option (SharedHeap α) :=
  match heap.cells p with
  | none => none
  | some (a, n) => some (heap.set p (if n = 1 then none else some (a, n - 1)))

/-- Add owners one after another. -/
def retainAll (heap : SharedHeap α) (ps : List ℕ) : Option (SharedHeap α) := ps.foldlM retain heap

/-- Remove owners one after another. -/
def releaseAll (heap : SharedHeap α) (ps : List ℕ) : Option (SharedHeap α) := ps.foldlM release heap

/-! ### The invariant -/

/-- The cells are those of the objects that have owners. -/
structure Counted (heap : SharedHeap α) (owners : List ℕ) : Prop where
  count_eq : ∀ p, (heap.cells p).map Prod.snd =
    if owners.count p = 0 then none else some (owners.count p)
  fresh : ∀ p, heap.next ≤ p → heap.cells p = none

/-- What the owners of objects can rely on. -/
structure Moves (heap heap' : SharedHeap α) (owners : List ℕ) : Prop where
  /-- The objects that are owned do not change. -/
  kept : ∀ p ∈ owners, heap'.get p = heap.get p
  /-- An object that is gone does not come back. -/
  stale : ∀ p < heap.next, ∀ a, heap'.get p = some a → heap.get p = some a
  next_le : heap.next ≤ heap'.next

theorem Moves.refl (heap : SharedHeap α) (owners : List ℕ) : heap.Moves heap owners :=
  ⟨fun _ _ ↦ rfl, fun _ _ _ h ↦ h, le_rfl⟩

theorem Moves.trans {heap heap' heap'' : SharedHeap α} {owners owners' : List ℕ}
    (h : heap.Moves heap' owners) (h' : heap'.Moves heap'' owners') (hle : owners' ⊆ owners) :
    heap.Moves heap'' owners' where
  kept p hp := (h'.kept p hp).trans (h.kept p (hle hp))
  stale p hp a ha := h.stale p hp a (h'.stale p (hp.trans_le h.next_le) a ha)
  next_le := h.next_le.trans h'.next_le

theorem Moves.mono {heap heap' : SharedHeap α} {owners owners' : List ℕ}
    (h : heap.Moves heap' owners) (hle : owners' ⊆ owners) : heap.Moves heap' owners' :=
  ⟨fun p hp ↦ h.kept p (hle hp), h.stale, h.next_le⟩

variable {heap : SharedHeap α} {owners : List ℕ}

theorem counted_empty : (empty : SharedHeap α).Counted [] :=
  ⟨fun _ ↦ rfl, fun _ _ ↦ rfl⟩

/-- The order of the owners does not matter. -/
theorem Counted.perm (h : heap.Counted owners) {owners' : List ℕ} (hperm : owners.Perm owners') :
    heap.Counted owners' :=
  ⟨fun p ↦ hperm.count_eq p ▸ h.count_eq p, h.fresh⟩

theorem Counted.cells_eq (h : heap.Counted owners) {p : ℕ} (hp : p ∈ owners) :
    ∃ a, heap.cells p = some (a, owners.count p) := by
  have hcount := h.count_eq p
  rw [if_neg (List.count_pos_iff.2 hp).ne'] at hcount
  obtain ⟨⟨a, n⟩, hcell, rfl⟩ := Option.map_eq_some_iff.1 hcount
  exact ⟨a, hcell⟩

theorem Counted.exists_get (h : heap.Counted owners) {p : ℕ} (hp : p ∈ owners) :
    ∃ a, heap.get p = some a := by
  obtain ⟨a, hcell⟩ := h.cells_eq hp
  exact ⟨a, by rw [get, hcell]; rfl⟩

theorem Counted.get_eq_none (h : heap.Counted owners) {p : ℕ} (hp : p ∉ owners) :
    heap.get p = none := by
  have hcount := h.count_eq p
  rw [if_pos (List.count_eq_zero.2 hp), Option.map_eq_none_iff] at hcount
  rw [get, hcount]
  rfl

theorem Counted.lt_next (h : heap.Counted owners) {p : ℕ} (hp : p ∈ owners) : p < heap.next := by
  obtain ⟨a, hcell⟩ := h.cells_eq hp
  rcases Nat.lt_or_ge p heap.next with hlt | hge
  · exact hlt
  · exact absurd (hcell.symm.trans (h.fresh p hge)) (by simp)

/-! ### The operations keep it -/

theorem Counted.alloc (h : heap.Counted owners) (a : α) :
    (heap.alloc a).Counted (heap.next :: owners) ∧ heap.Moves (heap.alloc a) owners ∧
      (heap.alloc a).get heap.next = some a := by
  have hnext : heap.next ∉ owners := fun hp ↦ absurd (h.lt_next hp) (Nat.lt_irrefl _)
  have hother {p : ℕ} (hp : p ≠ heap.next) : (heap.alloc a).cells p = heap.cells p :=
    Function.update_of_ne hp _ _
  have hself : (heap.alloc a).cells heap.next = some (a, 1) := Function.update_self _ _ _
  refine ⟨⟨fun p ↦ ?_, fun p hp ↦ ?_⟩, ⟨fun p hp ↦ ?_, fun p hp b hb ↦ ?_, Nat.le_succ _⟩, ?_⟩
  · rcases eq_or_ne p heap.next with rfl | hne
    · rw [hself, List.count_cons_self, List.count_eq_zero.2 hnext]
      rfl
    · rw [hother hne, h.count_eq, List.count_cons_of_ne hne.symm]
  · have hlt : heap.next < p := hp
    rw [hother (Nat.ne_of_gt hlt), h.fresh p hlt.le]
  · have hne : p ≠ heap.next := fun heq ↦ hnext (heq ▸ hp)
    rw [get, hother hne, get]
  · rwa [get, hother (Nat.ne_of_lt hp)] at hb
  · rw [get, hself]
    rfl

/-- A change of the number of owners of one object. -/
theorem Counted.set (h : heap.Counted owners) {p : ℕ} {a : α} {n : ℕ}
    (hcell : heap.cells p = some (a, n)) {owners' : List ℕ}
    (hcount : ∀ q ≠ p, owners'.count q = owners.count q) {cell : Option (α × ℕ)}
    (hnew : cell = if owners'.count p = 0 then none else some (a, owners'.count p)) :
    (heap.set p cell).Counted owners' ∧ heap.Moves (heap.set p cell) owners' := by
  have hself : (heap.set p cell).cells p = cell := Function.update_self _ _ _
  have hother {q : ℕ} (hq : q ≠ p) : (heap.set p cell).cells q = heap.cells q :=
    Function.update_of_ne hq _ _
  refine ⟨⟨fun q ↦ ?_, fun q hq ↦ ?_⟩, fun q hq ↦ ?_, fun q _ b hb ↦ ?_, le_rfl⟩
  · rcases eq_or_ne q p with rfl | hne
    · rw [hself, hnew]
      split <;> rfl
    · rw [hother hne, h.count_eq, hcount q hne]
  · have hne : q ≠ p := fun heq ↦
      absurd (hcell.symm.trans (h.fresh p (heq ▸ hq))) (by simp)
    rw [hother hne, h.fresh q hq]
  · rcases eq_or_ne q p with rfl | hne
    · rw [get, get, hself, hnew, if_neg (List.count_pos_iff.2 hq).ne', hcell]
      rfl
    · rw [get, get, hother hne]
  · rcases eq_or_ne q p with rfl | hne
    · rw [get, hself, hnew] at hb
      split at hb
      · exact absurd hb (by simp)
      · rw [get, hcell]
        exact hb
    · rwa [get, hother hne] at hb

theorem Counted.retain (h : heap.Counted owners) {p : ℕ} (hp : p ∈ owners) :
    ∃ heap', heap.retain p = some heap' ∧ heap'.Counted (p :: owners) ∧
      heap.Moves heap' (p :: owners) := by
  obtain ⟨a, hcell⟩ := h.cells_eq hp
  refine ⟨_, by rw [SharedHeap.retain, hcell], h.set hcell (fun q hq ↦ ?_) ?_⟩
  · exact List.count_cons_of_ne hq.symm
  · rw [List.count_cons_self, if_neg (Nat.succ_ne_zero _)]

theorem Counted.release {p : ℕ} (h : heap.Counted (p :: owners)) :
    ∃ heap', heap.release p = some heap' ∧ heap'.Counted owners ∧ heap.Moves heap' owners := by
  obtain ⟨a, hcell⟩ := h.cells_eq List.mem_cons_self
  rw [List.count_cons_self] at hcell
  refine ⟨_, by rw [SharedHeap.release, hcell], h.set hcell (fun q hq ↦ ?_) ?_⟩
  · exact (List.count_cons_of_ne hq.symm).symm
  · simp only [Nat.add_sub_cancel, Nat.add_eq_right]

theorem Counted.retainAll {ps : List ℕ} (h : heap.Counted owners) (hps : ps ⊆ owners) :
    ∃ heap', heap.retainAll ps = some heap' ∧ heap'.Counted (ps ++ owners) ∧
      heap.Moves heap' (ps ++ owners) := by
  induction ps generalizing heap owners with
  | nil => exact ⟨heap, rfl, h, Moves.refl heap _⟩
  | cons p ps ih =>
    obtain ⟨heap₁, hretain, hcounted₁, hmoves₁⟩ := h.retain (hps List.mem_cons_self)
    obtain ⟨heap₂, hall, hcounted₂, hmoves₂⟩ := ih hcounted₁
      (fun q hq ↦ List.mem_cons_of_mem _ (hps (List.mem_cons_of_mem _ hq)))
    have hperm : (ps ++ p :: owners).Perm (p :: ps ++ owners) := List.perm_middle
    refine ⟨heap₂, ?_, hcounted₂.perm hperm, ?_⟩
    · rw [SharedHeap.retainAll, List.foldlM_cons, hretain]
      exact hall
    · refine (hmoves₁.trans (hmoves₂.mono hperm.symm.subset) fun q hq ↦ ?_)
      rcases List.mem_append.1 hq with hq | hq
      · exact List.mem_cons_of_mem _ (hps hq)
      · exact List.mem_cons_of_mem _ hq

theorem Counted.releaseAll {ps : List ℕ} (h : heap.Counted (ps ++ owners)) :
    ∃ heap', heap.releaseAll ps = some heap' ∧ heap'.Counted owners ∧
      heap.Moves heap' owners := by
  induction ps generalizing heap with
  | nil => exact ⟨heap, rfl, h, Moves.refl heap _⟩
  | cons p ps ih =>
    obtain ⟨heap₁, hrelease, hcounted₁, hmoves₁⟩ := Counted.release h
    obtain ⟨heap₂, hall, hcounted₂, hmoves₂⟩ := ih hcounted₁
    refine ⟨heap₂, ?_, hcounted₂, hmoves₁.trans hmoves₂ (List.subset_append_right _ _)⟩
    rw [SharedHeap.releaseAll, List.foldlM_cons, hrelease]
    exact hall

/-! ### Variables that own objects -/

section Vars

variable {β γ : Type*} {own : β → List ℕ} {R : SharedHeap α → β → γ → Prop}

/-- What a variable stands for depends on nothing but the objects it owns. -/
def Framed (own : β → List ℕ) (R : SharedHeap α → β → γ → Prop) : Prop :=
  ∀ ⦃heap heap' : SharedHeap α⦄ ⦃owners : List ℕ⦄ ⦃b : β⦄ ⦃c : γ⦄,
    heap.Moves heap' owners → own b ⊆ owners → R heap b c → R heap' b c

/-- Lists of such variables are such variables. -/
theorem Framed.forall₂ (hR : Framed own R) :
    Framed (fun l ↦ l.flatMap own) fun heap l l' ↦ List.Forall₂ (R heap) l l' := by
  intro heap heap' owners l l' hmoves hown h
  induction h with
  | nil => exact .nil
  | cons hb _ ih =>
    dsimp only at hown
    rw [List.flatMap_cons, List.append_subset] at hown
    exact .cons (hR hmoves hown.1 hb) (ih hown.2)

/-- **One of many variables changes**: the owners are those of its value and a rest that stays. -/
theorem set_of_forall₂ (hR : Framed own R) {l : List β} {l' : List γ}
    (h : List.Forall₂ (R heap) l l') {i : ℕ} {b : β} (hb : l[i]? = some b) :
    ∃ c rest, l'[i]? = some c ∧ R heap b c ∧ (l.flatMap own).Perm (own b ++ rest) ∧
      ∀ {heap' : SharedHeap α} {owners : List ℕ} {b' : β} {c' : γ}, heap.Moves heap' owners →
        rest ⊆ owners → R heap' b' c' → List.Forall₂ (R heap') (l.set i b') (l'.set i c') ∧
          ((l.set i b').flatMap own).Perm (own b' ++ rest) := by
  induction h generalizing i with
  | nil => exact absurd hb (by simp)
  | @cons a a' l l' ha h ih =>
    rcases i with - | i
    · obtain rfl : a = b := by simpa using hb
      refine ⟨a', l.flatMap own, rfl, ha, by rw [List.flatMap_cons], fun hmoves hrest hnew ↦ ?_⟩
      refine ⟨.cons hnew (hR.forall₂ hmoves hrest h), ?_⟩
      rw [List.set_cons_zero, List.flatMap_cons]
    · obtain ⟨c, rest, hc, hbc, hperm, hset⟩ := ih (show l[i]? = some b by simpa using hb)
      refine ⟨c, own a ++ rest, by simpa using hc, hbc, ?_, fun hmoves hrest hnew ↦ ?_⟩
      · rw [List.flatMap_cons]
        exact (hperm.append_left _).trans (List.perm_append_comm_assoc _ _ _)
      · rw [List.append_subset] at hrest
        obtain ⟨hall, hperm'⟩ := hset hmoves hrest.2 hnew
        refine ⟨.cons (hR hmoves hrest.1 ha) hall, ?_⟩
        rw [List.set_cons_succ, List.flatMap_cons]
        exact (hperm'.append_left _).trans (List.perm_append_comm_assoc _ _ _)

theorem getElem?_of_forall₂ {l : List β} {l' : List γ} (h : List.Forall₂ (R heap) l l') {i : ℕ}
    (hi : l[i]? = none) : l'[i]? = none := by
  rw [List.getElem?_eq_none_iff] at hi ⊢
  exact h.length_eq ▸ hi

end Vars

end SharedHeap
