import Mathlib.Algebra.Order.Ring.Int
import Mathlib.Data.List.Nodup

/-!
# Things that are used until they are retired

A register of things that are added, used any number of times, and retired by a last use. The uses
are in a log, as pairs of a key and what was done; `final` tells the last uses from the others.

`Valid` is the invariant that joins what has been added, what is still live, and the log: **what is
live is what was added and not retired, in the same order**, and nothing stands in the log after the
last use of the same thing. It is kept by adding something new (`Valid.add`), by using something
live (`Valid.uses`) and by retiring something live (`Valid.retire`), and so by any sequence of
these.
-/

namespace Lifetime

variable {ν α β : Type*} [DecidableEq α] {key : ν → α} {final : β → Bool}

/-- The log has a last use of `a`. -/
def retired (final : β → Bool) (log : List (α × β)) (a : α) : Bool :=
  log.any fun e ↦ decide (e.1 = a) && final e.2

/-- The register is in order. -/
structure Valid (key : ν → α) (final : β → Bool) (added live : List ν) (log : List (α × β)) :
    Prop where
  nodup : (added.map key).Nodup
  live_eq : live = added.filter fun x ↦ !retired final log (key x)
  mem_added : ∀ e ∈ log, ∃ x ∈ added, key x = e.1
  last : log.Pairwise fun e e' ↦ final e.2 = true → e'.1 ≠ e.1

variable {added live : List ν} {log : List (α × β)} {x : ν}

theorem retired_iff {a : α} : retired final log a = true ↔ ∃ b, (a, b) ∈ log ∧ final b = true := by
  rw [retired, List.any_eq_true]
  constructor
  · rintro ⟨⟨a', b⟩, hmem, htrue⟩
    obtain ⟨heq, hfinal⟩ := Bool.and_eq_true_iff.1 htrue
    obtain rfl := of_decide_eq_true heq
    exact ⟨b, hmem, hfinal⟩
  · rintro ⟨b, hmem, hfinal⟩
    exact ⟨(a, b), hmem, by rw [decide_eq_true rfl, hfinal]; rfl⟩

theorem retired_append (log log' : List (α × β)) (a : α) :
    retired final (log ++ log') a = (retired final log a || retired final log' a) :=
  List.any_append

namespace Valid

theorem nil : Valid key final [] [] [] where
  nodup := List.nodup_nil
  live_eq := rfl
  mem_added _ h := absurd h List.not_mem_nil
  last := List.Pairwise.nil

theorem mem_live (h : Valid key final added live log) :
    x ∈ live ↔ x ∈ added ∧ retired final log (key x) = false := by
  rw [h.live_eq, List.mem_filter, Bool.not_eq_true']

/-- Something new is live. -/
theorem add (h : Valid key final added live log) (hx : ∀ y ∈ added, key y ≠ key x) :
    Valid key final (added ++ [x]) (live ++ [x]) log where
  nodup := by
    rw [List.map_append, List.nodup_append]
    refine ⟨h.nodup, List.nodup_singleton _, ?_⟩
    intro a ha b hb
    obtain ⟨y, hy, rfl⟩ := List.mem_map.1 ha
    obtain rfl := List.mem_singleton.1 hb
    exact hx y hy
  live_eq := by
    have hnew : retired final log (key x) = false := by
      rw [← Bool.not_eq_true, retired_iff]
      rintro ⟨b, hmem, -⟩
      obtain ⟨y, hy, heq⟩ := h.mem_added _ hmem
      exact hx y hy heq
    rw [List.filter_append, ← h.live_eq, List.filter_singleton, hnew]
    rfl
  mem_added e he := by
    obtain ⟨y, hy, heq⟩ := h.mem_added e he
    exact ⟨y, List.mem_append_left _ hy, heq⟩
  last := h.last

/-- One more entry for something live keeps the log in order. -/
theorem last_concat (h : Valid key final added live log) (hx : x ∈ live) (b : β) :
    (log ++ [(key x, b)]).Pairwise fun e e' ↦ final e.2 = true → e'.1 ≠ e.1 := by
  rw [List.pairwise_append]
  refine ⟨h.last, List.pairwise_singleton _ _, ?_⟩
  rintro ⟨a, c⟩ hmem e' he' hfinal heq
  obtain rfl := List.mem_singleton.1 he'
  obtain rfl : key x = a := heq
  have hretired := retired_iff.2 ⟨c, hmem, hfinal⟩
  rw [(h.mem_live.1 hx).2] at hretired
  cases hretired

theorem mem_added_concat (h : Valid key final added live log) (hx : x ∈ live) (b : β) :
    ∀ e ∈ log ++ [(key x, b)], ∃ y ∈ added, key y = e.1 := by
  intro e he
  rcases List.mem_append.1 he with he | he
  · exact h.mem_added e he
  · obtain rfl := List.mem_singleton.1 he
    exact ⟨x, (h.mem_live.1 hx).1, rfl⟩

/-- **Using** something live leaves it live. -/
theorem use (h : Valid key final added live log) (hx : x ∈ live) {b : β} (hb : final b = false) :
    Valid key final added live (log ++ [(key x, b)]) where
  nodup := h.nodup
  live_eq := by
    have hsame : ∀ a, retired final (log ++ [(key x, b)]) a = retired final log a := by
      intro a
      rw [retired_append]
      simp [retired, hb]
    simp only [hsame]
    exact h.live_eq
  mem_added := h.mem_added_concat hx b
  last := h.last_concat hx b

theorem uses (h : Valid key final added live log) (hx : x ∈ live) {bs : List β}
    (hbs : ∀ b ∈ bs, final b = false) :
    Valid key final added live (log ++ bs.map (key x, ·)) := by
  induction bs generalizing log with
  | nil => rwa [List.map_nil, List.append_nil]
  | cons b bs ih =>
    rw [List.map_cons, ← List.singleton_append, ← List.append_assoc]
    exact ih (h.use hx (hbs b List.mem_cons_self)) fun c hc ↦ hbs c (List.mem_cons_of_mem b hc)

/-- **Retiring** something live takes it away, and nothing else. -/
theorem retire {l₁ l₂ : List ν} (h : Valid key final added (l₁ ++ x :: l₂) log) {b : β}
    (hb : final b = true) : Valid key final added (l₁ ++ l₂) (log ++ [(key x, b)]) where
  nodup := h.nodup
  live_eq := by
    have hkeys : (key x :: (l₁ ++ l₂).map key).Nodup := by
      have hlive : ((l₁ ++ x :: l₂).map key).Nodup := by
        rw [h.live_eq]
        exact h.nodup.sublist (List.filter_sublist.map key)
      rw [List.map_append, List.map_cons, List.nodup_middle] at hlive
      rwa [List.map_append]
    have hsplit : (fun y ↦ !retired final (log ++ [(key x, b)]) (key y)) =
        fun y ↦ !decide (key x = key y) && !retired final log (key y) := by
      funext y
      rw [retired_append, Bool.not_or, Bool.and_comm]
      simp [retired, hb]
    have hrest : ∀ y ∈ l₁ ++ l₂, (!decide (key x = key y)) = true := by
      intro y hy
      rw [Bool.not_eq_true', decide_eq_false_iff_not]
      exact fun heq ↦ (List.nodup_cons.1 hkeys).1 (List.mem_map.2 ⟨y, hy, heq.symm⟩)
    rw [hsplit, ← List.filter_filter, ← h.live_eq, List.filter_append,
      List.filter_cons_of_neg (by simp), ← List.filter_append, List.filter_eq_self.2 hrest]
  mem_added := h.mem_added_concat (List.mem_append_right _ List.mem_cons_self) b
  last := h.last_concat (List.mem_append_right _ List.mem_cons_self) b

/-- **At most one last use** of each thing. -/
theorem retired_once (h : Valid key final added live log) (a : α) :
    (log.filter fun e ↦ decide (e.1 = a) && final e.2).length ≤ 1 := by
  have hpair := h.last.filter fun e ↦ decide (e.1 = a) && final e.2
  have hmem : ∀ e ∈ log.filter fun e ↦ decide (e.1 = a) && final e.2,
      e.1 = a ∧ final e.2 = true := by
    intro e he
    obtain ⟨heq, hfinal⟩ := Bool.and_eq_true_iff.1 (List.mem_filter.1 he).2
    exact ⟨of_decide_eq_true heq, hfinal⟩
  generalize (log.filter fun e ↦ decide (e.1 = a) && final e.2) = lasts at hpair hmem ⊢
  rcases lasts with _ | ⟨e, _ | ⟨e', rest⟩⟩
  · exact Nat.zero_le 1
  · exact Nat.le_refl 1
  · -- two last uses of the same thing, one after the other
    have he := hmem e List.mem_cons_self
    have he' := hmem e' (List.mem_cons_of_mem e List.mem_cons_self)
    exact absurd (he'.1.trans he.1.symm)
      ((List.pairwise_cons.1 hpair).1 e' List.mem_cons_self he.2)

end Valid

end Lifetime
