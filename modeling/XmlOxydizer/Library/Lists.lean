import Mathlib

/-!
# Counted loops, stacks and running totals on lists

A counted loop that can fail is determined by the value it has after each round. Two
stacks that grow at the end are related entry by entry. A running total exceeds a limit at
one entry of the list, if at all. A loop of checks returns the first error.
-/

namespace Lists

/-- A loop over `0, …, n - 1` runs through the values `f 0, …, f n`. -/
theorem foldlM_range_eq {ε β : Type*} {step : β → ℕ → Except ε β} {f : ℕ → β} (n : ℕ)
    (h : ∀ k, k < n → step (f k) k = .ok (f (k + 1))) :
    (List.range n).foldlM step (f 0) = .ok (f n) := by
  induction n with
  | zero => rfl
  | succ n ih =>
    rw [List.range_succ, List.foldlM_append, ih (fun k hk => h k (by omega))]
    change (do let s ← step (f n) n; List.foldlM step s []) = _
    rw [h n (by omega)]
    rfl

section Stacks

variable {α β : Type*} {r : α → β → Prop}

lemma forall₂_concat {as : List α} {bs : List β} {a : α} {b : β}
    (h : List.Forall₂ r as bs) (hab : r a b) : List.Forall₂ r (as ++ [a]) (bs ++ [b]) :=
  List.rel_append h (.cons hab .nil)

/-- A stack related to a stack with a top has a related top. -/
lemma forall₂_concat_left {as : List α} {a : α} {bs : List β}
    (h : List.Forall₂ r (as ++ [a]) bs) :
    ∃ bs' b, bs = bs' ++ [b] ∧ List.Forall₂ r as bs' ∧ r a b := by
  induction bs using List.reverseRecOn with
  | nil => simpa using h.length_eq
  | append_singleton bs b =>
    have hrev := List.forall₂_reverse_iff.mpr h
    simp only [List.reverse_append, List.reverse_cons, List.reverse_nil, List.nil_append,
      List.cons_append, List.forall₂_cons, List.forall₂_reverse_iff] at hrev
    exact ⟨bs, b, rfl, hrev.2, hrev.1⟩

lemma forall₂_concat_iff {as : List α} {bs : List β} {a : α} {b : β} :
    List.Forall₂ r (as ++ [a]) (bs ++ [b]) ↔ List.Forall₂ r as bs ∧ r a b := by
  constructor
  · intro h
    obtain ⟨bs', b', hbs, has, hab⟩ := forall₂_concat_left h
    obtain ⟨rfl, hb⟩ := List.append_inj' hbs rfl
    simp only [List.cons.injEq, and_true] at hb
    exact ⟨has, hb ▸ hab⟩
  · exact fun h => forall₂_concat h.1 h.2

/-- Where the relation of two entries depends on the first alone, so does the relation of
the lists. -/
lemma forall₂_iff_forall {p : α → Prop} {as : List α} {bs : List β}
    (h : List.Forall₂ (fun a b => r a b ↔ p a) as bs) : List.Forall₂ r as bs ↔ ∀ a ∈ as, p a := by
  induction h with
  | nil => simp
  | cons hab _ ih => simp [hab, ih]

end Stacks

section RunningTotal

variable {α : Type*} {cost : α → ℕ} {limit total : ℕ} {as pre : List α} {a : α}

/-- Counted from `total` on, the costs of the list exceed the limit at the entry `a` behind `pre`. -/
structure ExceedsAt (cost : α → ℕ) (limit total : ℕ) (as pre : List α) (a : α) : Prop where
  split : ∃ rest, as = pre ++ a :: rest
  within : total + (pre.map cost).sum ≤ limit
  beyond : limit < total + (pre.map cost).sum + cost a

lemma ExceedsAt.head (h : total ≤ limit) (hbeyond : limit < total + cost a) :
    ExceedsAt cost limit total (a :: as) [] a :=
  ⟨⟨as, rfl⟩, by simpa using h, by simpa using hbeyond⟩

lemma ExceedsAt.cons {b : α} (h : ExceedsAt cost limit (total + cost b) as pre a) :
    ExceedsAt cost limit total (b :: as) (b :: pre) a := by
  obtain ⟨⟨rest, rfl⟩, hwithin, hbeyond⟩ := h
  refine ⟨⟨rest, rfl⟩, ?_, ?_⟩
  · rwa [List.map_cons, List.sum_cons, ← Nat.add_assoc]
  · rwa [List.map_cons, List.sum_cons, ← Nat.add_assoc]

lemma ExceedsAt.sum_gt (h : ExceedsAt cost limit total as pre a) : limit < total + (as.map cost).sum := by
  obtain ⟨⟨rest, rfl⟩, hwithin, hbeyond⟩ := h
  rw [List.map_append, List.sum_append, List.map_cons, List.sum_cons]
  omega

/-- The costs exceed the limit at some entry exactly when their sum does. -/
theorem exists_exceedsAt (h : total ≤ limit) :
    (∃ pre a, ExceedsAt cost limit total as pre a) ↔ limit < total + (as.map cost).sum := by
  constructor
  · rintro ⟨pre, a, hexceeds⟩
    exact hexceeds.sum_gt
  · intro hsum
    induction as generalizing total with
    | nil =>
      rw [List.map_nil, List.sum_nil] at hsum
      omega
    | cons b as ih =>
      by_cases hb : total + cost b ≤ limit
      · rw [List.map_cons, List.sum_cons, ← Nat.add_assoc] at hsum
        obtain ⟨pre, a, hexceeds⟩ := ih hb hsum
        exact ⟨b :: pre, a, hexceeds.cons⟩
      · exact ⟨[], b, .head h (by omega)⟩

end RunningTotal

section Checks

variable {α ε : Type*} {run : List α → Except ε Unit} {check : α → Except ε Unit}

/-- A loop of checks passes when every check does. -/
lemma checks_eq_ok (hnil : run [] = .ok ()) (hcons : ∀ x xs, run (x :: xs) = check x >>= fun _ => run xs)
    {xs : List α} : run xs = .ok () ↔ ∀ x ∈ xs, check x = .ok () := by
  induction xs with
  | nil => simp [hnil]
  | cons x xs ih =>
    rw [hcons, List.forall_mem_cons, ← ih]
    cases hx : check x with
    | error e => simp [bind, Except.bind]
    | ok u => exact (and_iff_right rfl).symm

/-- A loop of checks that stops at the first error returns the error of the first check that fails. -/
theorem checks_eq_error (hnil : run [] = .ok ()) (hcons : ∀ x xs, run (x :: xs) = check x >>= fun _ => run xs)
    {xs : List α} {e : ε} : run xs = .error e ↔
      ∃ before x after, xs = before ++ x :: after ∧ (∀ y ∈ before, check y = .ok ()) ∧ check x = .error e := by
  induction xs with
  | nil => simp [hnil]
  | cons x xs ih =>
    rw [hcons]
    cases hx : check x with
    | error e' =>
      constructor
      · intro h
        exact ⟨[], x, xs, rfl, by simp, hx.trans h⟩
      · rintro ⟨before, y, after, hxs, hbefore, hy⟩
        cases before with
        | nil =>
          obtain ⟨rfl, rfl⟩ := List.cons.inj hxs
          exact hx.symm.trans hy
        | cons z before =>
          obtain ⟨rfl, -⟩ := List.cons.inj hxs
          rw [hbefore x List.mem_cons_self] at hx
          cases hx
    | ok u =>
      apply ih.trans
      constructor
      · rintro ⟨before, y, after, rfl, hbefore, hy⟩
        exact ⟨x :: before, y, after, rfl, List.forall_mem_cons.mpr ⟨hx, hbefore⟩, hy⟩
      · rintro ⟨before, y, after, hxs, hbefore, hy⟩
        cases before with
        | nil =>
          obtain ⟨rfl, -⟩ := List.cons.inj hxs
          rw [hy] at hx
          cases hx
        | cons z before =>
          obtain ⟨-, rfl⟩ := List.cons.inj hxs
          exact ⟨before, y, after, rfl, (List.forall_mem_cons.mp hbefore).2, hy⟩

end Checks

end Lists
