import Mathlib

/-!
# Pre-order with a worklist

An iterator over the nodes of a forest keeps the nodes that are still to come on a stack. A round
takes the top one and pushes its children, the last one first. This file proves that the rounds end
and yield the forest in pre-order, and that pre-order goes through the positions of the forest in
document order, each of them once.
-/

namespace Worklist

universe u v w

section Iterators

variable {σ : Type u} {τ : Type w} {α : Type v}

/-- `Yields next s as`: from the state `s` the iterator yields the items `as` and ends. -/
inductive Yields (next : σ → Option (α × σ)) : σ → List α → Prop
  | done {s : σ} (h : next s = none) : Yields next s []
  | item {s s' : σ} {a : α} {as : List α} (h : next s = some (a, s')) (hrest : Yields next s' as) :
      Yields next s (a :: as)

/-- An iterator that does the same under another state. -/
lemma Yields.map {next : σ → Option (α × σ)} {next' : τ → Option (α × τ)} (f : σ → τ)
    (hnext : ∀ s, next' (f s) = (next s).map (fun r => (r.1, f r.2))) {s : σ} {as : List α}
    (h : Yields next s as) : Yields next' (f s) as := by
  induction h with
  | done h =>
    apply Yields.done
    rw [hnext, h, Option.map_none]
  | item h _ ih =>
    apply Yields.item _ ih
    rw [hnext, h, Option.map_some]

end Iterators

variable {α : Type u}

/-- One round: the top of the stack is yielded, and its children are pushed in reverse. -/
def next (children : α → List α) (stack : List α) : Option (α × List α) :=
  match stack.getLast? with
  | none => none
  | some a => some (a, stack.dropLast ++ (children a).reverse)

/-- `Preorder children as ds`: the nodes of the forest with the roots `as` are `ds`, each before
its descendants and these before its later siblings. -/
inductive Preorder (children : α → List α) : List α → List α → Prop
  | nil : Preorder children [] []
  | cons {a : α} {as ds es : List α} (hbelow : Preorder children (children a) ds)
      (hrest : Preorder children as es) : Preorder children (a :: as) (a :: (ds ++ es))

variable {children : α → List α}

/-- The rounds yield the forest on top of the stack in pre-order, and then the rest of the stack. -/
theorem Preorder.yields_append {as ds : List α} (h : Preorder children as ds) {stack es : List α}
    (hstack : Yields (next children) stack es) :
    Yields (next children) (stack ++ as.reverse) (ds ++ es) := by
  induction h generalizing stack es with
  | nil => simpa using hstack
  | @cons a as ds fs _ _ ihbelow ihrest =>
    have hround : next children (stack ++ (a :: as).reverse) =
        some (a, stack ++ as.reverse ++ (children a).reverse) := by
      rw [List.reverse_cons, ← List.append_assoc, next, List.getLast?_concat]
      simp only [List.dropLast_concat]
    rw [List.cons_append, List.append_assoc]
    apply Yields.item hround
    apply ihbelow
    exact ihrest hstack

theorem Preorder.yields {as ds : List α} (h : Preorder children as ds) :
    Yields (next children) as.reverse ds := by
  have hempty : Yields (next children) ([] : List α) [] := .done rfl
  simpa using h.yields_append hempty

/-! ### Positions -/

/-- The node at a position, which says which child to take at each level. -/
def nodeAt (children : α → List α) : List α → List ℕ → Option α
  | _, [] => none
  | as, [i] => as[i]?
  | as, i :: j :: p => as[i]?.bind (fun a => nodeAt children (children a) (j :: p))

/-- The same position with one more tree in front of the forest. -/
def shift : List ℕ → List ℕ
  | [] => []
  | i :: p => (i + 1) :: p

@[simp] lemma nodeAt_nil (as : List α) : nodeAt children as [] = none := rfl

lemma nodeAt_zero (a : α) (as : List α) {p : List ℕ} (hp : p ≠ []) :
    nodeAt children (a :: as) (0 :: p) = nodeAt children (children a) p := by
  cases p with
  | nil => exact absurd rfl hp
  | cons j p => simp [nodeAt]

@[simp] lemma nodeAt_shift (a : α) (as : List α) (p : List ℕ) :
    nodeAt children (a :: as) (shift p) = nodeAt children as p := by
  cases p with
  | nil => rfl
  | cons i p => cases p <;> simp [shift, nodeAt]

lemma ne_nil_of_nodeAt {as : List α} {p : List ℕ} (h : (nodeAt children as p).isSome) : p ≠ [] := by
  rintro rfl
  cases h

lemma shift_lt_shift {p q : List ℕ} (h : p < q) : shift p < shift q := by
  cases p with
  | nil =>
    cases q with
    | nil => exact absurd h (lt_irrefl _)
    | cons j q => exact List.nil_lt_cons _ _
  | cons i p =>
    cases q with
    | nil => exact absurd h (List.not_lt_nil _)
    | cons j q =>
      rw [List.cons_lt_cons_iff] at h
      simpa [shift, List.cons_lt_cons_iff] using h

/-- Pre-order lists the nodes by their positions: every position occurs once, in document order. -/
theorem Preorder.positions {as ds : List α} (h : Preorder children as ds) :
    ∃ ps : List (List ℕ), ps.Pairwise (· < ·) ∧ (∀ p, p ∈ ps ↔ (nodeAt children as p).isSome) ∧
      ds.map some = ps.map (nodeAt children as) := by
  induction h with
  | nil =>
    refine ⟨[], .nil, fun p => ?_, rfl⟩
    cases p with
    | nil => simp
    | cons i p => cases p <;> simp [nodeAt]
  | @cons a as ds es _ _ ihbelow ihrest =>
    obtain ⟨ps, hps, hpsmem, hds⟩ := ihbelow
    obtain ⟨qs, hqs, hqsmem, hes⟩ := ihrest
    have hpne : ∀ p ∈ ps, p ≠ [] := fun p hp => ne_nil_of_nodeAt ((hpsmem p).mp hp)
    have hqne : ∀ q ∈ qs, q ≠ [] := fun q hq => ne_nil_of_nodeAt ((hqsmem q).mp hq)
    refine ⟨[0] :: (ps.map (List.cons 0) ++ qs.map shift), ?_, fun p => ?_, ?_⟩
    · -- the node, its descendants, and then the trees behind it
      have hnode : ∀ q ∈ qs, ∀ p, (0 :: p : List ℕ) < shift q := by
        intro q hq p
        obtain ⟨i, q, rfl⟩ := List.exists_cons_of_ne_nil (hqne q hq)
        exact List.cons_lt_cons_iff.mpr (.inl (by omega))
      rw [List.pairwise_cons, List.pairwise_append, List.pairwise_map, List.pairwise_map]
      refine ⟨?_, hps.imp (fun h => List.cons_lt_cons_iff.mpr (.inr ⟨rfl, h⟩)), hqs.imp shift_lt_shift, ?_⟩
      · intro r hr
        rcases List.mem_append.mp hr with hr | hr
        · obtain ⟨p, hp, rfl⟩ := List.mem_map.mp hr
          obtain ⟨i, p, rfl⟩ := List.exists_cons_of_ne_nil (hpne p hp)
          exact List.cons_lt_cons_iff.mpr (.inr ⟨rfl, List.nil_lt_cons _ _⟩)
        · obtain ⟨q, hq, rfl⟩ := List.mem_map.mp hr
          exact hnode q hq []
      · intro r hr r' hr'
        obtain ⟨p, -, rfl⟩ := List.mem_map.mp hr
        obtain ⟨q, hq, rfl⟩ := List.mem_map.mp hr'
        exact hnode q hq p
    · have hshift : ∀ i p, (i + 1) :: p ∈ qs.map shift ↔ i :: p ∈ qs := by
        intro i p
        rw [List.mem_map]
        constructor
        · rintro ⟨q, hq, heq⟩
          obtain ⟨j, q, rfl⟩ := List.exists_cons_of_ne_nil (hqne q hq)
          simp only [shift, List.cons.injEq, Nat.add_right_cancel_iff] at heq
          rwa [← heq.1, ← heq.2]
        · exact fun hq => ⟨_, hq, rfl⟩
      have hzero : ∀ p, 0 :: p ∉ qs.map shift := by
        intro p hp
        obtain ⟨q, hq, heq⟩ := List.mem_map.mp hp
        obtain ⟨j, q, rfl⟩ := List.exists_cons_of_ne_nil (hqne q hq)
        simp [shift] at heq
      have hnil : ([] : List ℕ) ∉ qs.map shift := by
        intro hp
        obtain ⟨q, hq, heq⟩ := List.mem_map.mp hp
        obtain ⟨j, q, rfl⟩ := List.exists_cons_of_ne_nil (hqne q hq)
        simp [shift] at heq
      match p with
      | [] => simp [hnil]
      | [0] => simp [nodeAt]
      | 0 :: i :: p => simp [nodeAt_zero, hzero, hpsmem]
      | (i + 1) :: p =>
        have hat : nodeAt children (a :: as) (shift (i :: p)) = nodeAt children as (i :: p) :=
          nodeAt_shift a as (i :: p)
        rw [shift] at hat
        simp [hshift, hqsmem, hat]
    · have hbelow : (ps.map (List.cons 0)).map (nodeAt children (a :: as)) =
          ps.map (nodeAt children (children a)) := by
        rw [List.map_map]
        exact List.map_congr_left (fun p hp => nodeAt_zero a as (hpne p hp))
      have hrest : (qs.map shift).map (nodeAt children (a :: as)) = qs.map (nodeAt children as) := by
        rw [List.map_map]
        exact List.map_congr_left (fun q _ => nodeAt_shift a as q)
      rw [List.map_cons, List.map_cons, List.map_append, List.map_append, hbelow, hrest, hds, hes]
      rfl

end Worklist
