import Mathlib

/-!
# Interleavings

Several sequences that are sent through one channel arrive interleaved: each of them in its own order. Where
every message carries the name of its sender, the messages of one sender are a projection of the whole, and
the whole is an interleaving of its projections. Senders that take turns are not interleaved at all.
-/

namespace Interleaving

variable {ι α β : Type*} [DecidableEq ι]

/-- The list is an interleaving of the sequences: at each place, one of them comes next. -/
inductive Interleaves : (ι → List α) → List α → Prop
  | nil : Interleaves (fun _ => []) []
  | cons (i : ι) (a : α) (seqs : ι → List α) (xs : List α) (h : Interleaves seqs xs) :
      Interleaves (Function.update seqs i (a :: seqs i)) (a :: xs)

/-- The messages of one sender. -/
def project (i : ι) (xs : List (ι × α)) : List α := (xs.filter (fun x => x.1 = i)).map Prod.snd

@[simp] lemma project_nil (i : ι) : project i ([] : List (ι × α)) = [] := rfl

lemma project_cons (i : ι) (x : ι × α) (xs : List (ι × α)) :
    project i (x :: xs) = if x.1 = i then x.2 :: project i xs else project i xs := by
  unfold project
  rw [List.filter_cons]
  by_cases hi : x.1 = i
  · simp [hi]
  · simp [hi]

@[simp] lemma project_append (i : ι) (xs ys : List (ι × α)) :
    project i (xs ++ ys) = project i xs ++ project i ys := by
  simp [project]

/-- One more message of sender `i`. -/
lemma project_concat (i j : ι) (a : α) (xs : List (ι × α)) :
    project j (xs ++ [(i, a)]) = if i = j then project j xs ++ [a] else project j xs := by
  rw [project_append, project_cons]
  by_cases hj : i = j
  · rw [if_pos hj, if_pos hj]
    rfl
  · rw [if_neg hj, if_neg hj, project_nil, List.append_nil]

/-- A list of named messages is an interleaving of what each sender has sent. -/
theorem interleaves_project (xs : List (ι × α)) :
    Interleaves (fun i => project i xs) (xs.map Prod.snd) := by
  induction xs with
  | nil => exact .nil
  | cons x xs ih =>
    have hseqs : (fun i => project i (x :: xs)) =
        Function.update (fun i => project i xs) x.1 (x.2 :: project x.1 xs) := by
      funext i
      rw [project_cons]
      by_cases hi : x.1 = i
      · subst hi
        rw [if_pos rfl, Function.update_self]
      · rw [if_neg hi, Function.update_of_ne (Ne.symm hi)]
    rw [hseqs, List.map_cons]
    exact .cons x.1 x.2 _ _ ih

/-- An interleaving is as long as its sequences together. -/
theorem length_eq_sum [Fintype ι] {seqs : ι → List α} {xs : List α} (h : Interleaves seqs xs) :
    xs.length = ∑ i, (seqs i).length := by
  induction h with
  | nil => simp
  | cons i a seqs xs h ih =>
    have hlengths : (fun j => (Function.update seqs i (a :: seqs i) j).length) =
        Function.update (fun j => (seqs j).length) i ((seqs i).length + 1) := by
      funext j
      by_cases hj : j = i
      · subst hj
        rw [Function.update_self, Function.update_self, List.length_cons]
      · rw [Function.update_of_ne hj, Function.update_of_ne hj]
    have hsum := Finset.add_sum_erase Finset.univ (fun j => (seqs j).length) (Finset.mem_univ i)
    rw [List.length_cons, ih, hlengths, Finset.sum_update_of_mem (Finset.mem_univ i), ← Finset.erase_eq,
      ← hsum]
    omega

/-- The messages of all senders together. -/
lemma length_eq_sum_project [Fintype ι] (xs : List (ι × α)) :
    xs.length = ∑ i, (project i xs).length := by
  rw [← length_eq_sum (interleaves_project xs), List.length_map]

/-! ### One entry of a family changes -/

/-- A sum falls when one term falls. -/
lemma sum_update_lt [Fintype ι] {f : ι → β → ℕ} {g : ι → β} {i : ι} {b : β} (h : f i b < f i (g i)) :
    ∑ j, f j (Function.update g i b j) < ∑ j, f j (g j) := by
  refine Finset.sum_lt_sum (fun j _ => ?_) ⟨i, Finset.mem_univ i, by rwa [Function.update_self]⟩
  by_cases hj : j = i
  · subst hj
    rw [Function.update_self]
    exact h.le
  · rw [Function.update_of_ne hj]

/-- A sum stays when the changed term stays. -/
lemma sum_update_eq [Fintype ι] {f : ι → β → ℕ} {g : ι → β} {i : ι} {b : β} (h : f i b = f i (g i)) :
    ∑ j, f j (Function.update g i b j) = ∑ j, f j (g j) := by
  refine Finset.sum_congr rfl fun j _ => ?_
  by_cases hj : j = i
  · subst hj
    rw [Function.update_self, h]
  · rw [Function.update_of_ne hj]

/-- Where one entry gets a value, the values in order get one more. -/
lemma filterMap_update_perm {g : β → Option α} {xs : ι → β} {i : ι} {b : β} {a : α} (hb : g b = some a)
    (hold : g (xs i) = none) {is : List ι} (hmem : i ∈ is) (hnodup : is.Nodup) :
    (is.filterMap (fun j => g (Function.update xs i b j))).Perm (a :: is.filterMap (fun j => g (xs j))) := by
  induction is with
  | nil => cases hmem
  | cons k is ih =>
    obtain ⟨hk, hnodup⟩ := List.nodup_cons.mp hnodup
    by_cases hik : k = i
    · subst hik
      have hrest : is.filterMap (fun j => g (Function.update xs k b j)) =
          is.filterMap (fun j => g (xs j)) := by
        refine List.filterMap_congr fun j hj => ?_
        have hjk : j ≠ k := by
          rintro rfl
          exact hk hj
        rw [Function.update_of_ne hjk]
      simp only [List.filterMap_cons, Function.update_self, hb, hold, hrest]
      exact .refl _
    · have hi : i ∈ is := (List.mem_cons.mp hmem).resolve_left (Ne.symm hik)
      have hperm := ih hi hnodup
      simp only [List.filterMap_cons, Function.update_of_ne hik]
      cases g (xs k) with
      | none => exact hperm
      | some c => exact (hperm.cons c).trans (.swap a c _)

/-- Where the changed entry keeps its value, so do the values in order. -/
lemma filterMap_update_eq {g : β → Option α} {xs : ι → β} {i : ι} {b : β} (h : g b = g (xs i)) (is : List ι) :
    is.filterMap (fun j => g (Function.update xs i b j)) = is.filterMap (fun j => g (xs j)) := by
  refine List.filterMap_congr fun j _ => ?_
  by_cases hj : j = i
  · subst hj
    rw [Function.update_self, h]
  · rw [Function.update_of_ne hj]

/-! ### One sender after the other -/

/-- The messages of the senders stand one after the other, in this order. -/
def Batched (order : List ι) (xs : List (ι × α)) : Prop :=
  xs = order.flatMap (fun i => (project i xs).map (Prod.mk i))

lemma batched_nil : Batched [] ([] : List (ι × α)) := rfl

/-- A new sender takes its turn behind the others. -/
lemma Batched.turn {order : List ι} {xs : List (ι × α)} (h : Batched order xs) {i : ι}
    (hi : project i xs = []) : Batched (order ++ [i]) xs := by
  rw [Batched, List.flatMap_append, List.flatMap_singleton, hi, List.map_nil, List.append_nil]
  exact h

/-- The sender whose turn it is sends one more message. -/
lemma Batched.send {order : List ι} {xs : List (ι × α)} {i : ι} (h : Batched (order ++ [i]) xs)
    (hi : i ∉ order) (a : α) : Batched (order ++ [i]) (xs ++ [(i, a)]) := by
  have hbefore : order.flatMap (fun j => (project j (xs ++ [(i, a)])).map (Prod.mk j)) =
      order.flatMap (fun j => (project j xs).map (Prod.mk j)) := by
    refine List.flatMap_congr fun j hj => ?_
    have hne : i ≠ j := by
      rintro rfl
      exact hi hj
    rw [project_concat, if_neg hne]
  rw [Batched, List.flatMap_append, List.flatMap_singleton] at h ⊢
  rw [hbefore, project_concat, if_pos rfl, List.map_append, ← List.append_assoc, ← h]
  rfl

/-- What arrives is what each sender has sent, sender after sender. -/
lemma Batched.map_snd {order : List ι} {xs : List (ι × α)} (h : Batched order xs) :
    xs.map Prod.snd = order.flatMap (fun i => project i xs) := by
  conv_lhs => rw [h]
  rw [List.map_flatMap]
  refine List.flatMap_congr fun i _ => ?_
  rw [List.map_map]
  exact List.map_id _

end Interleaving
