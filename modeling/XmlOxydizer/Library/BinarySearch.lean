import Mathlib

/-!
# Binary search by a comparison

The search of a sorted sequence that keeps a window of candidate positions and halves
it without an early exit. The comparison says where an entry lies relative to the
searched value.
-/

namespace BinarySearch

variable {α : Type*} {κ : Type*}

/-- Halves the window of `size` positions from `base` until one position is left. The
first argument bounds the number of rounds; `size` rounds are always enough. -/
def narrow (cmp : α → Ordering) (xs : List α) : ℕ → ℕ → ℕ → ℕ
  | 0, _, base => base
  | rounds + 1, size, base =>
    if 1 < size then
      narrow cmp xs rounds (size - size / 2)
        (if xs[base + size / 2]?.map cmp = some .gt then base else base + size / 2)
    else base

/-- The position of an entry that compares equal, if the search meets one. -/
def search (cmp : α → Ordering) (xs : List α) : Option ℕ :=
  if xs.isEmpty then none
  else
    let base := narrow cmp xs xs.length xs.length 0
    if xs[base]?.map cmp = some .eq then some base else none

/-- A sequence is sorted for a comparison when the entries below the searched value come
first and the entries above it come last. -/
def Sorted (cmp : α → Ordering) (xs : List α) : Prop :=
  xs.Pairwise (fun a b => (cmp a = .gt → cmp b = .gt) ∧ (cmp b = .lt → cmp a = .lt))

lemma search_sound {cmp : α → Ordering} {xs : List α} {i : ℕ} (h : search cmp xs = some i) :
    xs[i]?.map cmp = some .eq := by
  unfold search at h
  split at h
  · contradiction
  · simp only [Option.ite_none_right_eq_some, Option.some.injEq] at h
    obtain ⟨heq, rfl⟩ := h
    exact heq

/-- The window never loses every equal entry. -/
lemma narrow_keeps {cmp : α → Ordering} {xs : List α} (hs : Sorted cmp xs)
    (rounds size base k : ℕ) (hrounds : size ≤ rounds + 1) (hsize : base + size ≤ xs.length)
    (hlo : base ≤ k) (hhi : k < base + size) (hk : xs[k]?.map cmp = some .eq) :
    xs[narrow cmp xs rounds size base]?.map cmp = some .eq := by
  induction rounds generalizing size base k with
  | zero =>
    have : k = base := by omega
    simpa [narrow, this] using hk
  | succ rounds ih =>
    unfold narrow
    split
    case isFalse hone =>
      have : k = base := by omega
      simpa [this] using hk
    case isTrue hone =>
      have hpair := List.pairwise_iff_getElem.mp hs
      have hkl : k < xs.length := by omega
      have hml : base + size / 2 < xs.length := by omega
      have hkeq : cmp xs[k] = .eq := by simpa [hkl] using hk
      simp only [List.getElem?_eq_getElem hml, Option.map_some, Option.some.injEq]
      split
      case isTrue hgt =>
        -- everything from the midpoint on is above the searched value
        have hkm : k < base + size / 2 := by
          by_contra hge
          rcases Nat.lt_or_eq_of_le (not_lt.mp hge) with hlt | heq
          · have := (hpair _ _ hml hkl hlt).1 hgt
            simp [hkeq] at this
          · simp [← heq, hgt] at hkeq
        exact ih _ _ k (by omega) (by omega) hlo (by omega) hk
      case isFalse hgt =>
        by_cases heq : cmp xs[base + size / 2] = .eq
        · exact ih _ _ (base + size / 2) (by omega) (by omega) le_rfl (by omega)
            (by simp [hml, heq])
        · have hlt : cmp xs[base + size / 2] = .lt := by
            cases h : cmp xs[base + size / 2] <;> simp_all
          have hmk : base + size / 2 < k := by
            by_contra hge
            rcases Nat.lt_or_eq_of_le (not_lt.mp hge) with hlt' | heq'
            · have := (hpair _ _ hkl hml hlt').2 hlt
              simp [hkeq] at this
            · simp [heq', hlt] at hkeq
          exact ih _ _ k (by omega) (by omega) hmk.le (by omega) hk

lemma search_complete {cmp : α → Ordering} {xs : List α} (hs : Sorted cmp xs) {k : ℕ}
    (hk : xs[k]?.map cmp = some .eq) : ∃ i, search cmp xs = some i := by
  have hkl : k < xs.length := by
    by_contra hge
    simp [List.getElem?_eq_none (not_lt.mp hge)] at hk
  have hne : xs.isEmpty = false := by
    cases xs with
    | nil => simp at hkl
    | cons => rfl
  refine ⟨narrow cmp xs xs.length xs.length 0, ?_⟩
  simp [search, hne, narrow_keeps hs xs.length xs.length 0 k (by omega) (by omega) (by omega)
    (by omega) hk]

section Keys

variable [LinearOrder κ] (key : α → κ)

lemma sorted_compare {xs : List α} (h : (xs.map key).Pairwise (· < ·)) (t : κ) :
    Sorted (fun a => compare (key a) t) xs := by
  rw [List.pairwise_map] at h
  refine h.imp ?_
  intro a b hab
  simp only [compare_gt_iff_gt, compare_lt_iff_lt]
  exact ⟨fun ha => ha.trans hab, fun hb => hab.trans hb⟩

/-- On strictly increasing keys the search finds exactly the position of the key. -/
theorem search_key_iff {xs : List α} (h : (xs.map key).Pairwise (· < ·)) (t : κ) (i : ℕ) :
    search (fun a => compare (key a) t) xs = some i ↔ xs[i]?.map key = some t := by
  have hcmp (j : ℕ) : xs[j]?.map (fun a => compare (key a) t) = some .eq ↔
      xs[j]?.map key = some t := by
    cases xs[j]? <;> simp
  constructor
  · intro hi
    exact (hcmp i).mp (search_sound hi)
  · intro hi
    obtain ⟨j, hj⟩ := search_complete (sorted_compare key h t) ((hcmp i).mpr hi)
    have hjt := (hcmp j).mp (search_sound hj)
    -- strictly increasing keys occur once
    have hnodup : (xs.map key).Nodup := h.imp (fun hab => hab.ne)
    have hij : j = i := by
      rw [← List.getElem?_map] at hi hjt
      exact (List.getElem?_inj (by
        by_contra hge
        simp [List.getElem?_eq_none (not_lt.mp hge)] at hjt) hnodup).mp (hjt.trans hi.symm)
    rw [hj, hij]

end Keys

end BinarySearch
