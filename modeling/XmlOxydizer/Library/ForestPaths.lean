import XmlOxydizer.Library.Forest

/-!
# Paths in forests

Where the labels of a forest have keys, an element has a key path. As long as siblings have different keys, a
path leads to at most one element, and it is found by following the path key by key. Some labels may stop the
way: what stands below them is not found. Walking through two forests together visits what the paths of the
second one find in the first.
-/

namespace Markup.Forest

universe u v w
variable {α : Type u} {β : Type v} {κ : Type w} (key : α → κ)

/-! ### Entries -/

/-- An element of a forest with its key path. -/
@[ext] structure Entry (κ : Type w) (α : Type u) (β : Type v) where
  path : List κ
  label : α
  content : Forest α β

/-- The elements of a forest below the keys `above`, in preorder. -/
def entries (above : List κ) : Forest α β → List (Entry κ α β)
  | nil => []
  | element a content rest =>
    ⟨above ++ [key a], a, content⟩ :: (entries (above ++ [key a]) content ++ entries above rest)
  | leaf _ rest => entries above rest

/-- The keys at the top of a forest. -/
def keys (f : Forest α β) : List κ := f.elements.map (fun x => key x.1)

/-- Siblings have different keys, at every depth. -/
def SiblingsDistinct : Forest α β → Prop
  | nil => True
  | element a content rest => key a ∉ rest.keys key ∧ SiblingsDistinct content ∧ SiblingsDistinct rest
  | leaf _ rest => SiblingsDistinct rest

instance SiblingsDistinct.decidable [DecidableEq κ] : (f : Forest α β) → Decidable (SiblingsDistinct key f)
  | nil => inferInstanceAs (Decidable True)
  | element a content rest =>
    have := decidable content
    have := decidable rest
    inferInstanceAs (Decidable (key a ∉ rest.keys key ∧ SiblingsDistinct key content ∧
      SiblingsDistinct key rest))
  | leaf _ rest => decidable rest

section Entries

variable {key} {f : Forest α β} {above : List κ} {e : Entry κ α β}

@[simp] lemma keys_nil : (nil : Forest α β).keys key = [] := rfl

@[simp] lemma keys_element (a : α) (content rest : Forest α β) :
    (element a content rest).keys key = key a :: rest.keys key := rfl

@[simp] lemma keys_leaf (b : β) (rest : Forest α β) : (leaf b rest).keys key = rest.keys key := rfl

lemma mem_entries : e ∈ f.entries key above ↔ ∃ a content, (a, content) ∈ f.elements ∧
    (e = ⟨above ++ [key a], a, content⟩ ∨ e ∈ content.entries key (above ++ [key a])) := by
  induction f with
  | nil => simp [entries, elements]
  | element a content rest _ ih =>
    simp only [entries, elements, List.mem_cons, List.mem_append, ih, Prod.mk.injEq]
    constructor
    · rintro (h | h | ⟨a', content', hmem, h⟩)
      · exact ⟨a, content, .inl ⟨rfl, rfl⟩, .inl h⟩
      · exact ⟨a, content, .inl ⟨rfl, rfl⟩, .inr h⟩
      · exact ⟨a', content', .inr hmem, h⟩
    · rintro ⟨a', content', ⟨rfl, rfl⟩ | hmem, h⟩
      · exact h.imp id .inl
      · exact .inr (.inr ⟨a', content', hmem, h⟩)
  | leaf b rest ih => exact ih

lemma path_of_mem_entries (h : e ∈ f.entries key above) :
    ∃ k q, k ∈ f.keys key ∧ e.path = above ++ k :: q := by
  induction f generalizing above with
  | nil => cases h
  | element a content rest ihc ihr =>
    simp only [entries, List.mem_cons, List.mem_append] at h
    rcases h with rfl | h | h
    · exact ⟨key a, [], by simp, rfl⟩
    · obtain ⟨k, q, -, hpath⟩ := ihc h
      exact ⟨key a, k :: q, by simp, by simp [hpath]⟩
    · obtain ⟨k, q, hk, hpath⟩ := ihr h
      exact ⟨k, q, by simp [hk], hpath⟩
  | leaf b rest ih => exact ih h

lemma path_concat_of_mem_entries (h : e ∈ f.entries key above) : ∃ q, e.path = above ++ q ++ [key e.label] := by
  induction f generalizing above with
  | nil => cases h
  | element a content rest ihc ihr =>
    simp only [entries, List.mem_cons, List.mem_append] at h
    rcases h with rfl | h | h
    · exact ⟨[], by simp⟩
    · obtain ⟨q, hpath⟩ := ihc h
      exact ⟨key a :: q, by simp [hpath]⟩
    · exact ihr h
  | leaf b rest ih => exact ih h

lemma mem_keys {k : κ} : k ∈ f.keys key ↔ ∃ a content, (a, content) ∈ f.elements ∧ key a = k := by
  simp [keys]

/-- Paths tell the elements apart exactly when siblings have different keys. -/
theorem nodup_paths_iff (above : List κ) :
    ((f.entries key above).map Entry.path).Nodup ↔ f.SiblingsDistinct key := by
  induction f generalizing above with
  | nil => simp [entries, SiblingsDistinct]
  | leaf b rest ih => exact ih above
  | element a content rest ihc ihr =>
    have hself : above ++ [key a] ∉ (content.entries key (above ++ [key a])).map Entry.path := by
      intro hmem
      obtain ⟨e, he, hpath⟩ := List.mem_map.mp hmem
      obtain ⟨k, q, -, hlong⟩ := path_of_mem_entries he
      simp [hlong] at hpath
    -- what begins with the key of this element stands in the rest only where the key stands there
    have hrest : ∀ q, above ++ key a :: q ∈ (rest.entries key above).map Entry.path → key a ∈ rest.keys key := by
      intro q hmem
      obtain ⟨e, he, hpath⟩ := List.mem_map.mp hmem
      obtain ⟨k, q', hk, hpath'⟩ := path_of_mem_entries he
      rw [hpath'] at hpath
      obtain ⟨rfl, -⟩ := List.cons.inj (List.append_cancel_left hpath)
      exact hk
    simp only [entries, List.map_cons, List.map_append, List.nodup_cons, List.mem_append, not_or,
      List.nodup_append', ihc, ihr, SiblingsDistinct]
    constructor
    · rintro ⟨⟨-, hnot⟩, hcontent, hr, -⟩
      refine ⟨fun hkey => hnot ?_, hcontent, hr⟩
      obtain ⟨a', content', hmem, hkey⟩ := mem_keys.mp hkey
      exact List.mem_map.mpr ⟨_, mem_entries.mpr ⟨a', content', hmem, .inl rfl⟩, by rw [hkey]⟩
    · rintro ⟨hkey, hcontent, hr⟩
      refine ⟨⟨hself, fun hmem => hkey (hrest [] hmem)⟩, hcontent, hr, fun p hp hp' => ?_⟩
      obtain ⟨e, he, rfl⟩ := List.mem_map.mp hp
      obtain ⟨k, q, -, hpath⟩ := path_of_mem_entries he
      rw [hpath, List.append_assoc, List.singleton_append] at hp'
      exact hkey (hrest _ hp')

end Entries

/-! ### Following a path -/

section Resolve

variable [DecidableEq κ] (stops : α → Bool)

/-- The first element at the top with this key. -/
def child (f : Forest α β) (k : κ) : Option (α × Forest α β) := f.elements.find? (fun x => key x.1 = k)

/-- The element at a path that is followed key by key, but not below a label that stops the way. -/
def resolve : Forest α β → List κ → Option (α × Forest α β)
  | _, [] => none
  | f, k :: path =>
    match f.child key k with
    | none => none
    | some (a, content) =>
      if path = [] then some (a, content) else if stops a then none else resolve content path

variable {key} {stops} {f : Forest α β} {k : κ} {a : α} {content : Forest α β} {path : List κ}

lemma key_of_child (h : f.child key k = some (a, content)) : key a = k := by
  simpa using List.find?_some h

lemma mem_of_child (h : f.child key k = some (a, content)) : (a, content) ∈ f.elements :=
  List.mem_of_find?_eq_some h

lemma child_eq_none (h : f.child key k = none) {x : α × Forest α β} (hx : x ∈ f.elements) : key x.1 ≠ k := by
  simpa using List.find?_eq_none.mp h x hx

lemma child_eq_some_iff (hdistinct : f.SiblingsDistinct key) :
    f.child key k = some (a, content) ↔ (a, content) ∈ f.elements ∧ key a = k := by
  refine ⟨fun h => ⟨mem_of_child h, key_of_child h⟩, ?_⟩
  rintro ⟨hmem, rfl⟩
  induction f with
  | nil => cases hmem
  | leaf b rest ih => exact ih hdistinct hmem
  | element a' content' rest _ ih =>
    obtain ⟨hkey, -, hrest⟩ := hdistinct
    simp only [elements, List.mem_cons, Prod.mk.injEq] at hmem
    rcases hmem with ⟨rfl, rfl⟩ | hmem
    · simp [child, elements]
    · have hne : key a' ≠ key a := fun h => hkey (h ▸ mem_keys.mpr ⟨a, content, hmem, rfl⟩)
      simpa [child, elements, hne] using ih hrest hmem

omit [DecidableEq κ] in
lemma SiblingsDistinct.of_mem (hdistinct : f.SiblingsDistinct key) (hmem : (a, content) ∈ f.elements) :
    content.SiblingsDistinct key := by
  induction f with
  | nil => cases hmem
  | leaf b rest ih => exact ih hdistinct hmem
  | element a' content' rest _ ih =>
    simp only [elements, List.mem_cons, Prod.mk.injEq] at hmem
    rcases hmem with ⟨-, rfl⟩ | hmem
    · exact hdistinct.2.1
    · exact ih hdistinct.2.2 hmem

@[simp] lemma resolve_nil : f.resolve key stops [] = none := rfl

lemma resolve_cons_none (h : f.child key k = none) (path : List κ) : f.resolve key stops (k :: path) = none := by
  rw [resolve, h]

lemma resolve_singleton (k : κ) : f.resolve key stops [k] = f.child key k := by
  rw [resolve]
  split
  · next h => exact h.symm
  · next h => rw [if_pos rfl, h]

lemma resolve_cons_stops (h : f.child key k = some (a, content)) (hpath : path ≠ []) (hstops : stops a = true) :
    f.resolve key stops (k :: path) = none := by
  simp [resolve, h, hpath, hstops]

lemma resolve_cons (h : f.child key k = some (a, content)) (hpath : path ≠ []) (hstops : stops a = false) :
    f.resolve key stops (k :: path) = content.resolve key stops path := by
  simp [resolve, h, hpath, hstops]

/-- An entry below the key `k` stands in the element with this key, or is it. -/
lemma mem_entries_below (hdistinct : f.SiblingsDistinct key) (h : f.child key k = some (a, content))
    {above : List κ} {e : Entry κ α β} :
    (e ∈ f.entries key above ∧ ∃ q, e.path = above ++ k :: q) ↔
      e = ⟨above ++ [k], a, content⟩ ∨ e ∈ content.entries key (above ++ [k]) := by
  obtain ⟨hmem, rfl⟩ := (child_eq_some_iff hdistinct).mp h
  constructor
  · rintro ⟨he, q, hq⟩
    obtain ⟨a', content', hmem', he⟩ := mem_entries.mp he
    have hkey : key a' = key a := by
      rcases he with rfl | he
      · exact (List.cons.inj (List.append_cancel_left hq)).1
      · obtain ⟨k', q', -, hpath⟩ := path_of_mem_entries he
        rw [hpath, List.append_assoc, List.singleton_append] at hq
        exact (List.cons.inj (List.append_cancel_left hq)).1
    have hsame := (child_eq_some_iff hdistinct).mpr ⟨hmem', hkey⟩
    obtain ⟨rfl, rfl⟩ := Prod.mk.inj (Option.some.inj (h.symm.trans hsame))
    exact he
  · intro he
    refine ⟨mem_entries.mpr ⟨a, content, hmem, he⟩, ?_⟩
    rcases he with rfl | he
    · exact ⟨[], rfl⟩
    · obtain ⟨k', q', -, hpath⟩ := path_of_mem_entries he
      exact ⟨k' :: q', by simp [hpath]⟩

/-- A path is found exactly when an entry has it and no entry above it stops the way. -/
theorem resolve_eq_some_iff (hdistinct : f.SiblingsDistinct key) (above : List κ) :
    f.resolve key stops path = some (a, content) ↔
      ⟨above ++ path, a, content⟩ ∈ f.entries key above ∧
        ∀ e ∈ f.entries key above, stops e.label = true → e.path <+: above ++ path → e.path = above ++ path := by
  induction path generalizing f above with
  | nil =>
    refine iff_of_false (by simp) ?_
    rintro ⟨h, -⟩
    obtain ⟨k, q, -, hpath⟩ := path_of_mem_entries h
    simp at hpath
  | cons k path ih =>
    cases hchild : f.child key k with
    | none =>
      refine iff_of_false (by simp [resolve_cons_none hchild]) ?_
      rintro ⟨h, -⟩
      obtain ⟨k', q, hk', hpath⟩ := path_of_mem_entries h
      obtain ⟨rfl, -⟩ := List.cons.inj (List.append_cancel_left hpath)
      obtain ⟨a', content', hmem, hkey⟩ := mem_keys.mp hk'
      exact child_eq_none hchild hmem hkey
    | some x =>
      obtain ⟨a₀, content₀⟩ := x
      have hbelow : ∀ e : Entry κ α β, (e ∈ f.entries key above ∧ ∃ q, e.path = above ++ k :: q) ↔
          e = ⟨above ++ [k], a₀, content₀⟩ ∨ e ∈ content₀.entries key (above ++ [k]) :=
        fun e => mem_entries_below hdistinct hchild
      have hprefix : ∀ e ∈ f.entries key above, e.path <+: above ++ k :: path →
          ∃ q, e.path = above ++ k :: q := by
        intro e he hle
        obtain ⟨k', q, -, hpath⟩ := path_of_mem_entries he
        rw [hpath, List.prefix_append_right_inj, List.cons_prefix_cons] at hle
        exact ⟨q, by rw [hpath, hle.1]⟩
      have hfound : (⟨above ++ k :: path, a, content⟩ : Entry κ α β) ∈ f.entries key above ↔
          (⟨above ++ k :: path, a, content⟩ : Entry κ α β) = ⟨above ++ [k], a₀, content₀⟩ ∨
            ⟨above ++ k :: path, a, content⟩ ∈ content₀.entries key (above ++ [k]) := by
        rw [← hbelow]
        simp
      rw [hfound]
      by_cases hpath : path = []
      · subst hpath
        rw [resolve_singleton, hchild]
        constructor
        · rintro ⟨rfl, rfl⟩
          refine ⟨.inl rfl, fun e he _ hle => ?_⟩
          obtain ⟨q, hq⟩ := hprefix e he hle
          have hlen := hle.length_le
          simp only [hq, List.length_append, List.length_cons, List.length_nil] at hlen
          have hnil : q = [] := List.eq_nil_of_length_eq_zero (by omega)
          rw [hq, hnil]
        · rintro ⟨h | h, -⟩
          · obtain ⟨-, rfl, rfl⟩ := Entry.mk.inj h
            rfl
          · obtain ⟨k', q, -, hlong⟩ := path_of_mem_entries h
            simp at hlong
      · cases hstops : stops a₀ with
        | true =>
          rw [resolve_cons_stops hchild hpath hstops]
          refine iff_of_false (by simp) ?_
          rintro ⟨-, h⟩
          have hstop := h ⟨above ++ [k], a₀, content₀⟩ ((hbelow _).mpr (.inl rfl)).1 hstops (by simp)
          exact hpath (by simpa using hstop)
        | false =>
          rw [resolve_cons hchild hpath hstops,
            ih (hdistinct.of_mem (mem_of_child hchild)) (above ++ [k]), List.append_assoc,
            List.singleton_append]
          constructor
          · rintro ⟨hmem, h⟩
            refine ⟨.inr hmem, fun e he hestops hle => ?_⟩
            rcases (hbelow e).mp ⟨he, hprefix e he hle⟩ with rfl | he
            · rw [hstops] at hestops
              cases hestops
            · exact h e he hestops hle
          · rintro ⟨hmem, h⟩
            refine ⟨hmem.resolve_left fun heq => hpath ?_, fun e he => h e ((hbelow e).mpr (.inr he)).1⟩
            simpa using (Entry.mk.inj heq).1

end Resolve

/-! ### Two forests together -/

section Together

universe u' v' z
variable {α' : Type u'} {β' : Type v'} {γ : Type z} [DecidableEq κ] (stops : α → Bool) (tag : α' → κ)
  (visit : List κ → α → Forest α β → List γ)

/-- Walks through a forest `g` below the keys `above` and through the elements of `f` that it matches. An
element is visited when it closes. What stands below a label that stops the way is not matched. -/
def together : List κ → Forest α β → Forest α' β' → List γ
  | _, _, nil => []
  | above, f, leaf _ rest => together above f rest
  | above, f, element x inner rest =>
    (match f.child key (tag x) with
      | none => []
      | some (a, content) =>
        (if stops a then [] else together (above ++ [tag x]) content inner) ++
          visit (above ++ [tag x]) a content) ++
      together above f rest

/-- What is visited at a path that is followed from the top of `f`. -/
def visitAt (f : Forest α β) (path : List κ) : List γ :=
  match f.resolve key stops path with
  | none => []
  | some (a, content) => visit path a content

variable {key stops tag visit}

lemma mem_postorder {ls : List α'} {g : Forest α' β'} {p : List α'} (h : p ∈ g.postorder ls) :
    ∃ x q, p = ls ++ x :: q := by
  induction g generalizing ls with
  | nil => cases h
  | leaf b rest ih => exact ih h
  | element a content rest ihc ihr =>
    simp only [postorder, List.mem_append, List.mem_cons] at h
    rcases h with h | rfl | h
    · obtain ⟨x, q, rfl⟩ := ihc h
      exact ⟨a, x :: q, by simp⟩
    · exact ⟨a, [], rfl⟩
    · exact ihr h

/-- The walk visits what the paths of `g` find in the forest `top`, where `f` is what is found there at the
path `above`. -/
lemma together_eq_visitAt {top f : Forest α β} (ls : List α')
    (htop : ∀ path, path ≠ [] → top.resolve key stops (ls.map tag ++ path) = f.resolve key stops path)
    (g : Forest α' β') : f.together key stops tag visit (ls.map tag) g =
      (g.postorder ls).flatMap (fun p => top.visitAt key stops visit (p.map tag)) := by
  induction g generalizing f ls with
  | nil => rfl
  | leaf b rest ih => exact ih ls htop
  | element x inner rest ihc ihr =>
    have hpath : (ls ++ [x]).map tag = ls.map tag ++ [tag x] := by simp
    have hunder : ∀ path, path ≠ [] → top.resolve key stops ((ls ++ [x]).map tag ++ path) =
        f.resolve key stops (tag x :: path) := by
      intro path _
      rw [hpath, List.append_assoc, List.singleton_append]
      exact htop _ (List.cons_ne_nil _ _)
    have hsilent : (∀ path, path ≠ [] → f.resolve key stops (tag x :: path) = none) →
        (inner.postorder (ls ++ [x])).flatMap (fun p => top.visitAt key stops visit (p.map tag)) = [] := by
      intro hnone
      refine List.flatMap_eq_nil_iff.mpr fun p hp => ?_
      obtain ⟨y, q, rfl⟩ := mem_postorder hp
      rw [visitAt, List.map_append, hunder _ (by simp), hnone _ (by simp)]
    have hself : top.resolve key stops ((ls ++ [x]).map tag) = f.child key (tag x) := by
      rw [hpath, htop _ (List.cons_ne_nil _ _), resolve_singleton]
    rw [together, postorder, List.flatMap_append, List.flatMap_cons, ihr ls htop, ← List.append_assoc]
    congr 1
    cases hchild : f.child key (tag x) with
    | none =>
      rw [hsilent fun path _ => resolve_cons_none hchild path, visitAt, hself, hchild]
      rfl
    | some y =>
      obtain ⟨a, content⟩ := y
      rw [visitAt, hself, hchild, ← hpath]
      dsimp only
      congr 1
      cases hstops : stops a with
      | true =>
        rw [hsilent fun path hne => resolve_cons_stops hchild hne hstops]
        rfl
      | false =>
        rw [if_neg Bool.false_ne_true]
        refine ihc _ fun path hne => ?_
        rw [hunder path hne, resolve_cons hchild hne hstops]

/-- Walking through two forests together visits, in the order in which the elements of `g` close, what their
paths find in `f`. -/
theorem together_eq (f : Forest α β) (g : Forest α' β') : f.together key stops tag visit [] g =
    (g.postorder []).flatMap (fun p => f.visitAt key stops visit (p.map tag)) :=
  together_eq_visitAt [] (fun _ _ => rfl) g

end Together

/-! ### Labels that may not be nested -/

/-- The labels of a forest in preorder. -/
def labels : Forest α β → List α
  | nil => []
  | element a content rest => a :: (labels content ++ labels rest)
  | leaf _ rest => labels rest

/-- No label that stops the way stands below another one. -/
def NoneNested (stops : α → Bool) : Forest α β → Prop
  | nil => True
  | element a content rest =>
    (stops a = true → ∀ b ∈ content.labels, stops b = false) ∧ NoneNested stops content ∧ NoneNested stops rest
  | leaf _ rest => NoneNested stops rest

instance NoneNested.decidable (stops : α → Bool) : (f : Forest α β) → Decidable (NoneNested stops f)
  | nil => inferInstanceAs (Decidable True)
  | element a content rest =>
    have := decidable stops content
    have := decidable stops rest
    inferInstanceAs (Decidable ((stops a = true → ∀ b ∈ content.labels, stops b = false) ∧
      NoneNested stops content ∧ NoneNested stops rest))
  | leaf _ rest => decidable stops rest

section Nested

variable {key} {stops : α → Bool} {f : Forest α β}

lemma map_label_entries (key : α → κ) (f : Forest α β) (above : List κ) :
    (f.entries key above).map Entry.label = f.labels := by
  induction f generalizing above with
  | nil => rfl
  | leaf b rest ih => exact ih above
  | element a content rest ihc ihr => simp [entries, labels, ihc, ihr]

lemma head_eq_of_begins {above q q' : List κ} {k k' : κ} (h : above ++ k :: q <+: above ++ k' :: q') :
    k = k' := by
  rw [List.prefix_append_right_inj, List.cons_prefix_cons] at h
  exact h.1

/-- In terms of the paths, the way is stopped at most once. -/
theorem noneNested_iff (hdistinct : f.SiblingsDistinct key) (above : List κ) :
    f.NoneNested stops ↔ ∀ e ∈ f.entries key above, ∀ e' ∈ f.entries key above, stops e.label = true →
      stops e'.label = true → e.path <+: e'.path → e.path = e'.path := by
  induction f generalizing above with
  | nil => simp [NoneNested, entries]
  | leaf b rest ih => exact ih hdistinct above
  | element a content rest ihc ihr =>
    obtain ⟨hkey, hcontent, hrest⟩ := hdistinct
    have hinner : ∀ e ∈ content.entries key (above ++ [key a]), ∃ k q, e.path = above ++ key a :: k :: q := by
      intro e he
      obtain ⟨k, q, -, hpath⟩ := path_of_mem_entries he
      exact ⟨k, q, by simp [hpath]⟩
    have hafter : ∀ e ∈ rest.entries key above, ∃ k q, k ≠ key a ∧ e.path = above ++ k :: q := by
      intro e he
      obtain ⟨k, q, hk, hpath⟩ := path_of_mem_entries he
      exact ⟨k, q, fun h => hkey (h ▸ hk), hpath⟩
    rw [NoneNested, ihc hcontent (above ++ [key a]), ihr hrest above, ← map_label_entries key content
      (above ++ [key a])]
    simp only [entries, List.mem_cons, List.mem_append, List.forall_mem_map]
    constructor
    · rintro ⟨hself, hc, hr⟩ e he e' he' hstops hstops' hle
      rcases he with rfl | he | he
      · rcases he' with rfl | he' | he'
        · rfl
        · rw [hself hstops e' he'] at hstops'
          cases hstops'
        · obtain ⟨k, q, hne, hpath⟩ := hafter e' he'
          rw [hpath] at hle
          exact absurd (head_eq_of_begins hle).symm hne
      · obtain ⟨k, q, hpath⟩ := hinner e he
        rcases he' with rfl | he' | he'
        · have hlen := hle.length_le
          simp [hpath] at hlen
        · exact hc e he e' he' hstops hstops' hle
        · obtain ⟨k', q', hne, hpath'⟩ := hafter e' he'
          rw [hpath, hpath'] at hle
          exact absurd (head_eq_of_begins hle).symm hne
      · obtain ⟨k, q, hne, hpath⟩ := hafter e he
        rw [hpath] at hle
        rcases he' with rfl | he' | he'
        · exact absurd (head_eq_of_begins hle) hne
        · obtain ⟨k', q', hpath'⟩ := hinner e' he'
          rw [hpath'] at hle
          exact absurd (head_eq_of_begins hle) hne
        · exact hr e he e' he' hstops hstops' (by rwa [hpath])
    · intro h
      refine ⟨fun hstops e he => ?_, fun e he e' he' => ?_, fun e he e' he' => ?_⟩
      · obtain ⟨k, q, hpath⟩ := hinner e he
        by_contra hstops'
        have heq := h _ (.inl rfl) e (.inr (.inl he)) hstops (Bool.eq_true_of_not_eq_false hstops')
          (by simp [hpath])
        simp [hpath] at heq
      · exact h e (.inr (.inl he)) e' (.inr (.inl he'))
      · exact h e (.inr (.inr he)) e' (.inr (.inr he'))

end Nested

/-! ### Siblings in another order -/

/-- The forests differ in the order of siblings. Leaves keep their order among each other. -/
inductive Reordered : Forest α β → Forest α β → Prop
  | refl (f : Forest α β) : Reordered f f
  | element (a : α) {content content' rest rest' : Forest α β} (hcontent : Reordered content content')
      (hrest : Reordered rest rest') : Reordered (element a content rest) (element a content' rest')
  | leaf (b : β) {rest rest' : Forest α β} (hrest : Reordered rest rest') :
      Reordered (leaf b rest) (leaf b rest')
  | swapElements (a a' : α) (content content' rest : Forest α β) :
      Reordered (.element a content (.element a' content' rest)) (.element a' content' (.element a content rest))
  | swapLeaf (a : α) (b : β) (content rest : Forest α β) :
      Reordered (.element a content (.leaf b rest)) (.leaf b (.element a content rest))
  | symm {f g : Forest α β} (h : Reordered f g) : Reordered g f
  | trans {f g h : Forest α β} (hfg : Reordered f g) (hgh : Reordered g h) : Reordered f h

namespace Reordered

variable {key} {f f' : Forest α β}

lemma leaves_eq (h : Reordered f f') : f.leaves = f'.leaves := by
  induction h with
  | refl f => rfl
  | element a _ _ _ ih => exact ih
  | leaf b _ ih => exact congrArg (b :: ·) ih
  | swapElements => rfl
  | swapLeaf => rfl
  | symm _ ih => exact ih.symm
  | trans _ _ ih ih' => exact ih.trans ih'

/-- The forests have the same elements at the same paths. -/
theorem entries_perm {δ : Type*} {visit : Entry κ α β → δ} (h : Reordered f f')
    (hvisit : ∀ path a content content', Reordered content content' →
      visit ⟨path, a, content⟩ = visit ⟨path, a, content'⟩) (above : List κ) :
    ((f.entries key above).map visit).Perm ((f'.entries key above).map visit) := by
  induction h generalizing above with
  | refl f => rfl
  | element a hcontent _ ihc ihr =>
    simp only [entries, List.map_cons, List.map_append]
    rw [hvisit _ a _ _ hcontent]
    exact ((ihc _).append (ihr _)).cons _
  | leaf b _ ih => exact ih above
  | swapElements a a' content content' rest =>
    simp only [entries, List.map_cons, List.map_append]
    exact List.perm_append_comm_assoc (_ :: _) (_ :: _) _
  | swapLeaf => rfl
  | symm _ ih => exact (ih above).symm
  | trans _ _ ih ih' => exact (ih above).trans (ih' above)

end Reordered

/-! ### Larger forests -/

/-- The second forest has the elements and leaves of the first one and may have more, at every depth. -/
inductive Extends : Forest α β → Forest α β → Prop
  | nil : Extends nil nil
  | element (a : α) {content content' rest rest' : Forest α β} (hcontent : Extends content content')
      (hrest : Extends rest rest') : Extends (element a content rest) (element a content' rest')
  | leaf (b : β) {rest rest' : Forest α β} (hrest : Extends rest rest') : Extends (leaf b rest) (leaf b rest')
  | newElement (a : α) (content : Forest α β) {f f' : Forest α β} (h : Extends f f') :
      Extends f (.element a content f')
  | newLeaf (b : β) {f f' : Forest α β} (h : Extends f f') : Extends f (.leaf b f')

namespace Extends

variable {key} {stops : α → Bool} {f f' : Forest α β}

lemma leaves_sublist (h : Extends f f') : f.leaves.Sublist f'.leaves := by
  induction h with
  | nil => exact .slnil
  | element a _ _ _ ih => exact ih
  | leaf b _ ih => exact ih.cons_cons b
  | newElement a content _ ih => exact ih
  | newLeaf b _ ih => exact ih.cons b

lemma mem_elements (h : Extends f f') {a : α} {content : Forest α β} (hmem : (a, content) ∈ f.elements) :
    ∃ content', (a, content') ∈ f'.elements ∧ Extends content content' := by
  induction h with
  | nil => cases hmem
  | element a' hcontent _ _ ih =>
    simp only [elements, List.mem_cons, Prod.mk.injEq] at hmem ⊢
    rcases hmem with ⟨rfl, rfl⟩ | hmem
    · exact ⟨_, .inl ⟨rfl, rfl⟩, hcontent⟩
    · obtain ⟨content', hmem', hcontent'⟩ := ih hmem
      exact ⟨content', .inr hmem', hcontent'⟩
  | leaf b _ ih => exact ih hmem
  | newElement a' content _ ih =>
    obtain ⟨content', hmem', hcontent'⟩ := ih hmem
    exact ⟨content', List.mem_cons_of_mem _ hmem', hcontent'⟩
  | newLeaf b _ ih => exact ih hmem

universe u' v' z
variable [DecidableEq κ] {α' : Type u'} {β' : Type v'} {γ : Type z} {tag : α' → κ}
  {visit : List κ → α → Forest α β → List γ}

/-- A larger forest keeps all visits, in their order. -/
theorem together_sublist (h : Extends f f') (hdistinct : f'.SiblingsDistinct key)
    (hvisit : ∀ path a content content', Extends content content' →
      (visit path a content).Sublist (visit path a content')) (above : List κ) (g : Forest α' β') :
    (f.together key stops tag visit above g).Sublist (f'.together key stops tag visit above g) := by
  induction g generalizing f f' above with
  | nil => exact .slnil
  | leaf b rest ih => exact ih h hdistinct above
  | element x inner rest ihc ihr =>
    rw [together, together]
    refine List.Sublist.append ?_ (ihr h hdistinct above)
    cases hchild : f.child key (tag x) with
    | none => exact List.nil_sublist _
    | some y =>
      obtain ⟨a, content⟩ := y
      obtain ⟨content', hmem', hcontent⟩ := h.mem_elements (mem_of_child hchild)
      rw [(child_eq_some_iff hdistinct).mpr ⟨hmem', key_of_child hchild⟩]
      refine List.Sublist.append ?_ (hvisit _ a content content' hcontent)
      cases stops a with
      | true => exact .slnil
      | false => exact ihc hcontent (hdistinct.of_mem hmem') _

end Extends

end Markup.Forest
