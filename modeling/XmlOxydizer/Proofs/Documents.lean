import XmlOxydizer.Proofs.Run

/-!
# Documents without faults

A balanced document whose data can be decoded, whose captures fit and whose elements have
fewer than 2^32 children is read to its end: no token of it leads to an error, and no
counter overflows.
-/

namespace XmlOxydizer

open Markup

variable {R : Type} {tree : DescriptorTree R}

/-- Every element has fewer than 2^32 children. -/
def FewChildren : Content → Prop
  | .nil => True
  | .element _ content rest =>
    content.elements.length < 2 ^ 32 ∧ FewChildren content ∧ FewChildren rest
  | .leaf _ rest => FewChildren rest

/-- Every element that is captured fits into the memory limit. `above` holds the tags of the
elements around the content. -/
def CapturesFit (tree : DescriptorTree R) (above : List String) : Content → Prop
  | .nil => True
  | .element tag content rest =>
    (∀ id ∈ tree.evaluatedAt (above ++ [tag.tagName]), tree.isCapture id = true →
      frameCost ⟨tag, content⟩ ≤ tree.captureMemoryLimit) ∧
    CapturesFit tree (above ++ [tag.tagName]) content ∧ CapturesFit tree above rest
  | .leaf _ rest => CapturesFit tree above rest

instance FewChildren.decidable : (g : Content) → Decidable (FewChildren g)
  | .nil => inferInstanceAs (Decidable True)
  | .element _ content rest =>
    have := decidable content
    have := decidable rest
    inferInstanceAs (Decidable (_ ∧ FewChildren content ∧ FewChildren rest))
  | .leaf _ rest => decidable rest

instance CapturesFit.decidable (tree : DescriptorTree R) :
    (above : List String) → (g : Content) → Decidable (CapturesFit tree above g)
  | _, .nil => inferInstanceAs (Decidable True)
  | above, .element tag content rest =>
    have := decidable tree (above ++ [tag.tagName]) content
    have := decidable tree above rest
    inferInstanceAs (Decidable (_ ∧ CapturesFit tree (above ++ [tag.tagName]) content ∧
      CapturesFit tree above rest))
  | above, .leaf _ rest => decidable tree above rest

/-! ### The capture under way -/

section OpenCapture

variable [Rule R] {z : OpenElements} {f : Frame BytesStart LeafEvent}

lemma walk_length (hwf : tree.WellFormed) (z : OpenElements) :
    (tree.walk (tagsOf z)).ids.length + (tree.walk (tagsOf z)).below = z.length := by
  simpa using (DescriptorTree.walk_ok hwf (tagsOf z)).length_eq

lemma openCapture_spec (hwf : tree.WellFormed) {id : NodeId} {zs : OpenElements}
    (h : tree.openCapture z = some (id, zs)) :
    tree.inCapture (tree.walk (tagsOf z)).ids = true ∧ ∃ w, z = w ++ zs ∧ zs ≠ [] := by
  simp only [DescriptorTree.openCapture] at h
  split at h
  case h_2 => cases h
  case h_1 last hlast =>
    split at h
    case isFalse => cases h
    case isTrue hcapture =>
      simp only [Option.some.injEq, Prod.mk.injEq] at h
      obtain ⟨rfl, rfl⟩ := h
      refine ⟨by simp [DescriptorTree.inCapture, hlast, hcapture], _, (List.take_append_drop _ z).symm, ?_⟩
      have hlen := walk_length hwf z
      have hpos : (tree.walk (tagsOf z)).ids ≠ [] := by
        intro hnil
        simp [hnil] at hlast
      have := List.length_pos_iff.mpr hpos
      rw [ne_eq, List.drop_eq_nil_iff]
      omega

omit [Rule R] in
lemma openCapture_eq_none (h : tree.openCapture z = none) :
    tree.inCapture (tree.walk (tagsOf z)).ids = false := by
  simp only [DescriptorTree.openCapture] at h
  split at h
  case h_2 hnone => simp [DescriptorTree.inCapture, hnone]
  case h_1 last hlast =>
    split at h
    case isTrue => cases h
    case isFalse hstream => simpa [DescriptorTree.inCapture, hlast] using hstream

/-- An element that opens inside a capture is captured. -/
lemma openCapture_concat (hwf : tree.WellFormed) {id : NodeId} {zs : OpenElements}
    (h : tree.openCapture z = some (id, zs)) : tree.openCapture (z ++ [f]) = some (id, zs ++ [f]) := by
  have hlen := walk_length hwf z
  obtain ⟨hcapture, -⟩ := openCapture_spec hwf h
  have hwalk : (tree.walk (tagsOf (z ++ [f]))).ids = (tree.walk (tagsOf z)).ids := by
    rw [tagsOf_append, tagsOf_cons, tagsOf_nil, DescriptorTree.walk_concat, Position.enter,
      if_pos (.inr hcapture)]
  have hdrop : (z ++ [f]).drop ((tree.walk (tagsOf z)).ids.length - 1) =
      z.drop ((tree.walk (tagsOf z)).ids.length - 1) ++ [f] := List.drop_append_of_le_length (by omega)
  simp only [DescriptorTree.openCapture] at h ⊢
  rw [hwalk, hdrop]
  split at h
  case h_2 => cases h
  case h_1 last hlast =>
    split at h
    case isFalse => cases h
    case isTrue hcap =>
      simp only [Option.some.injEq, Prod.mk.injEq] at h
      obtain ⟨rfl, rfl⟩ := h
      simp [hcap]

/-- Otherwise a capture can only begin at the element itself. -/
lemma openCapture_concat_none (hwf : tree.WellFormed) (h : tree.openCapture z = none) {id : NodeId}
    {zs : OpenElements} (hf : tree.openCapture (z ++ [f]) = some (id, zs)) :
    zs = [f] ∧ tree.isCapture id = true ∧
      tree.evaluatedAt (tagsOf z ++ [f.label.tagName]) = some id := by
  have hlen := walk_length hwf z
  have hstream := openCapture_eq_none h
  have hwalk : tree.walk (tagsOf z ++ [f.label.tagName]) = _ := DescriptorTree.walk_concat _ _
  have hcapture := (openCapture_spec hwf hf).1
  rw [tagsOf_append, tagsOf_cons, tagsOf_nil] at hcapture
  simp only [DescriptorTree.openCapture, tagsOf_append, tagsOf_cons, tagsOf_nil] at hf
  rw [Position.enter] at hwalk
  split at hwalk
  case isTrue hbelow => simp [hwalk, hstream] at hcapture
  case isFalse hbelow =>
    simp only [not_or, gt_iff_lt, Nat.not_lt, Nat.le_zero] at hbelow
    split at hwalk
    case h_2 => simp [hwalk, hstream] at hcapture
    case h_1 c hc =>
      simp only [hwalk, List.getLast?_concat, List.length_append, List.length_singleton,
        Nat.add_sub_cancel] at hf
      split at hf
      case isFalse => cases hf
      case isTrue hcap =>
        simp only [Option.some.injEq, Prod.mk.injEq] at hf
        obtain ⟨rfl, rfl⟩ := hf
        have hall : (tree.walk (tagsOf z)).ids.length = z.length := by omega
        refine ⟨by rw [hall, List.drop_left], hcap, ?_⟩
        simp [DescriptorTree.evaluatedAt_eq_walk hwf, hwalk]

omit [Rule R] in
lemma drop_extend {n : ℕ} (g : Content) (hn : n < z.length) :
    (z.extend g).drop n = Spine.extend (z.drop n) g := by
  obtain ⟨w, f, rfl⟩ := (List.eq_nil_or_concat' z).resolve_left (by rintro rfl; simp at hn)
  simp only [List.length_append, List.length_singleton] at hn
  rw [Spine.extend_concat, List.drop_append_of_le_length (by omega),
    List.drop_append_of_le_length (by omega), Spine.extend_concat]

/-- Reading content changes the innermost element of a capture. -/
lemma openCapture_extend (hwf : tree.WellFormed) (g : Content) :
    tree.openCapture (z.extend g) =
      (tree.openCapture z).map (fun (id, zs) => (id, Spine.extend zs g)) := by
  simp only [DescriptorTree.openCapture, tagsOf_extend]
  split
  case h_2 => rfl
  case h_1 last hlast =>
    split
    case isFalse => rfl
    case isTrue =>
      have hlen := walk_length hwf z
      have hpos : (tree.walk (tagsOf z)).ids ≠ [] := by
        intro hnil
        simp [hnil] at hlast
      have := List.length_pos_iff.mpr hpos
      rw [drop_extend g (by omega)]
      rfl

omit [Rule R] in
lemma spineCost_extend {zs : OpenElements} (hzs : zs ≠ []) (g : Content) :
    spineCost (Spine.extend zs g) = spineCost zs + contentCost g := by
  obtain ⟨w, f, rfl⟩ := (List.eq_nil_or_concat' zs).resolve_left hzs
  simp only [Spine.extend_concat, spineCost_append, spineCost_singleton, frameCost, contentCost_append]
  omega

end OpenCapture

/-! ### No fault -/

section NoFault

variable [Rule R]

omit [Rule R] in
lemma firstFault_append (z : OpenElements) (ts : List Event) (events : List (Except XmlError Event)) :
    firstFault tree z (ts.map .ok ++ events) =
      (firstFault tree z (ts.map .ok) <|> firstFault tree (z.advanceAll ts) events) := by
  induction ts generalizing z with
  | nil => rfl
  | cons tok ts ih =>
    simp only [List.map_cons, List.cons_append, firstFault, ih, Spine.advanceAll_cons]
    cases fault tree z tok <;> rfl

/-- The room that a capture under way leaves for more content. -/
def HasRoom (tree : DescriptorTree R) (z : OpenElements) (cost : ℕ) : Prop :=
  ∀ id zs, tree.openCapture z = some (id, zs) → spineCost zs + cost ≤ tree.captureMemoryLimit

omit [Rule R] in
lemma overflowFault_eq_none {id : NodeId} {cost : ℕ} (h : cost ≤ tree.captureMemoryLimit) :
    overflowFault tree id cost = none := by
  simp [overflowFault, h]

lemma startFault_eq_none (hwf : tree.WellFormed) {z : OpenElements} {tag : BytesStart}
    (htag : tag.Readable)
    (hroom : HasRoom tree z (elementCost tag.tagName tag.attrs))
    (hfit : ∀ id, tree.evaluatedAt (tagsOf z ++ [tag.tagName]) = some id → tree.isCapture id = true →
      elementCost tag.tagName tag.attrs ≤ tree.captureMemoryLimit) :
    startFault tree z tag = none := by
  simp only [startFault, htag.1, htag.2]
  split
  case h_1 id zs hopen => exact overflowFault_eq_none (hroom id zs hopen)
  case h_2 hopen =>
    have hstream := openCapture_eq_none hopen
    split
    case isTrue => rfl
    case isFalse hbelow =>
      split
      case h_1 => rfl
      case h_2 id hchild =>
        have hcapture : tree.isCapture id = true →
            overflowFault tree id (elementCost tag.tagName tag.attrs) = none := by
          intro hcapture
          refine overflowFault_eq_none (hfit id ?_ hcapture)
          rw [DescriptorTree.evaluatedAt_concat hwf, hstream, if_neg (by simpa using hbelow), hchild]
        split <;> split <;> first | rfl | exact hcapture ‹_›

omit [Rule R] in
lemma leafFault_eq_none {z : OpenElements} {leaf : LeafEvent} (hleaf : leaf.fault = none)
    (hroom : HasRoom tree z leaf.chars.utf8ByteSize) : leafFault tree z leaf = none := by
  simp only [leafFault, hleaf]
  split
  case h_1 id zs hopen => exact overflowFault_eq_none (hroom id zs hopen)
  case h_2 =>
    split
    · rfl
    · split <;> rfl

/-- The room left after content has been read. -/
lemma HasRoom.extend (hwf : tree.WellFormed) {z : OpenElements} {g : Content} {cost : ℕ}
    (h : HasRoom tree z (contentCost g + cost)) : HasRoom tree (z.extend g) cost := by
  intro id zs hopen
  rw [openCapture_extend hwf, Option.map_eq_some_iff] at hopen
  obtain ⟨⟨id', zs'⟩, hopen, heq⟩ := hopen
  obtain ⟨rfl, rfl⟩ := Prod.mk.inj heq
  obtain ⟨w, -, hne⟩ := (openCapture_spec hwf hopen).2
  have := h id' zs' hopen
  rw [spineCost_extend hne]
  omega

omit [Rule R] in
lemma HasRoom.mono {z : OpenElements} {cost cost' : ℕ} (h : HasRoom tree z cost) (hle : cost' ≤ cost) :
    HasRoom tree z cost' :=
  fun id zs hopen => le_trans (Nat.add_le_add_left hle _) (h id zs hopen)

/-- The room inside an element that has just been opened. -/
lemma HasRoom.open (hwf : tree.WellFormed) {z : OpenElements} {tag : BytesStart} {content : Content}
    (h : HasRoom tree z (frameCost ⟨tag, content⟩))
    (hfit : ∀ id, tree.evaluatedAt (tagsOf z ++ [tag.tagName]) = some id → tree.isCapture id = true →
      frameCost ⟨tag, content⟩ ≤ tree.captureMemoryLimit) :
    HasRoom tree (z ++ [⟨tag, .nil⟩]) (contentCost content) := by
  intro id zs hopen
  cases hz : tree.openCapture z with
  | some p =>
    obtain ⟨id', zs'⟩ := p
    rw [openCapture_concat hwf hz] at hopen
    obtain ⟨rfl, rfl⟩ := Prod.mk.inj (Option.some.inj hopen)
    have := h id' zs' hz
    simp only [frameCost, spineCost_append, spineCost_singleton, contentCost] at this ⊢
    omega
  | none =>
    obtain ⟨rfl, hcapture, hid⟩ := openCapture_concat_none hwf hz hopen
    have := hfit id hid hcapture
    simp only [frameCost, spineCost_singleton, contentCost] at this ⊢
    omega

/-- A document whose data can be decoded and whose captures fit has no fault. -/
theorem firstFault_writes (hwf : tree.WellFormed) {g : Content} {ts : List Event} (hdoc : Writes g ts)
    (z : OpenElements) (hread : Readable g) (hfit : CapturesFit tree (tagsOf z) g)
    (hroom : HasRoom tree z (contentCost g)) : firstFault tree z (ts.map .ok) = none := by
  induction hdoc generalizing z with
  | nil => rfl
  | @element tag content rest ts us _ _ ihc ihr =>
    obtain ⟨htag, hcontent, hrest⟩ := hread
    obtain ⟨hfits, hinside, hafter⟩ := hfit
    have hcost : contentCost (.element tag content rest) =
        frameCost ⟨tag, content⟩ + contentCost rest := rfl
    have hstart : startFault tree z tag = none := by
      refine startFault_eq_none hwf htag (hroom.mono ?_) fun id hid hcapture => ?_
      · simp only [hcost, frameCost]
        omega
      · exact le_trans (by simp [frameCost]) (hfits id hid hcapture)
    have hfirst := ihc (z ++ [⟨tag, .nil⟩]) hcontent (by simpa using hinside)
      ((hroom.mono (by rw [hcost]; omega)).open hwf hfits)
    have hsecond := ihr (z.extend (.element tag content .nil)) hrest (by simpa using hafter)
      (HasRoom.extend hwf (by simpa [contentCost, frameCost] using hroom))
    rw [List.map_cons, List.map_append, List.map_cons, firstFault, Spine.advance_start, firstFault_append,
      hfirst, Spine.advanceAll_writes ‹_›, Spine.extend_concat, Forest.nil_append, firstFault,
      Spine.advance_close, hsecond]
    simp only [fault, hstart]
    rfl
  | @empty tag rest us _ ih =>
    obtain ⟨htag, -, hrest⟩ := hread
    obtain ⟨hfits, -, hafter⟩ := hfit
    have hcost : contentCost (.element tag .nil rest) = frameCost ⟨tag, .nil⟩ + contentCost rest := rfl
    have hstart : startFault tree z tag = none := by
      refine startFault_eq_none hwf htag (hroom.mono ?_) fun id hid hcapture => ?_
      · simp only [hcost, frameCost]
        omega
      · exact le_trans (by simp [frameCost]) (hfits id hid hcapture)
    have hsecond := ih (z.extend (.element tag .nil .nil)) hrest (by simpa using hafter)
      (HasRoom.extend hwf (by simpa [contentCost, frameCost] using hroom))
    rw [List.map_cons, firstFault, Spine.advance_empty, hsecond]
    simp only [fault, hstart]
    rfl
  | @leaf leaf rest us _ ih =>
    obtain ⟨hleaf, hrest⟩ := hread
    have hsecond := ih (z.extend (.leaf leaf .nil)) hrest (by rw [tagsOf_extend]; exact hfit)
      (HasRoom.extend hwf (by simpa [contentCost] using hroom))
    have hfirst : leafFault tree z leaf = none :=
      leafFault_eq_none hleaf (hroom.mono (by simp [contentCost]))
    rw [List.map_cons, firstFault, Spine.advance_leaf, hsecond]
    simp only [fault, hfirst]
    rfl

end NoFault

/-! ### No overflow -/

/-- No element of the stream is opened as the 2^32nd child of its parent. -/
def CountersFit : OpenElements → List Event → Prop
  | _, [] => True
  | z, tok :: ts =>
    ((∃ tag, tok = .start tag ∨ tok = .empty tag) →
      ∀ f, z.getLast? = some f → f.content.elements.length + 1 < 2 ^ 32) ∧
    CountersFit (z.advance tok) ts

lemma countersFit_append (z : OpenElements) (ts us : List Event) :
    CountersFit z (ts ++ us) ↔ CountersFit z ts ∧ CountersFit (z.advanceAll ts) us := by
  induction ts generalizing z with
  | nil => simp [CountersFit]
  | cons tok ts ih => simp [CountersFit, ih, and_assoc]

/-- The innermost element has room for more children. -/
def HasChildRoom (z : OpenElements) (g : Content) : Prop :=
  ∀ f, z.getLast? = some f → f.content.elements.length + g.elements.length < 2 ^ 32

lemma HasChildRoom.extend {z : OpenElements} {g h : Content} (hroom : HasChildRoom z (g ++ h)) :
    HasChildRoom (z.extend g) h := by
  rcases List.eq_nil_or_concat' z with rfl | ⟨w, p, rfl⟩
  · simp [HasChildRoom]
  · intro f hf
    have := hroom p (by simp)
    obtain rfl : _ = f := by simpa using hf
    simp only [Forest.elements_append, List.length_append] at this ⊢
    omega

lemma HasChildRoom.opens {z : OpenElements} {tag : BytesStart} {content rest : Content}
    (hroom : HasChildRoom z (.element tag content rest)) :
    ∀ f, z.getLast? = some f → f.content.elements.length + 1 < 2 ^ 32 := by
  intro f hf
  have := hroom f hf
  simp only [Forest.elements, List.length_cons] at this
  omega

theorem countersFit_writes {g : Content} {ts : List Event} (hdoc : Writes g ts) (z : OpenElements)
    (hfew : FewChildren g) (hroom : HasChildRoom z g) : CountersFit z ts := by
  induction hdoc generalizing z with
  | nil => trivial
  | @element tag content rest ts us hts hus ihc ihr =>
    obtain ⟨hcount, hcontent, hrest⟩ := hfew
    have hinside : HasChildRoom (z ++ [⟨tag, .nil⟩]) content := by
      intro f hf
      obtain rfl : _ = f := by simpa using hf
      simpa [Forest.elements] using hcount
    have hafter : HasChildRoom (z.extend (.element tag content .nil)) rest :=
      HasChildRoom.extend (g := .element tag content .nil) hroom
    refine ⟨fun _ => hroom.opens, ?_⟩
    rw [countersFit_append, Spine.advance_start, Spine.advanceAll_writes hts, Spine.extend_concat]
    exact ⟨ihc _ hcontent hinside, by simp, by simpa using ihr _ hrest hafter⟩
  | @empty tag rest us _ ih =>
    have hafter : HasChildRoom (z.extend (.element tag .nil .nil)) rest :=
      HasChildRoom.extend (g := .element tag .nil .nil) hroom
    exact ⟨fun _ => hroom.opens, ih _ hfew.2.2 hafter⟩
  | @leaf leaf rest us _ ih =>
    have hafter : HasChildRoom (z.extend (.leaf leaf .nil)) rest :=
      HasChildRoom.extend (g := .leaf leaf .nil) hroom
    exact ⟨by simp, ih _ hfew hafter⟩

/-- Where no counter overflows and no node has more than 64 rules, no step panics. -/
lemma no_overflow {z : OpenElements} {ts us : List Event} {tok : Event} {p : Panic}
    (hfit : CountersFit z (ts ++ tok :: us)) (hrules : ∀ node ∈ tree.nodes, node.rules.length ≤ 64) :
    ¬ OverflowCause tree (z.advanceAll ts) tok p := by
  rw [countersFit_append] at hfit
  rintro (⟨tag, f, htok, hf, hfull⟩ | ⟨c, id, hclosing, hid, hlen⟩)
  · have := hfit.2.1 ⟨tag, htok⟩ f hf
    omega
  · have hmem : tree.desc id ∈ tree.nodes := by
      simp only [DescriptorTree.evaluatedAt, DescriptorTree.declaredAt] at hid
      split at hid
      case isTrue => cases hid
      case isFalse =>
        obtain ⟨i, hi, rfl⟩ := Option.map_eq_some_iff.mp hid
        exact DescriptorTree.desc_mem (List.findIdx?_eq_some_iff_getElem.mp hi).1
    have := hrules _ hmem
    omega

end XmlOxydizer
