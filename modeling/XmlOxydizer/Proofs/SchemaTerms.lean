import XmlOxydizer.Library.ForestPaths
import XmlOxydizer.Proofs.Macros

/-!
# Valid schema terms

The nodes of a schema term are the declarations that its expansion makes, in one order and with the same
paths. What `build` asks of the declarations can therefore be read off the term node by node.
-/

namespace XmlOxydizer

open Markup Relation

variable {R : Type}

/-- A schema term as a forest with one node at the top. -/
def Schema.forest (s : Schema) : SchemaBody := .element s.head s.body .nil

/-- The tag of a node as a segment of its path. -/
def NodeHead.segment (head : NodeHead) : PathSegment := ⟨head.tag⟩

def NodeHead.captures (head : NodeHead) : Bool := decide (head.mode = some .capture)

/-- Rules that need a capture stand in capture nodes, at every depth. -/
def RulesPlaced [Rule R] (value : RuleLiteral → R) : SchemaBody → Prop
  | .nil => True
  | .leaf _ rest => RulesPlaced value rest
  | .element head content rest =>
    (∀ rule ∈ content.leaves, (Rule.needs (value rule)).isCapture = true → head.captures = true) ∧
      RulesPlaced value content ∧ RulesPlaced value rest

/-- What `build` asks of a schema term: sibling nodes have different tags, rules that need a capture stand in
capture nodes, and no capture node stands inside another. -/
structure WellDeclared [Rule R] (value : RuleLiteral → R) (f : SchemaBody) : Prop where
  distinct : f.SiblingsDistinct NodeHead.segment
  rules_placed : RulesPlaced value f
  none_nested : f.NoneNested NodeHead.captures

instance RulesPlaced.decidable [Rule R] (value : RuleLiteral → R) :
    (f : SchemaBody) → Decidable (RulesPlaced value f)
  | .nil => inferInstanceAs (Decidable True)
  | .leaf _ rest => decidable value rest
  | .element head content rest =>
    have := decidable value content
    have := decidable value rest
    inferInstanceAs (Decidable ((∀ rule ∈ content.leaves, (Rule.needs (value rule)).isCapture = true →
      head.captures = true) ∧ RulesPlaced value content ∧ RulesPlaced value rest))

instance [Rule R] (value : RuleLiteral → R) (f : SchemaBody) : Decidable (WellDeclared value f) :=
  decidable_of_iff (f.SiblingsDistinct NodeHead.segment ∧ RulesPlaced value f ∧ f.NoneNested NodeHead.captures)
    ⟨fun h => ⟨h.1, h.2.1, h.2.2⟩, fun h => ⟨h.distinct, h.rules_placed, h.none_nested⟩⟩

/-! ### Nodes and declarations -/

/-- What a declaration says of a node apart from its place. -/
structure NodeBody (R : Type) where
  fullPath : List PathSegment
  isCapture : Bool
  rules : List R

def NodeDeclaration.body (d : NodeDeclaration R) : NodeBody R := ⟨d.fullPath, d.isCapture, d.rules⟩

/-- What a node of a term says. -/
def entryBody (value : RuleLiteral → R) (e : Forest.Entry PathSegment NodeHead RuleLiteral) : NodeBody R :=
  ⟨e.path, e.label.captures, e.content.leaves.map value⟩

/-- The declaration is that of the node. -/
structure Declares (value : RuleLiteral → R) (e : Forest.Entry PathSegment NodeHead RuleLiteral)
    (d : NodeDeclaration R) : Prop where
  path_eq : d.fullPath = e.path
  capture_eq : d.isCapture = e.label.captures
  rules_eq : d.rules = e.content.leaves.map value

section Entries

variable {value : RuleLiteral → R}

lemma declares_of_body {e : Forest.Entry PathSegment NodeHead RuleLiteral} {d : NodeDeclaration R}
    (h : d.body = entryBody value e) : Declares value e d := by
  simp only [NodeDeclaration.body, entryBody, NodeBody.mk.injEq] at h
  exact ⟨h.1, h.2.1, h.2.2⟩

lemma declared_bodies (value : RuleLiteral → R) (above : List PathSegment) (parent next : ℕ) (f : SchemaBody) :
    (declared value above parent next f).map NodeDeclaration.body =
      (f.entries NodeHead.segment above).map (entryBody value) := by
  induction f generalizing above parent next with
  | nil => rfl
  | leaf rule rest ih => exact ih above parent next
  | element head content rest ihc ihr =>
    rw [declared, Forest.entries, List.map_cons, List.map_append, List.map_cons, List.map_append, ihc, ihr]
    rfl

lemma Schema.bodies (value : RuleLiteral → R) (s : Schema) :
    (s.declarations value).map NodeDeclaration.body =
      (s.forest.entries NodeHead.segment []).map (entryBody value) := by
  rw [declarations, List.map_cons, declared_bodies, forest, Forest.entries, Forest.entries, List.append_nil]
  rfl

lemma Schema.declaration_of_entry (value : RuleLiteral → R) {s : Schema}
    {e : Forest.Entry PathSegment NodeHead RuleLiteral} (he : e ∈ s.forest.entries NodeHead.segment []) :
    ∃ (i : ℕ) (d : NodeDeclaration R), (s.declarations value)[i]? = some d ∧ Declares value e d := by
  have hmem : entryBody value e ∈ (s.declarations value).map NodeDeclaration.body := by
    rw [s.bodies]
    exact List.mem_map_of_mem he
  obtain ⟨d, hd, hbody⟩ := List.mem_map.mp hmem
  obtain ⟨i, hi⟩ := List.mem_iff_getElem?.mp hd
  exact ⟨i, d, hi, declares_of_body hbody⟩

lemma Schema.entry_of_declaration {s : Schema} {d : NodeDeclaration R} (hd : d ∈ s.declarations value) :
    ∃ e ∈ s.forest.entries NodeHead.segment [], Declares value e d := by
  have hmem : d.body ∈ (s.declarations value).map NodeDeclaration.body := List.mem_map_of_mem hd
  rw [s.bodies] at hmem
  obtain ⟨e, he, hbody⟩ := List.mem_map.mp hmem
  exact ⟨e, he, declares_of_body hbody.symm⟩

lemma rulesPlaced_iff [Rule R] (value : RuleLiteral → R) (f : SchemaBody) (above : List PathSegment) :
    RulesPlaced value f ↔
      ∀ e ∈ f.entries NodeHead.segment above, ∀ rule ∈ e.content.leaves,
        (Rule.needs (value rule)).isCapture = true → e.label.captures = true := by
  induction f generalizing above with
  | nil => simp [RulesPlaced, Forest.entries]
  | leaf rule rest ih => exact ih above
  | element head content rest ihc ihr =>
    simp only [RulesPlaced, Forest.entries, List.forall_mem_cons, List.forall_mem_append,
      ihc (above ++ [head.segment]), ihr above]

end Entries

/-! ### Valid declarations -/

/-- What `build` asks of the declarations, in terms of their paths. -/
structure ValidBodies [Rule R] (bodies : List (NodeBody R)) : Prop where
  paths_nodup : (bodies.map NodeBody.fullPath).Nodup
  capture_rules : ∀ x ∈ bodies, ∀ rule ∈ x.rules, (Rule.needs rule).isCapture = true → x.isCapture = true
  no_nesting : ∀ x ∈ bodies, ∀ y ∈ bodies, x.isCapture = true → y.isCapture = true →
    x.fullPath <+: y.fullPath → x.fullPath = y.fullPath

/-- A declaration above another one has a shorter path that begins the other's. -/
lemma path_of_ancestor {decls : List (NodeDeclaration R)} (hplaced : Placed decls) {i a : ℕ}
    {d e : NodeDeclaration R} (hd : decls[i]? = some d) (he : decls[a]? = some e)
    (h : TransGen (ParentOf decls) i a) : e.fullPath <+: d.fullPath ∧ e.fullPath ≠ d.fullPath := by
  have hparent : ∀ {i p : ℕ} {d e : NodeDeclaration R}, decls[i]? = some d → decls[p]? = some e →
      ParentOf decls i p → d.fullPath = e.fullPath ++ [d.tag] := by
    rintro i p d e hd he ⟨d', hd', hp⟩
    obtain rfl := Option.some.inj (hd.symm.trans hd')
    rcases hplaced i d hd with ⟨hnone, -, -⟩ | ⟨q, f, hq, -, hf, hpath⟩
    · rw [hnone] at hp
      cases hp
    · obtain rfl := Option.some.inj (hq.symm.trans hp)
      rwa [Option.some.inj (he.symm.trans hf)]
  induction h generalizing e with
  | single h =>
    rw [hparent hd he h]
    exact ⟨List.prefix_append _ _, by simp⟩
  | @tail b c _ hbc ih =>
    obtain ⟨f, hf, -⟩ := id hbc
    obtain ⟨hle, -⟩ := ih hf
    have hpath := hparent hf he hbc
    have hshort : e.fullPath <+: f.fullPath := by
      rw [hpath]
      exact List.prefix_append _ _
    refine ⟨hshort.trans hle, fun heq => ?_⟩
    have hlen := hle.length_le
    rw [← heq, hpath, List.length_append, List.length_singleton] at hlen
    omega

/-- Whether declarations are valid can be seen from their paths, modes and rules. -/
theorem validSchema_iff_bodies [Rule R] {decls : List (NodeDeclaration R)} (hplaced : Placed decls) :
    ValidSchema decls ↔ ValidBodies (decls.map NodeDeclaration.body) := by
  have hpaths : (decls.map NodeDeclaration.body).map NodeBody.fullPath = decls.map NodeDeclaration.fullPath := by
    rw [List.map_map]
    rfl
  constructor
  · intro h
    constructor
    case paths_nodup => rw [hpaths]; exact h.paths_nodup
    case capture_rules =>
      rw [List.forall_mem_map]
      exact fun d hd rule hrule hneeds => h.capture_rules d hd rule hrule (by simpa using hneeds)
    case no_nesting =>
      simp only [List.forall_mem_map]
      intro d hd e he hdcapture hecapture hle
      obtain ⟨i, hi⟩ := List.mem_iff_getElem?.mp hd
      obtain ⟨j, hj⟩ := List.mem_iff_getElem?.mp he
      have habove := TreeBuilder.ancestor_of_path hplaced h.paths_nodup hi hj hle
      rcases reflTransGen_iff_eq_or_transGen.mp habove with hij | habove
      · subst hij
        rw [Option.some.inj (hi.symm.trans hj)]
      · have hstream := h.no_nesting j e hj hecapture i d habove hi
        rw [show d.isCapture = true from hdcapture] at hstream
        cases hstream
  · intro h
    have hrules := h.capture_rules
    have hnested := h.no_nesting
    simp only [List.forall_mem_map] at hrules hnested
    refine ⟨by rw [← hpaths]; exact h.paths_nodup,
      fun d hd rule hrule hneeds => hrules d hd rule hrule (by simpa using hneeds), ?_⟩
    intro i d hd hcapture a e habove he
    obtain ⟨hle, hne⟩ := path_of_ancestor hplaced hd he habove
    by_contra hecapture
    exact hne (hnested e (List.mem_of_getElem? he) d (List.mem_of_getElem? hd)
      (Bool.eq_true_of_not_eq_false hecapture) hcapture hle)

lemma validBodies_iff [Rule R] (value : RuleLiteral → R) (f : SchemaBody) :
    ValidBodies ((f.entries NodeHead.segment []).map (entryBody value)) ↔ WellDeclared value f := by
  have hpaths : ((f.entries NodeHead.segment []).map (entryBody value)).map NodeBody.fullPath =
      (f.entries NodeHead.segment []).map Forest.Entry.path := by
    rw [List.map_map]
    rfl
  have hrules := rulesPlaced_iff value f []
  constructor
  · intro h
    have hdistinct := (Forest.nodup_paths_iff []).mp (hpaths ▸ h.paths_nodup)
    have hcapture := h.capture_rules
    have hnested := h.no_nesting
    simp only [List.forall_mem_map] at hcapture hnested
    refine ⟨hdistinct, hrules.mpr fun e he rule hrule hneeds => ?_,
      (Forest.noneNested_iff hdistinct []).mpr hnested⟩
    exact hcapture e he (value rule) (List.mem_map_of_mem hrule) hneeds
  · intro h
    constructor
    case paths_nodup => rw [hpaths]; exact (Forest.nodup_paths_iff []).mpr h.distinct
    case capture_rules =>
      simp only [List.forall_mem_map]
      intro e he rule hrule hneeds
      obtain ⟨literal, hliteral, rfl⟩ := List.mem_map.mp hrule
      exact hrules.mp h.rules_placed e he literal hliteral hneeds
    case no_nesting =>
      simp only [List.forall_mem_map]
      exact (Forest.noneNested_iff h.distinct []).mp h.none_nested

lemma Schema.placed (value : RuleLiteral → R) (s : Schema) : Placed (s.declarations value) := by
  have hvalid := TreeBuilder.valid_calls (TreeBuilder.valid_new s.head.tag) (s.fluent_emitted value).calls_eq
  exact hvalid.placed

/-- The declarations of a term are valid exactly when the term is. -/
theorem Schema.validSchema_iff [Rule R] (value : RuleLiteral → R) (s : Schema) :
    ValidSchema (s.declarations value) ↔ WellDeclared value s.forest := by
  rw [validSchema_iff_bodies (s.placed value), s.bodies, validBodies_iff]

/-! ### What `build_tree!` accepts -/

/-- The value of an invocation is what `build` makes of the declarations of the written term. -/
lemma buildTree_written [Rule R] (value : RuleLiteral → R) {s : Schema} {tokens : List TokenTree}
    (h : Written s tokens) : buildTree value tokens =
      some (TreeBuilder.build ⟨s.declarations value, [0], 64 * 1024 * 1024⟩) := by
  have hexpand : expand value tokens = some (s.head.tag, s.emitted value) :=
    expand_eq_some_iff.mpr ⟨s, h, rfl, rfl⟩
  rw [buildTree, hexpand]
  change some (orPanic ((TreeBuilder.new s.head.tag).calls (s.emitted value)) >>= TreeBuilder.build) = _
  rw [(s.fluent_emitted value).calls_eq, orPanic_ok, ok_bind]

lemma Schema.validBuilder (value : RuleLiteral → R) (s : Schema) :
    TreeBuilder.Valid (⟨s.declarations value, [0], 64 * 1024 * 1024⟩ : TreeBuilder R) :=
  TreeBuilder.valid_calls (TreeBuilder.valid_new s.head.tag) (s.fluent_emitted value).calls_eq

/-- An invocation of `build_tree!` yields a tree exactly when it writes a schema term whose sibling nodes have
different tags, whose rules that need a capture stand in capture nodes, and whose capture nodes are not nested.
Any other term that it writes is answered with an error, and an invocation that writes no term does not
compile. -/
theorem buildTree_accepts_iff [Rule R] (value : RuleLiteral → R) (tokens : List TokenTree) :
    ((∃ tree, buildTree value tokens = some (.ok tree)) ↔
      ∃ s : Schema, Written s tokens ∧ WellDeclared value s.forest) ∧
    ((∃ err, buildTree value tokens = some (.error (.error err))) ↔
      ∃ s : Schema, Written s tokens ∧ ¬ WellDeclared value s.forest) ∧
    (buildTree value tokens = none ↔ ∀ s : Schema, ¬ Written s tokens) := by
  have hcases : ∀ s : Schema, Written s tokens →
      (WellDeclared value s.forest ∧ ∃ tree, buildTree value tokens = some (.ok tree)) ∨
        ¬ WellDeclared value s.forest ∧ ∃ err, buildTree value tokens = some (.error (.error err)) := by
    intro s hs
    rw [buildTree_written value hs, ← s.validSchema_iff value]
    rcases TreeBuilder.build_cases (s.validBuilder value) with ⟨hvalid, hok⟩ | ⟨hinvalid, err, herr⟩
    · exact .inl ⟨hvalid, _, by rw [hok]⟩
    · exact .inr ⟨hinvalid, err, by rw [herr]⟩
  have hnone : buildTree value tokens = none ↔ ∀ s : Schema, ¬ Written s tokens := by
    constructor
    · intro hnone s hs
      rw [buildTree_written value hs] at hnone
      cases hnone
    · intro hunwritten
      rw [buildTree]
      cases hexpand : expand value tokens with
      | none => rfl
      | some x =>
        obtain ⟨s, hs, -⟩ := expand_eq_some_iff.mp hexpand
        exact absurd hs (hunwritten s)
  have hsome : ∀ {v}, buildTree value tokens = some v → ∃ s : Schema, Written s tokens := by
    intro v hv
    by_contra hunwritten
    rw [hnone.mpr fun s hs => hunwritten ⟨s, hs⟩] at hv
    cases hv
  refine ⟨⟨?_, ?_⟩, ⟨?_, ?_⟩, hnone⟩
  · rintro ⟨tree, htree⟩
    obtain ⟨s, hs⟩ := hsome htree
    refine ⟨s, hs, ?_⟩
    rcases hcases s hs with ⟨hvalid, -⟩ | ⟨-, err, herr⟩
    · exact hvalid
    · rw [htree] at herr
      cases herr
  · rintro ⟨s, hs, hvalid⟩
    exact ((hcases s hs).resolve_right fun h => h.1 hvalid).2
  · rintro ⟨err, herr⟩
    obtain ⟨s, hs⟩ := hsome herr
    refine ⟨s, hs, fun hvalid => ?_⟩
    obtain ⟨tree, htree⟩ := ((hcases s hs).resolve_right fun h => h.1 hvalid).2
    rw [htree] at herr
    cases herr
  · rintro ⟨s, hs, hinvalid⟩
    exact ((hcases s hs).resolve_left fun h => hinvalid h.1).2

end XmlOxydizer
