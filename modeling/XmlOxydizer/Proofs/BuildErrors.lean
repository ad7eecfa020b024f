import XmlOxydizer.Proofs.Schemas

/-!
# What `build` rejects

`build` looks for duplicate paths, then for rules on nodes of the wrong access mode, then for nested captures, and
returns the first defect that it finds. It reports no other error and does not panic.
-/

namespace XmlOxydizer

open Lists Relation

variable {R : Type}

/-- The paths of the declarations. -/
def pathsOf (decls : List (NodeDeclaration R)) : List (List PathSegment) := decls.map NodeDeclaration.fullPath

/-- The rules of a declaration can be evaluated in its access mode. -/
def RulesFit [Rule R] (d : NodeDeclaration R) (rules : List R) : Prop :=
  ∀ rule ∈ rules, (Rule.needs rule).isCapture = true → d.isCapture = true

/-- `f` is declared as a capture above `d`. -/
structure CaptureAbove (decls : List (NodeDeclaration R)) (d f : NodeDeclaration R) : Prop where
  mem : f ∈ decls
  capture : f.isCapture = true
  above : f.fullPath <+: d.fullPath
  ne : f.fullPath ≠ d.fullPath

/-- The innermost of the captures above `d`. -/
structure NearestCapture (decls : List (NodeDeclaration R)) (d f : NodeDeclaration R) : Prop where
  capture_above : CaptureAbove decls d f
  nearest : ∀ g, CaptureAbove decls d g → g.fullPath <+: f.fullPath

/-- The first defect of the declarations, and the error for it. -/
inductive FirstDefect [Rule R] (decls : List (NodeDeclaration R)) : BuilderError → Prop
  | duplicatePath (before : List (NodeDeclaration R)) (d : NodeDeclaration R) (after : List (NodeDeclaration R))
      (hdecls : decls = before ++ d :: after) (hnew : (pathsOf before).Nodup)
      (hold : d.fullPath ∈ pathsOf before) : FirstDefect decls (.duplicatePath (formatPath d.fullPath))
  | incompatibleAccessMode (before : List (NodeDeclaration R)) (d : NodeDeclaration R)
      (after : List (NodeDeclaration R)) (rules : List R) (rule : R) (rules' : List R)
      (hpaths : (pathsOf decls).Nodup) (hdecls : decls = before ++ d :: after)
      (hbefore : ∀ e ∈ before, RulesFit e e.rules) (hrules : d.rules = rules ++ rule :: rules')
      (hfit : RulesFit d rules) (hneeds : (Rule.needs rule).isCapture = true) (hmode : d.isCapture = false) :
      FirstDefect decls (.incompatibleAccessMode (formatPath d.fullPath) (Rule.name rule))
  | nestedCapture (before : List (NodeDeclaration R)) (d : NodeDeclaration R) (after : List (NodeDeclaration R))
      (f : NodeDeclaration R) (hpaths : (pathsOf decls).Nodup) (hrules : ∀ e ∈ decls, RulesFit e e.rules)
      (hdecls : decls = before ++ d :: after)
      (hbefore : ∀ e ∈ before, e.isCapture = true → ∀ g, ¬ CaptureAbove decls e g)
      (hcapture : d.isCapture = true) (hnearest : NearestCapture decls d f) :
      FirstDefect decls (.nestedCapture (formatPath d.fullPath) (formatPath f.fullPath))

namespace TreeBuilder

/-! ### Duplicate paths -/

lemma checkDuplicates_cons (seen : List (List PathSegment)) (d : NodeDeclaration R)
    (decls : List (NodeDeclaration R)) : checkDuplicates seen (d :: decls) =
      if d.fullPath ∈ seen then .error (.duplicatePath (formatPath d.fullPath))
      else checkDuplicates (d.fullPath :: seen) decls := rfl

lemma checkDuplicates_eq_error {seen : List (List PathSegment)} {decls : List (NodeDeclaration R)}
    {err : BuilderError} : checkDuplicates seen decls = .error err ↔
      ∃ before d after, decls = before ++ d :: after ∧ checkDuplicates seen before = .ok () ∧
        (d.fullPath ∈ seen ∨ d.fullPath ∈ pathsOf before) ∧
        err = .duplicatePath (formatPath d.fullPath) := by
  induction decls generalizing seen with
  | nil => simp [checkDuplicates]
  | cons d decls ih =>
    rw [checkDuplicates_cons]
    by_cases hmem : d.fullPath ∈ seen
    · rw [if_pos hmem]
      constructor
      · intro h
        exact ⟨[], d, decls, rfl, rfl, .inl hmem, (Except.error.inj h).symm⟩
      · rintro ⟨before, e, after, hdecls, hok, -, rfl⟩
        cases before with
        | nil =>
          obtain ⟨rfl, rfl⟩ := List.cons.inj hdecls
          rfl
        | cons f before =>
          obtain ⟨rfl, -⟩ := List.cons.inj hdecls
          rw [checkDuplicates_cons, if_pos hmem] at hok
          cases hok
    · rw [if_neg hmem]
      apply ih.trans
      constructor
      · rintro ⟨before, e, after, rfl, hok, hold, rfl⟩
        refine ⟨d :: before, e, after, rfl, ?_, ?_, rfl⟩
        · rwa [checkDuplicates_cons, if_neg hmem]
        · simp only [pathsOf, List.map_cons, List.mem_cons] at hold ⊢
          tauto
      · rintro ⟨before, e, after, hdecls, hok, hold, rfl⟩
        cases before with
        | nil =>
          obtain ⟨rfl, rfl⟩ := List.cons.inj hdecls
          simp [pathsOf, hmem] at hold
        | cons f before =>
          obtain ⟨rfl, rfl⟩ := List.cons.inj hdecls
          rw [checkDuplicates_cons, if_neg hmem] at hok
          refine ⟨before, e, after, rfl, hok, ?_, rfl⟩
          simp only [pathsOf, List.map_cons, List.mem_cons] at hold ⊢
          tauto

section Rules

variable [Rule R] {d : NodeDeclaration R} {decls : List (NodeDeclaration R)} {err : BuilderError}

/-! ### Rules on nodes of the wrong access mode -/

/-- The second check on one rule. -/
def checkRule (d : NodeDeclaration R) (rule : R) : Except BuilderError Unit :=
  if (Rule.needs rule).isCapture && !d.isCapture then
    .error (.incompatibleAccessMode (formatPath d.fullPath) (Rule.name rule))
  else .ok ()

lemma checkRules_cons (rule : R) (rules : List R) :
    checkRules d (rule :: rules) = checkRule d rule >>= fun _ => checkRules d rules := by
  unfold checkRule
  rw [checkRules]
  split <;> rfl

lemma checkRule_eq_ok {rule : R} : checkRule d rule = .ok () ↔
    ((Rule.needs rule).isCapture = true → d.isCapture = true) := by
  unfold checkRule
  split_ifs with h <;> simp_all

lemma rulesFit_iff {rules : List R} : RulesFit d rules ↔ checkRules d rules = .ok () := by
  rw [checks_eq_ok rfl checkRules_cons]
  exact forall₂_congr fun rule _ => checkRule_eq_ok.symm

lemma checkRules_eq_error {rules : List R} : checkRules d rules = .error err ↔
    ∃ before rule after, rules = before ++ rule :: after ∧ RulesFit d before ∧
      (Rule.needs rule).isCapture = true ∧ d.isCapture = false ∧
      err = .incompatibleAccessMode (formatPath d.fullPath) (Rule.name rule) := by
  rw [checks_eq_error rfl checkRules_cons]
  simp only [← checkRule_eq_ok, RulesFit]
  constructor
  · rintro ⟨before, rule, after, rfl, hbefore, hrule⟩
    refine ⟨before, rule, after, rfl, fun r hr => hbefore r hr, ?_⟩
    unfold checkRule at hrule
    split_ifs at hrule with h
    simp_all
  · rintro ⟨before, rule, after, rfl, hbefore, hneeds, hmode, rfl⟩
    refine ⟨before, rule, after, rfl, hbefore, ?_⟩
    simp only [checkRule, hneeds, hmode, Bool.not_false, Bool.and_self, if_true]

lemma checkAccessModes_eq_error : checkAccessModes decls = .error err ↔
    ∃ before e after, decls = before ++ e :: after ∧ (∀ f ∈ before, RulesFit f f.rules) ∧
      checkRules e e.rules = .error err := by
  simp only [rulesFit_iff]
  exact checks_eq_error rfl fun _ _ => rfl

end Rules

/-! ### Nested captures -/

section Nesting

variable {decls : List (NodeDeclaration R)} {d e : NodeDeclaration R} {err : Abort BuilderError}

lemma eq_of_path (hpaths : (pathsOf decls).Nodup) (hd : d ∈ decls) (he : e ∈ decls)
    (h : d.fullPath = e.fullPath) : d = e := List.inj_on_of_nodup_map hpaths hd he h

lemma path_ne_nil_of_mem (hplaced : Placed decls) (hd : d ∈ decls) : d.fullPath ≠ [] := by
  obtain ⟨i, hi⟩ := List.mem_iff_getElem?.mp hd
  exact path_ne_nil hplaced hi

/-- The walk to the root stops at the first capture on the way. -/
lemma walkAncestors_eq (hplaced : Placed decls) (hpaths : (pathsOf decls).Nodup) {rounds p : ℕ}
    (hrounds : p < rounds) (he : decls[p]? = some e) : walkAncestors decls d rounds (some p) = .error err ↔
      ∃ f ∈ decls, f.isCapture = true ∧ f.fullPath <+: e.fullPath ∧
        (∀ g ∈ decls, g.isCapture = true → g.fullPath <+: e.fullPath → g.fullPath <+: f.fullPath) ∧
        err = .error (.nestedCapture (formatPath d.fullPath) (formatPath f.fullPath)) := by
  induction rounds generalizing p e with
  | zero => omega
  | succ rounds ih =>
    have hmem := List.mem_of_getElem? he
    simp only [walkAncestors, index_ok he, orPanic_ok, ok_bind]
    by_cases hcapture : e.isCapture = true
    · rw [if_pos hcapture]
      constructor
      · intro h
        exact ⟨e, hmem, hcapture, List.prefix_refl _, fun g _ _ hg => hg, (Except.error.inj h).symm⟩
      · rintro ⟨f, hf, -, hle, hnearest, rfl⟩
        have heq := hle.eq_of_length_le (hnearest e hmem hcapture (List.prefix_refl _)).length_le
        rw [heq]
    · rw [if_neg hcapture]
      have hother : ∀ f ∈ decls, f.isCapture = true → f.fullPath ≠ e.fullPath := by
        intro f hf hfcapture heq
        rw [eq_of_path hpaths hf hmem heq] at hfcapture
        exact hcapture hfcapture
      rcases hplaced p e he with ⟨hnone, -, hpath⟩ | ⟨q, g, hq, hlt, hg, hpath⟩
      · rw [hnone]
        apply iff_of_false
        · cases rounds <;> exact fun h => by cases h
        · rintro ⟨f, hf, hfcapture, hle, -⟩
          rw [hpath, ← List.nil_append [e.tag], List.prefix_concat_iff, List.nil_append, ← hpath] at hle
          apply path_ne_nil_of_mem hplaced hf
          exact List.prefix_nil.mp (hle.resolve_left (hother f hf hfcapture))
      · rw [hq, ih (by omega) hg]
        have hbelow : ∀ f ∈ decls, f.isCapture = true →
            (f.fullPath <+: g.fullPath ↔ f.fullPath <+: e.fullPath) := by
          intro f hf hfcapture
          rw [hpath, List.prefix_concat_iff, ← hpath]
          exact (or_iff_right (hother f hf hfcapture)).symm
        apply exists_congr
        intro f
        apply and_congr_right
        intro hf
        apply and_congr_right
        intro hfcapture
        rw [hbelow f hf hfcapture]
        apply and_congr_right
        intro _
        apply and_congr_left
        intro _
        apply forall_congr'
        intro k
        apply forall_congr'
        intro hk
        apply forall_congr'
        intro hkcapture
        rw [hbelow k hk hkcapture]

lemma walkParents_eq (hplaced : Placed decls) (hpaths : (pathsOf decls).Nodup) (hd : d ∈ decls) :
    walkAncestors decls d decls.length d.parentIndex = .error err ↔ ∃ f, NearestCapture decls d f ∧
      err = .error (.nestedCapture (formatPath d.fullPath) (formatPath f.fullPath)) := by
  obtain ⟨i, hi⟩ := List.mem_iff_getElem?.mp hd
  rcases hplaced i d hi with ⟨hnone, -, hpath⟩ | ⟨p, e, hp, hlt, he, hpath⟩
  · rw [hnone]
    apply iff_of_false
    · cases decls.length <;> exact fun h => by cases h
    · rintro ⟨f, ⟨⟨hf, hfcapture, hle, hne⟩, -⟩, -⟩
      rw [hpath, ← List.nil_append [d.tag], List.prefix_concat_iff, List.nil_append, ← hpath] at hle
      exact path_ne_nil_of_mem hplaced hf (List.prefix_nil.mp (hle.resolve_left hne))
  · have hrounds := (List.getElem?_eq_some_iff.mp he).1
    rw [hp, walkAncestors_eq hplaced hpaths hrounds he]
    have habove : ∀ f, CaptureAbove decls d f ↔
        f ∈ decls ∧ f.isCapture = true ∧ f.fullPath <+: e.fullPath := by
      intro f
      constructor
      · rintro ⟨hf, hfcapture, hle, hne⟩
        rw [hpath, List.prefix_concat_iff, ← hpath] at hle
        exact ⟨hf, hfcapture, hle.resolve_left hne⟩
      · rintro ⟨hf, hfcapture, hle⟩
        refine ⟨hf, hfcapture, hpath ▸ hle.trans (List.prefix_append _ _), fun heq => ?_⟩
        have hlength := hle.length_le
        rw [heq, hpath, List.length_append, List.length_singleton] at hlength
        omega
    constructor
    · rintro ⟨f, hf, hfcapture, hle, hnearest, rfl⟩
      refine ⟨f, ⟨(habove f).mpr ⟨hf, hfcapture, hle⟩, fun g hg => ?_⟩, rfl⟩
      obtain ⟨hmem, hgcapture, hgle⟩ := (habove g).mp hg
      exact hnearest g hmem hgcapture hgle
    · rintro ⟨f, ⟨hf, hnearest⟩, rfl⟩
      obtain ⟨hmem, hfcapture, hle⟩ := (habove f).mp hf
      refine ⟨f, hmem, hfcapture, hle, fun g hg hgcapture hgle => ?_, rfl⟩
      exact hnearest g ((habove g).mpr ⟨hg, hgcapture, hgle⟩)

/-- The third check on one declaration. -/
def checkCapture (decls : List (NodeDeclaration R)) (d : NodeDeclaration R) : Except (Abort BuilderError) Unit :=
  if d.isCapture then walkAncestors decls d decls.length d.parentIndex else .ok ()

lemma checkNesting_cons (d : NodeDeclaration R) (rest : List (NodeDeclaration R)) :
    checkNesting decls (d :: rest) = checkCapture decls d >>= fun _ => checkNesting decls rest := by
  unfold checkCapture
  rw [checkNesting]
  split <;> rfl

lemma checkCapture_eq_error (hplaced : Placed decls) (hpaths : (pathsOf decls).Nodup) (hd : d ∈ decls) :
    checkCapture decls d = .error err ↔ d.isCapture = true ∧ ∃ f, NearestCapture decls d f ∧
      err = .error (.nestedCapture (formatPath d.fullPath) (formatPath f.fullPath)) := by
  unfold checkCapture
  split_ifs with hcapture
  · rw [walkParents_eq hplaced hpaths hd]
    exact (and_iff_right hcapture).symm
  · exact iff_of_false (fun h => by cases h) (fun h => hcapture h.1)

lemma checkCapture_eq_ok (hplaced : Placed decls) (hpaths : (pathsOf decls).Nodup) (hd : d ∈ decls) :
    checkCapture decls d = .ok () ↔ (d.isCapture = true → ∀ g, ¬ CaptureAbove decls d g) := by
  unfold checkCapture
  split_ifs with hcapture
  case neg => exact iff_of_true rfl fun h => absurd h hcapture
  obtain ⟨i, hi⟩ := List.mem_iff_getElem?.mp hd
  rcases walkParents_cases hplaced hi with ⟨hok, hnone⟩ | ⟨⟨err, herr⟩, -⟩
  · apply iff_of_true hok
    rintro - g ⟨hg, hgcapture, hle, hne⟩
    obtain ⟨a, ha⟩ := List.mem_iff_getElem?.mp hg
    rcases reflTransGen_iff_eq_or_transGen.mp (ancestor_of_path hplaced hpaths ha hi hle) with rfl | habove
    · rw [Option.some.inj (ha.symm.trans hi)] at hne
      exact hne rfl
    · rw [hnone a g habove ha] at hgcapture
      cases hgcapture
  · apply iff_of_false
    · rw [herr]
      exact fun h => by cases h
    · intro hnone
      obtain ⟨f, hf, -⟩ := (walkParents_eq hplaced hpaths hd).mp herr
      exact hnone hcapture f hf.capture_above

lemma checkNesting_eq_error (hplaced : Placed decls) (hpaths : (pathsOf decls).Nodup) :
    checkNesting decls decls = .error err ↔ ∃ before d after, decls = before ++ d :: after ∧
      (∀ e ∈ before, e.isCapture = true → ∀ g, ¬ CaptureAbove decls e g) ∧ d.isCapture = true ∧
      ∃ f, NearestCapture decls d f ∧
        err = .error (.nestedCapture (formatPath d.fullPath) (formatPath f.fullPath)) := by
  rw [checks_eq_error rfl checkNesting_cons]
  apply exists_congr
  intro before
  apply exists_congr
  intro d
  apply exists_congr
  intro after
  apply and_congr_right
  intro hdecls
  have hd : d ∈ decls := by simp [hdecls]
  have hbefore : ∀ e ∈ before, e ∈ decls := fun e he => by simp [hdecls, he]
  rw [checkCapture_eq_error hplaced hpaths hd]
  apply and_congr_left
  intro _
  exact forall₂_congr fun e he => checkCapture_eq_ok hplaced hpaths (hbefore e he)

end Nesting

/-! ### The first defect -/

section Defects

variable [Rule R] {decls : List (NodeDeclaration R)} {err : BuilderError} {b : TreeBuilder R}

/-- The defects in the order in which the checks look for them. -/
lemma firstDefect_iff (hplaced : Placed decls) : FirstDefect decls err ↔
    checkDuplicates [] decls = .error err ∨
    (checkDuplicates [] decls = .ok () ∧ checkAccessModes decls = .error err) ∨
    checkDuplicates [] decls = .ok () ∧ checkAccessModes decls = .ok () ∧
      checkNesting decls decls = .error (.error err) := by
  have hdistinct : ∀ ds : List (NodeDeclaration R), checkDuplicates [] ds = .ok () ↔ (pathsOf ds).Nodup := by
    intro ds
    rw [checkDuplicates_eq_ok]
    exact and_iff_left fun d _ => List.not_mem_nil
  have hmodes : checkAccessModes decls = .ok () ↔ ∀ e ∈ decls, RulesFit e e.rules := by
    simp only [rulesFit_iff]
    exact checks_eq_ok rfl fun _ _ => rfl
  rw [hdistinct, hmodes]
  constructor
  · intro h
    cases h with
    | duplicatePath before d after hdecls hnew hold =>
      apply Or.inl
      rw [checkDuplicates_eq_error]
      exact ⟨before, d, after, hdecls, (hdistinct before).mpr hnew, .inr hold, rfl⟩
    | incompatibleAccessMode before d after rules rule rules' hpaths hdecls hbefore hrules hfit hneeds hmode =>
      refine .inr (.inl ⟨hpaths, ?_⟩)
      rw [checkAccessModes_eq_error]
      refine ⟨before, d, after, hdecls, hbefore, ?_⟩
      rw [checkRules_eq_error]
      exact ⟨rules, rule, rules', hrules, hfit, hneeds, hmode, rfl⟩
    | nestedCapture before d after f hpaths hrules hdecls hbefore hcapture hnearest =>
      refine .inr (.inr ⟨hpaths, hrules, ?_⟩)
      rw [checkNesting_eq_error hplaced hpaths]
      exact ⟨before, d, after, hdecls, hbefore, hcapture, f, hnearest, rfl⟩
  · rintro (hdup | ⟨hpaths, hacc⟩ | ⟨hpaths, hrules, hnest⟩)
    · obtain ⟨before, d, after, hdecls, hok, hold, rfl⟩ := checkDuplicates_eq_error.mp hdup
      exact .duplicatePath before d after hdecls ((hdistinct before).mp hok) (hold.resolve_left List.not_mem_nil)
    · obtain ⟨before, d, after, hdecls, hbefore, hd⟩ := checkAccessModes_eq_error.mp hacc
      obtain ⟨rules, rule, rules', hrules, hfit, hneeds, hmode, rfl⟩ := checkRules_eq_error.mp hd
      exact .incompatibleAccessMode before d after rules rule rules' hpaths hdecls hbefore hrules hfit hneeds hmode
    · obtain ⟨before, d, after, hdecls, hbefore, hcapture, f, hf, herr⟩ :=
        (checkNesting_eq_error hplaced hpaths).mp hnest
      obtain rfl := Abort.error.inj herr
      exact .nestedCapture before d after f hpaths hrules hdecls hbefore hcapture hf

lemma build_eq_error (hb : b.Valid) : b.build = .error (.error err) ↔ FirstDefect b.declarations err := by
  rw [firstDefect_iff hb.placed]
  have hne : b.declarations.isEmpty = false := by simpa using hb.declared
  cases hdup : checkDuplicates [] b.declarations with
  | error e => simp [build, hne, hdup]
  | ok u =>
    cases hacc : checkAccessModes b.declarations with
    | error e => simp [build, hne, hdup, hacc]
    | ok u =>
      cases hnest : checkNesting b.declarations b.declarations with
      | error e => simp [build, hne, hdup, hacc, hnest]
      | ok u =>
        have hok := (build_eq_ok hb).mpr ⟨hdup, hacc, hnest, rfl⟩
        rw [hok]
        simp

end Defects

end TreeBuilder

/-- `build` returns the error of the first defect of the declarations, whatever calls made them, and a tree where
there is no defect. There is no other error, and no panic. -/
theorem build_error_iff [Rule R] {rootTag : String} {cs : List (BuilderCall R)} {b : TreeBuilder R}
    (hcalls : (TreeBuilder.new rootTag).calls cs = .ok b) :
    (∀ err, b.build = .error (.error err) ↔ FirstDefect b.declarations err) ∧
      ((∃ tree, b.build = .ok tree) ↔ ∀ err, ¬ FirstDefect b.declarations err) := by
  have hb := TreeBuilder.valid_calls (TreeBuilder.valid_new rootTag) hcalls
  refine ⟨fun err => TreeBuilder.build_eq_error hb, ?_⟩
  simp only [← TreeBuilder.build_eq_error hb]
  rcases TreeBuilder.build_cases hb with ⟨-, hok⟩ | ⟨-, err, herr⟩
  · simp [hok]
  · simp [herr]

/-- A captured box with a captured item inside. -/
def nestedCalls : List (BuilderCall Probe) := [.node "box", .captureSubtree, .node "item", .captureSubtree]

theorem build_error_iff_sample : ∃ b, (TreeBuilder.new "list").calls nestedCalls = .ok b ∧
    FirstDefect b.declarations (.nestedCapture "list/box/item" "list/box") := by
  have hcalls : (TreeBuilder.new "list").calls nestedCalls = .ok _ := rfl
  exact ⟨_, hcalls, ((build_error_iff hcalls).1 _).mp rfl⟩

end XmlOxydizer
