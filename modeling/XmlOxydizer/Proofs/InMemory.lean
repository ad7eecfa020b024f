import XmlOxydizer.Proofs.Buffering

/-!
# Parsing data in memory

`parse_slice` has a loop of its own, which does what the loop of `parse_file` does. It checks all bytes
before it reads the first event, while `parse_file` checks the bytes that a declared element or a rule asks
for. They agree on valid UTF-8. What quick-xml makes of the bytes is a parameter of both.
-/

namespace XmlOxydizer

variable {R : Type}

/-- The two readers of quick-xml produce the same events for the same bytes. -/
def ReadsAlike (readBytes : ByteArray → List (Except XmlError Event))
    (readStr : String → List (Except XmlError Event)) : Prop :=
  ∀ text : String, readStr text = readBytes text.toUTF8

/-- Both parses return `Ok` or both return an error, and they have sent the same diagnostics. -/
structure SameOutcome (o o' : Outcome R) : Prop where
  ok_iff : o.result = .ok () ↔ o'.result = .ok ()
  error_iff : (∃ e, o.result = .error (.error e)) ↔ ∃ e, o'.result = .error (.error e)
  sent_eq : o.out.sent = o'.out.sent

lemma toUTF8_of_fromUtf8 {bytes : ByteArray} {text : String} (h : fromUtf8 bytes = .ok text) :
    text.toUTF8 = bytes := by
  unfold fromUtf8 String.fromUTF8? at h
  by_cases hvalid : bytes.IsValidUTF8
  · rw [dif_pos hvalid] at h
    cases h
    rfl
  · rw [dif_neg hvalid] at h
    cases h

/-- A parse that returns has failed without sending anything exactly when an event leads to an error
before a whole buffer of diagnostics is due. -/
lemma fails_silently_iff [Rule R] {checks : OverflowChecks} {tree : DescriptorTree R} (hwf : tree.WellFormed)
    {events : List (Except XmlError Event)}
    (hreturns : ∀ p, (parseFile checks tree events).result ≠ .error (.panic p)) :
    (∃ e, (parseFile checks tree events).result = .error (.error e)) ∧
        (parseFile checks tree events).out.sent = [] ↔
      firstFault tree [] events ≠ none ∧ (dueDiagnostics checks tree events).length < diagBufferDefault := by
  have hresult : (∃ e, (parseFile checks tree events).result = .error (.error e)) ↔
      firstFault tree [] events ≠ none := by
    have hparse := parseFile_ok checks hwf events
    generalize parseFile checks tree events = o at hparse hreturns
    cases hparse with
    | panicked p => exact absurd rfl (hreturns p)
    | finished ts s groups hevents hrun hfollows hgroups hout hbuffered hfault => simp [hfault]
    | failed e ts bad rest groups out hevents hgroups hout hbuffered hbad hfault => simp [hfault]
  rw [hresult, ← evaluated_due hwf hreturns, ← returnedDiagnostics]
  refine and_congr_right fun hfault => ?_
  obtain ⟨-, hsent⟩ := (sent_cases hwf hreturns).resolve_left fun h => hfault h.1
  rw [hsent, ← List.length_eq_zero_iff, List.length_take, Nat.min_eq_left (Nat.div_mul_le_self _ _)]
  simp [diagBufferDefault]

/-- On valid UTF-8 the two parses are the same. Other data is an error for `parse_slice`, which sends
nothing, so that the parses agree exactly where an event leads `parse_file` to an error before a whole
buffer of diagnostics is due. -/
theorem slice_agrees [Rule R] (t : BuiltTree R) (checks : OverflowChecks)
    (readBytes : ByteArray → List (Except XmlError Event)) (readStr : String → List (Except XmlError Event))
    (hread : ReadsAlike readBytes readStr) (data : ByteArray) :
    (∀ text, fromUtf8 data = .ok text →
      parseSlice checks t.tree readStr data = parseFile checks t.tree (readBytes data)) ∧
    ∀ e, fromUtf8 data = .error e →
      (parseSlice checks t.tree readStr data).result = .error (.error (.utf8 e)) ∧
      (parseSlice checks t.tree readStr data).out.sent = [] ∧
      ((∀ p, (parseFile checks t.tree (readBytes data)).result ≠ .error (.panic p)) →
        (SameOutcome (parseSlice checks t.tree readStr data) (parseFile checks t.tree (readBytes data)) ↔
          firstFault t.tree [] (readBytes data) ≠ none ∧
            (dueDiagnostics checks t.tree (readBytes data)).length < diagBufferDefault)) := by
  refine ⟨fun text htext => ?_, fun e he => ?_⟩
  · rw [parseSlice_valid htext, hread, toUTF8_of_fromUtf8 htext]
  rw [parseSlice_invalid he]
  refine ⟨rfl, rfl, fun hreturns => ?_⟩
  rw [← fails_silently_iff t.wellFormed hreturns]
  refine ⟨fun h => ⟨h.error_iff.mp ⟨_, rfl⟩, h.sent_eq.symm⟩, fun ⟨⟨e', he'⟩, hsent⟩ => ?_⟩
  constructor
  case ok_iff => exact iff_of_false nofun (by rw [he']; exact nofun)
  case error_iff => exact iff_of_true ⟨_, rfl⟩ ⟨e', he'⟩
  case sent_eq => exact hsent.symm

/-- The bytes of a comment of one byte inside a list, with this end tag. -/
def commented (byte : UInt8) (last : String) : ByteArray :=
  "<list><!--".toUTF8 ++ ⟨#[byte]⟩ ++ "-->".toUTF8 ++ last.toUTF8

/-- The events of a comment inside a list, for documents of this form. An end tag of another name is an
error. -/
def readCommented (data : ByteArray) : List (Except XmlError Event) :=
  if data.toList.take 10 = "<list><!--".toUTF8.toList then
    [.ok (.start (tagNamed "list" [])), .ok (.leaf .comment)] ++
      if data.toList.drop 11 = "--></list>".toUTF8.toList then [.ok .close] else [.error (.other "mismatch")]
  else []

lemma readCommented_alike : ReadsAlike readCommented (fun text => readCommented text.toUTF8) :=
  fun _ => rfl

/-- A comment that is not valid UTF-8 is skipped by `parse_file` and an error for `parse_slice`. -/
theorem slice_disagrees :
    ReadsAlike readCommented (fun text => readCommented text.toUTF8) ∧
      ¬ SameOutcome
        (parseSlice .checked sampleTree.tree (fun text => readCommented text.toUTF8) (commented 0xff "</list>"))
        (parseFile .checked sampleTree.tree (readCommented (commented 0xff "</list>"))) := by
  refine ⟨readCommented_alike, fun h => ?_⟩
  have hok : (parseFile .checked sampleTree.tree (readCommented (commented 0xff "</list>"))).result = .ok () := by
    decide +kernel
  have herror : fromUtf8 (commented 0xff "</list>") = .error ⟨⟩ := by decide +kernel
  have hslice := h.ok_iff.mpr hok
  rw [parseSlice_invalid herror] at hslice
  cases hslice

/-- A blank comment reads the same in both parses. Where the end tag does not match, both fail at a comment
that is not valid UTF-8. -/
theorem slice_agrees_sample :
    parseSlice .checked sampleTree.tree (fun text => readCommented text.toUTF8) (commented 0x20 "</list>") =
        parseFile .checked sampleTree.tree (readCommented (commented 0x20 "</list>")) ∧
      SameOutcome
        (parseSlice .checked sampleTree.tree (fun text => readCommented text.toUTF8) (commented 0xff "</item>"))
        (parseFile .checked sampleTree.tree (readCommented (commented 0xff "</item>"))) := by
  have hresult : (parseFile .checked sampleTree.tree (readCommented (commented 0xff "</item>"))).result =
      .error (.error (.xmlParse (.other "mismatch"))) := by decide +kernel
  have hblank := (slice_agrees sampleTree .checked readCommented _ readCommented_alike
    (commented 0x20 "</list>")).1 "<list><!-- --></list>" (by decide +kernel)
  obtain ⟨-, -, hiff⟩ := (slice_agrees sampleTree .checked readCommented _ readCommented_alike
    (commented 0xff "</item>")).2 ⟨⟩ (by decide +kernel)
  exact ⟨hblank, (hiff (by rw [hresult]; nofun)).mpr ⟨by decide +kernel, by decide +kernel⟩⟩

end XmlOxydizer
