import RestGraph.Document
import RestGraph.Proofs.Json
import RestGraph.Proofs.YamlNode

namespace RestGraph.Document

/-!
# Laws of reading descriptions

A text is a description, or it is refused, or the reading breaks. It breaks for what the text
holds: an integer of too many digits in JSON; in YAML a collection that stands for a key or a
timestamp, nodes or a text that stand for the members of a mapping, a word that is no truth value,
a number that cannot be read or held, or a timestamp of no time; in both a version that cannot be
written, and what is nested so deep that the stack has no room. Whatever else is wrong with a text,
it is refused.
-/

/-! ## Versions -/

/-- What follows the patch of a version: perhaps a suffix on the same line, and perhaps a newline
behind it. -/
def IsTail (s : List Char) : Prop :=
  ∃ suffix ending, s = suffix ++ ending ∧
    (suffix = [] ∨ ∃ r, suffix = '-' :: r ∧ r ≠ [] ∧ '\n' ∉ r) ∧
    (ending = [] ∨ ending = ['\n'])

/-- Version 3.0 or 3.1 with one digit for the patch. -/
def IsVersion (s : List Char) : Prop :=
  ∃ minor patch tail, s = '3' :: '.' :: minor :: '.' :: patch :: tail ∧
    (minor = '0' ∨ minor = '1') ∧ ('0' ≤ patch ∧ patch ≤ '9') ∧ IsTail tail

theorem atEnd_iff {s : List Char} : Text.atEnd s = true ↔ s = [] ∨ s = ['\n'] := by
  unfold Text.atEnd
  split <;> simp_all

theorem isTail_of_isVersionTail {s : List Char} (h : isVersionTail s = true) : IsTail s := by
  unfold isVersionTail at h
  split at h
  · rename_i c r
    obtain ⟨hc, hend⟩ := Bool.and_eq_true_iff.mp h
    refine ⟨'-' :: c :: r.takeWhile (· != '\n'), r.dropWhile (· != '\n'), ?_, .inr ⟨_, rfl, ?_, ?_⟩,
      atEnd_iff.mp hend⟩
    · rw [List.cons_append, List.cons_append, List.takeWhile_append_dropWhile]
    · exact List.cons_ne_nil _ _
    · rw [List.mem_cons, not_or]
      refine ⟨Ne.symm (bne_iff_ne.mp hc), fun hmem => ?_⟩
      simpa using List.mem_takeWhile_imp hmem
  · exact ⟨[], s, rfl, .inl rfl, atEnd_iff.mp h⟩

theorem isVersionTail_of_isTail {s : List Char} (h : IsTail s) : isVersionTail s = true := by
  obtain ⟨suffix, ending, rfl, rfl | ⟨r, rfl, hne, hline⟩, hending⟩ := h
  · rcases hending with rfl | rfl <;> rfl
  · obtain ⟨c, r, rfl⟩ := List.exists_cons_of_ne_nil hne
    rw [List.mem_cons, not_or] at hline
    have hrest : (r ++ ending).dropWhile (· != '\n') = ending := by
      rw [List.dropWhile_append_of_pos fun d hd => ?_]
      · rcases hending with rfl | rfl <;> rfl
      · rw [bne_iff_ne]
        rintro rfl
        exact hline.2 hd
    rw [List.cons_append, List.cons_append, isVersionTail, hrest, Bool.and_eq_true, bne_iff_ne]
    exact ⟨Ne.symm hline.1, atEnd_iff.mpr hending⟩

theorem isSupported_iff {version : String} :
    isSupported version = true ↔ IsVersion version.toList := by
  constructor
  · intro h
    unfold isSupported at h
    split at h
    · rename_i minor patch r hs
      simp only [Bool.and_eq_true, Bool.or_eq_true, beq_iff_eq, decide_eq_true_eq] at h
      obtain ⟨⟨hminor, hpatch⟩, htail⟩ := h
      exact ⟨minor, patch, r, hs, hminor, hpatch, isTail_of_isVersionTail htail⟩
    · cases h
  · rintro ⟨minor, patch, tail, hs, hminor, hpatch, htail⟩
    rw [isSupported, hs]
    simp only [Bool.and_eq_true, Bool.or_eq_true, beq_iff_eq, decide_eq_true_eq]
    exact ⟨⟨hminor, hpatch⟩, isVersionTail_of_isTail htail⟩

/-! ## Checks -/

/-- A description names a supported version, or it names none and is one of Swagger. -/
def IsDescription (ms : Table String Value) : Prop :=
  (∃ v, Table.get? ms "openapi" = some v ∧ v ≠ .null ∧ IsVersion v.plain.toList) ∨
    ((Table.get? ms "openapi" = none ∨ Table.get? ms "openapi" = some .null) ∧
      Table.contains ms "swagger" = true)

theorem memberOr_eq_null_iff {ms : Table String Value} {key : String} :
    Value.memberOr ms key .null = .null ↔
      Table.get? ms key = none ∨ Table.get? ms key = some .null := by
  rw [Value.memberOr]
  cases Table.get? ms key <;> simp

/-- What is wrong with a version that is neither supported nor refused. -/
inductive VersionBreaks (stack : Stack) (version : Value) : Fault → Prop where
  | unwritable (h : version.isWritable = false) : VersionBreaks stack version (.broken .badContent)
  | tooNested (h : stack.text version = false) : VersionBreaks stack version .tooNested

theorem writtenVersion_outcome (stack : Stack) (version : Value) :
    writtenVersion stack version = .ok version.plain ∨
      ∃ f, writtenVersion stack version = .error f ∧ VersionBreaks stack version f := by
  unfold writtenVersion Value.written
  split
  · split
    · exact .inl rfl
    · rename_i hwritable
      exact .inr ⟨_, rfl, .unwritable (by simpa using hwritable)⟩
  · rename_i hroom
    exact .inr ⟨_, rfl, .tooNested (by simpa using hroom)⟩

/-- A value is a description, or it is refused, or its version breaks the check. -/
theorem inspect_outcome (stack : Stack) (v : Value) :
    (∃ ms, v = .map ms ∧ IsDescription ms ∧ inspect stack v = .ok v) ∨
    (∃ f, inspect stack v = .error (.refused f)) ∨
    ∃ ms version f, v = .map ms ∧ Table.get? ms "openapi" = some version ∧
      inspect stack v = .error f ∧ VersionBreaks stack version f := by
  unfold inspect
  split
  · rename_i ms
    split
    · rename_i hnull
      split
      · rename_i hswagger
        exact .inl ⟨ms, rfl, .inr ⟨memberOr_eq_null_iff.mp hnull, hswagger⟩, rfl⟩
      · exact .inr (.inl ⟨_, rfl⟩)
    · rename_i hnull
      rw [memberOr_eq_null_iff] at hnull
      cases hv : Table.get? ms "openapi" with
      | none => exact (hnull (.inl hv)).elim
      | some version =>
          have hmember : Value.memberOr ms "openapi" .null = version := by
            rw [Value.memberOr, hv]
            rfl
          rw [hmember]
          rcases writtenVersion_outcome stack version with hwritten | ⟨f, hwritten, hbreaks⟩
          · by_cases hsupported : isSupported version.plain = true
            · refine .inl ⟨ms, rfl, .inl ⟨version, hv, ?_, isSupported_iff.mp hsupported⟩, ?_⟩
              · rintro rfl
                exact hnull (.inr hv)
              · simp [hwritten, hsupported, bind, Except.bind, pure, Except.pure]
            · exact .inr (.inl ⟨.unsupportedVersion version,
                by simp [hwritten, hsupported, bind, Except.bind]; rfl⟩)
          · exact .inr (.inr ⟨ms, version, f, rfl, hv, by rw [hwritten]; rfl, hbreaks⟩)
  · exact .inr (.inl ⟨_, rfl⟩)

/-! ## Breaks -/

/-- What a text has where its reading breaks. -/
inductive Breaks (stack : Stack) (format : Format) (text : String) : Fault → Prop where
  | integer (hformat : format ≠ .yaml) (h : Json.HasLongRun text.toList) :
      Breaks stack format text (.broken .badContent)
  | brackets (hformat : format ≠ .yaml)
      (h : stack.json < text.toList.countP Json.isOpening) : Breaks stack format text .tooNested
  | node {tokens : Array Yaml.Token} {i : Nat} {nodes : Array Yaml.Node} {f : Yaml.Fault}
      (hformat : format ≠ .json) (htokens : Yaml.Token.ofText? text = some tokens)
      (hgraph : Yaml.Graph.ofTokens? tokens.toList = some (some i, nodes))
      (hf : f ≠ .illFormed) (h : Yaml.Spoils stack.yaml nodes f) :
      Breaks stack format text (ofYaml f)
  | version {ms : Table String Value} {version : Value} {f : Fault}
      (hread : read stack format text = .ok (.map ms))
      (hversion : Table.get? ms "openapi" = some version) (h : VersionBreaks stack version f) :
      Breaks stack format text f

/-- A reading fails if at all by refusing the text, or by breaking for a cause. -/
def Falls (stack : Stack) (format : Format) (text : String) (f : Fault) : Prop :=
  (∃ fault, f = .refused fault) ∨ Breaks stack format text f

theorem readJson_falls {stack : Stack} {format : Format} {text : String} {f : Fault}
    (hformat : format ≠ .yaml) (h : readJson stack text = .error f) :
    Falls stack format text f := by
  unfold readJson at h
  split at h
  · cases h
  · rename_i f' hparse
    have hcause := Json.causes_of_parseWithin hparse
    split at h
    · rename_i hreason
      obtain rfl := Except.error.inj h
      rw [hreason] at hcause
      exact .inr (.integer hformat hcause)
    · rename_i hreason
      obtain rfl := Except.error.inj h
      rw [hreason] at hcause
      exact .inr (.brackets hformat hcause)
    · obtain rfl := Except.error.inj h
      exact .inl ⟨_, rfl⟩

theorem readYaml_falls {stack : Stack} {format : Format} {text : String} {f : Fault}
    (hformat : format ≠ .json) (h : readYaml stack text = .error f) :
    Falls stack format text f := by
  unfold readYaml at h
  cases hparse : Yaml.parseWithin stack.yaml text with
  | ok v =>
      rw [hparse] at h
      cases h
  | error f' =>
      rw [hparse] at h
      obtain rfl := Except.error.inj h
      by_cases hill : f' = .illFormed
      · exact .inl ⟨_, by rw [hill]; rfl⟩
      · obtain ⟨tokens, i, nodes, htokens, hgraph, hspoils⟩ :=
          Yaml.spoils_of_parseWithin hparse hill
        exact .inr (.node hformat htokens hgraph hill hspoils)

/-- Of a text of no known format both readers count: YAML is read where JSON is refused. -/
theorem read_falls {stack : Stack} {format : Format} {text : String} {f : Fault}
    (h : read stack format text = .error f) : Falls stack format text f := by
  cases format with
  | json => exact readJson_falls (by decide) h
  | yaml => exact readYaml_falls (by decide) h
  | unknown =>
      rw [read] at h
      split at h
      · exact readYaml_falls (by decide) h
      · exact readJson_falls (by decide) h

/-- Every text is read as a description, or it is refused, or the reading breaks for a cause that
lies in the text and the room that the stack has. -/
theorem description_of_every_text (stack : Stack) (format : Format) (text : String) :
    (∃ ms, load stack format text = .ok (.map ms) ∧ IsDescription ms) ∨
    (∃ f, load stack format text = .error (.refused f)) ∨
    ∃ f, load stack format text = .error f ∧ Breaks stack format text f := by
  rw [load]
  cases hread : read stack format text with
  | error f =>
      rcases read_falls hread with ⟨fault, rfl⟩ | hbreaks
      · exact .inr (.inl ⟨fault, rfl⟩)
      · exact .inr (.inr ⟨f, rfl, hbreaks⟩)
  | ok v =>
      rcases inspect_outcome stack v with
        ⟨ms, rfl, hdescription, hcheck⟩ | ⟨f, hcheck⟩ | ⟨ms, version, f, rfl, hv, hcheck, hbreaks⟩
      · exact .inl ⟨ms, hcheck, hdescription⟩
      · exact .inr (.inl ⟨f, hcheck⟩)
      · exact .inr (.inr ⟨f, hcheck, .version hread hv hbreaks⟩)

/-- The breakage that a reading ends in, if it breaks. -/
def breakageOf? : Except Fault Value → Option Breakage
  | .error (.broken b) => some b
  | _ => none

theorem eq_error_of_breakageOf? {x : Except Fault Value} {b : Breakage}
    (h : breakageOf? x = some b) : x = .error (.broken b) := by
  unfold breakageOf? at h
  split at h
  · obtain rfl := Option.some.inj h
    rfl
  · cases h

def listedKey : String := "openapi: 3.0.0
? [a]
: b
"

/-- A list that stands for a key breaks the reading, although the text is well formed and the stack
has room for all of it. -/
theorem listedKey_breaks :
    load (.ample listedKey) .yaml listedKey = .error (.broken .wrongKind) ∧
    ¬ ((∃ ms, load (.ample listedKey) .yaml listedKey = .ok (.map ms)) ∨
      ∃ f, load (.ample listedKey) .yaml listedKey = .error (.refused f)) := by
  have hbreaks : load (.ample listedKey) .yaml listedKey = .error (.broken .wrongKind) :=
    eq_error_of_breakageOf? (by decide +kernel)
  refine ⟨hbreaks, ?_⟩
  rw [hbreaks]
  rintro (⟨ms, h⟩ | ⟨f, h⟩)
  · cases h
  · cases h

end RestGraph.Document
