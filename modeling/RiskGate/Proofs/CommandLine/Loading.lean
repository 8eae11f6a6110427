import RiskGate.CommandLine.Run
import RiskGate.Proofs.Report.Errors
import RiskGate.Proofs.Stages

/-! # Files that cannot be loaded

A file may be missing, or its reader does not accept what it holds. The error names the file and
quotes whoever complained: the operating system, or the reader of that kind of document.

* `FactsFault`, `ProvidedFault` and `ProfileFault`: what may be wrong with a file, and the error;
* `loadFacts_eq_error_iff`, `loadProvided_eq_error_iff` and `loadProfile_eq_error_iff`: loading a
  file fails exactly so;
* `CommandError.Tells` and `CommandError.tells_chain`: what the error of a command says.
-/

namespace RiskGate.CommandLine

section

variable {files : FileSystem} {path : String}

/-! ## Fact documents -/

/-- What is wrong with the fact document at a path: it cannot be read, or it holds no list of
contracts. -/
inductive FactsFault (files : FileSystem) (path : String) : FactsError → Prop
  | unreadable {failure : FileFailure} : files.read path = .error failure →
      FactsFault files path (.unreadable path failure.message)
  | malformed {bytes : ByteArray} : files.read path = .ok bytes →
      (Json.ofBytes? bytes).bind FactDocument.contractsOf? = none →
      FactsFault files path (@FactsError.malformed path (files.complaints.facts bytes))

theorem ofBytes_eq_error_iff {source : Option String} {bytes : ByteArray}
    {complaint : ByteArray → Option String} {e : FactsError} :
    FactDocument.ofBytes source bytes complaint = .error e ↔
      (Json.ofBytes? bytes).bind FactDocument.contractsOf? = none ∧
      @FactsError.malformed (source.getD "<memory>") (complaint bytes) = e := by
  unfold FactDocument.ofBytes
  cases (Json.ofBytes? bytes).bind FactDocument.contractsOf? with
  | none => simp
  | some contracts => simp

theorem loadFacts_eq_error_iff {e : FactsError} :
    loadFacts files path = .error e ↔ FactsFault files path e := by
  rw [loadFacts, bind_eq_error_iff]
  simp only [mapError_eq_error_iff, mapError_eq_ok_iff, ofBytes_eq_error_iff]
  constructor
  · rintro (⟨failure, hread, rfl⟩ | ⟨bytes, hread, hnone, rfl⟩)
    · exact .unreadable hread
    · exact .malformed hread hnone
  · rintro (hread | ⟨hread, hnone⟩)
    · exact .inl ⟨_, hread, rfl⟩
    · exact .inr ⟨_, hread, hnone, rfl⟩

/-- A command that needs a fact document fails over it as the document is at fault. -/
theorem mapError_loadFacts_eq_error_iff {e : CommandError} :
    (loadFacts files path).mapError .facts = .error e ↔
      ∃ cause, FactsFault files path cause ∧ .facts cause = e := by
  simp only [mapError_eq_error_iff, loadFacts_eq_error_iff]

/-! ## Documents of the classifier -/

/-- What is wrong with a document of the classifier: it cannot be read, or it does not decode. -/
inductive ProvidedFault {α : Type} (files : FileSystem) (decode : Json → Option α)
    (complaint : ByteArray → Option String) (path : String) : ClassifierError → Prop
  | unreadable {failure : FileFailure} : files.read path = .error failure →
      ProvidedFault files decode complaint path
        (.unavailable ("failed to read " ++ path ++ ": " ++ failure.message))
  | malformed {bytes : ByteArray} : files.read path = .ok bytes →
      (Json.ofBytes? bytes).bind decode = none →
      ProvidedFault files decode complaint path (@ClassifierError.malformed path (complaint bytes))

theorem loadProvided_eq_error_iff {α : Type} {decode : Json → Option α}
    {complaint : ByteArray → Option String} {e : ClassifierError} :
    loadProvided files decode complaint path = .error e ↔
      ProvidedFault files decode complaint path e := by
  rw [loadProvided, bind_eq_error_iff]
  simp only [mapError_eq_error_iff, mapError_eq_ok_iff]
  constructor
  · rintro (⟨failure, hread, rfl⟩ | ⟨bytes, hread, hrejected⟩)
    · exact .unreadable hread
    · cases hvalue : (Json.ofBytes? bytes).bind decode with
      | none =>
        rw [hvalue] at hrejected
        cases hrejected
        exact .malformed hread hvalue
      | some value =>
        rw [hvalue] at hrejected
        cases hrejected
  · rintro (hread | ⟨hread, hnone⟩)
    · exact .inl ⟨_, hread, rfl⟩
    · exact .inr ⟨_, hread, by rw [hnone]⟩

/-! ## Profiles -/

/-- What is wrong with the profile at a path: it cannot be read, is not a text, or is a text that
no valid profile comes of. -/
inductive ProfileFault (files : FileSystem) (path : String) : ProfileError → Prop
  | unreadable {failure : FileFailure} : files.read path = .error failure →
      ProfileFault files path (.unreadable path failure.message)
  | encoded {bytes : ByteArray} : files.read path = .ok bytes → String.fromUTF8? bytes = none →
      ProfileFault files path (.unreadable path "stream did not contain valid UTF-8")
  | rejected {bytes : ByteArray} {text : String} {e : ProfileError} :
      files.read path = .ok bytes → String.fromUTF8? bytes = some text →
      Profile.ofTomlText text files.complaints.profile = .error e → ProfileFault files path e

theorem loadProfile_eq_error_iff {e : ProfileError} :
    loadProfile files path = .error e ↔ ProfileFault files path e := by
  rw [loadProfile, bind_eq_error_iff]
  simp only [mapError_eq_error_iff, mapError_eq_ok_iff]
  constructor
  · rintro (⟨failure, hread, rfl⟩ | ⟨bytes, hread, hrejected⟩)
    · exact .unreadable hread
    · cases htext : String.fromUTF8? bytes with
      | none =>
        rw [htext] at hrejected
        cases hrejected
        exact .encoded hread htext
      | some text =>
        rw [htext] at hrejected
        exact .rejected hread htext hrejected
  · rintro (hread | ⟨hread, hnone⟩ | ⟨hread, htext, hrejected⟩)
    · exact .inl ⟨_, hread, rfl⟩
    · refine .inr ⟨_, hread, ?_⟩
      rw [hnone]
      rfl
    · refine .inr ⟨_, hread, ?_⟩
      rw [htext]
      exact hrejected

end

/-! ## Errors of commands -/

/-- What the error of a command says. -/
inductive CommandError.Tells : CommandError → List String → Prop
  | facts {cause : FactsError} {texts : List String} : cause.Tells texts →
      Tells (.facts cause) texts
  | classifier {cause : ClassifierError} {texts : List String} : cause.Tells texts →
      Tells (.classifier cause) texts
  | profile {cause : ProfileError} {texts : List String} : cause.Tells texts →
      Tells (.profile cause) texts
  | assessment {cause : AssessError} {texts : List String} : cause.Tells texts →
      Tells (.assessment cause) texts
  | extraction {path : String} {cause : ExtractionError} {texts : List String} :
      cause.Tells texts →
      Tells (.extraction path cause) (("feature extraction failed for " ++ path) :: texts)
  | output (path : String) (cause : FileFailure) :
      Tells (.output path cause) ["failed to write " ++ path, cause.message]

theorem CommandError.tells_chain (e : CommandError) : e.Tells e.chain := by
  cases e with
  | facts cause => exact .facts cause.tells_chain
  | classifier cause => exact .classifier cause.tells_chain
  | profile cause => exact .profile cause.tells_chain
  | assessment cause => exact .assessment cause.tells_chain
  | extraction path cause => exact .extraction cause.tells_message
  | output path cause => exact .output path cause

end RiskGate.CommandLine
