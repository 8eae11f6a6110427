import RiskGate.Profile.Toml
import RiskGate.Proofs.Json.Codec
import RiskGate.Proofs.Profile.Validity
import RiskGate.Proofs.Report.Failures

/-! # Loading profiles

A document may give any of the numbers in a profile, and the profile that is considered has those
and the defaults in place of the others. Nothing else in the document matters. What is accepted is
that profile, as it is, or else the complaint is about it.

* `Profile.Setting`: the numbers in a profile, and where a document has them;
* `Toml.Gives`: what a document gives;
* `Profile.ofToml?_eq_some_iff`: a profile is read setting by setting;
* `Profile.ofTomlText_exact`: what is loaded, and what is complained about.
-/

namespace RiskGate

namespace Profile

/-! ## Settings -/

/-- A number in a profile. -/
inductive Setting where
  | weight (category : Category)
  | allowBelow
  | blockAt
  deriving DecidableEq

namespace Setting

/-- The name of the section of a document that the setting belongs to. -/
def sectionName : Setting → String
  | .weight _ => "weights"
  | .allowBelow => "thresholds"
  | .blockAt => "thresholds"

/-- The key of the setting in a section that is a table. -/
def key : Setting → String
  | .weight c => c.name
  | .allowBelow => "allow_below"
  | .blockAt => "block_at"

/-- The place of the setting in a section that is an array. -/
def place : Setting → Nat
  | .weight c => Category.all.idxOf c
  | .allowBelow => 0
  | .blockAt => 1

instance : Fintype Setting where
  elems := ⟨(Category.all.map .weight ++ [.allowBelow, .blockAt] : List Setting), by decide⟩
  complete setting := by
    cases setting with
    | weight c => exact List.mem_append_left _ (List.mem_map_of_mem (Category.mem_all c))
    | allowBelow => decide
    | blockAt => decide

end Setting

/-- The value of a setting. -/
def get (profile : Profile) : Setting → Binary64
  | .weight c => PerCategory.get profile.weights c
  | .allowBelow => profile.thresholds.allowBelow
  | .blockAt => profile.thresholds.blockAt

/-- The profile with the given values. -/
def of (value : Setting → Binary64) : Profile where
  weights := .of fun c => value (.weight c)
  thresholds := { allowBelow := value .allowBelow, blockAt := value .blockAt }

@[simp] theorem get_of (value : Setting → Binary64) (setting : Setting) :
    (of value).get setting = value setting := by
  cases setting with
  | weight c => exact PerCategory.get_of _ c
  | allowBelow => rfl
  | blockAt => rfl

theorem ext_get {a b : Profile} (h : ∀ setting, a.get setting = b.get setting) : a = b := by
  obtain ⟨weights, low, high⟩ := a
  obtain ⟨weights', low', high'⟩ := b
  have hweights : weights = weights' := PerCategory.ext_get fun c => h (.weight c)
  have hlow : low = low' := h .allowBelow
  have hhigh : high = high' := h .blockAt
  rw [hweights, hlow, hhigh]

/-- The profile that has the given values, and the defaults where none is given. -/
def considered (given : Setting → Option Binary64) : Profile :=
  of fun setting => (given setting).getD (({} : Profile).get setting)

end Profile

namespace Toml

open Profile

/-! ## What a document gives -/

/-- A value that can be a section: a table, an array, or a date, which is a table without any of the
keys. -/
def IsSection : Toml → Prop
  | .table _ | .array _ | .dateTime _ => True
  | _ => False

instance : DecidablePred IsSection
  | .table _ | .array _ | .dateTime _ => isTrue trivial
  | .boolean _ | .integer _ | .float _ | .string _ => isFalse id

/-- The entry of a setting in a section: by its key in a table, by its place in an array. -/
def slot? (setting : Setting) : Toml → Option Toml
  | .table entries => entries.lookup setting.key
  | .array items => items[setting.place]?
  | _ => none

/-- The entry of a setting in a document. -/
def given? (setting : Setting) (document : Toml) : Option Toml :=
  (document.get? setting.sectionName).bind (slot? setting)

/-- A document gives values to some settings, if its entries for these, and for no others, are
these numbers. Keys and tables besides are as they may be. -/
structure Gives (document : Toml) (given : Setting → Option Binary64) : Prop where
  sections : ∀ setting : Setting, ∀ value ∈ document.get? setting.sectionName, value.IsSection
  entries : ∀ setting, (document.given? setting).map double? = (given setting).map some

instance (document : Toml) (given : Setting → Option Binary64) :
    Decidable (document.Gives given) :=
  decidable_of_iff
    ((∀ setting : Setting, ∀ value ∈ document.get? setting.sectionName, value.IsSection) ∧
      ∀ setting, (document.given? setting).map double? = (given setting).map some)
    ⟨fun h => ⟨h.1, h.2⟩, fun h => ⟨h.sections, h.entries⟩⟩

/-! ## Reading a profile -/

/-- The number that is read for a setting: that of its entry, if the entry is a number, and the
default if there is no entry. -/
def number? (setting : Setting) : Option Toml → Option Binary64
  | some entry => entry.double?
  | none => some (({} : Profile).get setting)

theorem number?_eq_some_iff {setting : Setting} {found? : Option Toml} {x : Binary64} :
    number? setting found? = some x ↔
      ∃ given : Option Binary64, found?.map double? = given.map some ∧
        x = given.getD (({} : Profile).get setting) := by
  cases found? with
  | none => simp [number?, eq_comm]
  | some entry =>
    constructor
    · intro hnumber
      exact ⟨some x, congrArg some hnumber, rfl⟩
    · rintro ⟨given, hgiven, rfl⟩
      cases given with
      | none => cases hgiven
      | some x => exact Option.some.inj hgiven

/-- A section gives numbers to its settings one by one. -/
theorem numbers?_eq_some_iff {settings : List Setting} {value : Toml} {numbers : List Binary64}
    (hplaces : settings.zipIdx = settings.map fun setting => (setting, setting.place)) :
    value.numbers? (settings.map fun setting => (setting.key, ({} : Profile).get setting)) =
        some numbers ↔
      value.IsSection ∧ List.Forall₂
        (fun setting x => number? setting (value.slot? setting) = some x) settings numbers := by
  cases value with
  | table entries =>
    rw [numbers?, Json.mapM_eq_some_iff, List.forall₂_map_left_iff]
    exact (iff_of_eq (true_and _)).symm
  | array items =>
    rw [numbers?, Json.mapM_eq_some_iff, List.zipIdx_map, hplaces, List.forall₂_map_left_iff,
      List.forall₂_map_left_iff]
    exact (iff_of_eq (true_and _)).symm
  | dateTime text =>
    have hdefaults : List.Forall₂ (· = ·) (settings.map ({} : Profile).get) numbers ↔
        settings.map ({} : Profile).get = numbers := by
      rw [List.forall₂_eq_eq_eq]
    rw [List.forall₂_map_left_iff] at hdefaults
    simpa [numbers?, IsSection, slot?, number?, Function.comp_def] using hdefaults.symm
  | boolean _ => simp [numbers?, IsSection]
  | integer _ => simp [numbers?, IsSection]
  | float _ => simp [numbers?, IsSection]
  | string _ => simp [numbers?, IsSection]

end Toml

open Toml

theorem Severities.ofToml?_eq_some_iff {value : Toml} {weights : Severities} :
    Severities.ofToml? value = some weights ↔ value.IsSection ∧
      ∀ c, number? (.weight c) (value.slot? (.weight c)) = some (PerCategory.get weights c) := by
  have hplaces : (Category.all.map Profile.Setting.weight).zipIdx =
      (Category.all.map Profile.Setting.weight).map fun setting => (setting, setting.place) := by
    decide
  have hlist : Severities.ofToml? value = some weights ↔
      value.numbers? ((Category.all.map Profile.Setting.weight).map fun setting =>
        (setting.key, ({} : Profile).get setting)) = some (PerCategory.toList weights) := by
    -- severities are made of a list of four numbers, and of no other
    rw [Severities.ofToml?, Option.bind_eq_bind, Option.bind_eq_some_iff]
    constructor
    · rintro ⟨numbers, hnumbers, hmatch⟩
      split at hmatch
      · cases hmatch
        exact hnumbers
      · cases hmatch
    · exact fun hnumbers => ⟨_, hnumbers, rfl⟩
  rw [hlist, numbers?_eq_some_iff hplaces, PerCategory.toList, List.forall₂_map_left_iff,
    List.forall₂_map_right_iff, List.forall₂_same]
  simp only [Category.mem_all, true_imp_iff]

theorem Thresholds.ofToml?_eq_some_iff {value : Toml} {thresholds : Thresholds} :
    Thresholds.ofToml? value = some thresholds ↔ value.IsSection ∧
      number? .allowBelow (value.slot? .allowBelow) = some thresholds.allowBelow ∧
      number? .blockAt (value.slot? .blockAt) = some thresholds.blockAt := by
  have hlist : Thresholds.ofToml? value = some thresholds ↔
      value.numbers? ([Profile.Setting.allowBelow, .blockAt].map fun setting =>
        (setting.key, ({} : Profile).get setting)) =
          some [thresholds.allowBelow, thresholds.blockAt] := by
    rw [Thresholds.ofToml?, Option.bind_eq_bind, Option.bind_eq_some_iff]
    constructor
    · rintro ⟨numbers, hnumbers, hmatch⟩
      split at hmatch
      · cases hmatch
        exact hnumbers
      · cases hmatch
    · exact fun hnumbers => ⟨_, hnumbers, rfl⟩
  rw [hlist, numbers?_eq_some_iff rfl]
  simp only [List.forall₂_cons, List.Forall₂.nil, and_true]

namespace Profile

theorem Setting.forall_iff {p : Setting → Prop} :
    (∀ setting, p setting) ↔ (∀ c, p (.weight c)) ∧ p .allowBelow ∧ p .blockAt := by
  constructor
  · exact fun h => ⟨fun c => h (.weight c), h .allowBelow, h .blockAt⟩
  · rintro ⟨hweights, hallow, hblock⟩ setting
    cases setting with
    | weight c => exact hweights c
    | allowBelow => exact hallow
    | blockAt => exact hblock

/-- The severities of a section that may be left out. -/
def weights? : Option Toml → Option Severities
  | some value => Severities.ofToml? value
  | none => some .default

/-- The thresholds of a section that may be left out. -/
def thresholds? : Option Toml → Option Thresholds
  | some value => Thresholds.ofToml? value
  | none => some {}

theorem ofToml?_eq (document : Toml) :
    ofToml? document = (weights? (document.get? "weights")).bind fun weights =>
      (thresholds? (document.get? "thresholds")).bind fun thresholds =>
        some { weights, thresholds } := by
  unfold ofToml?
  -- what follows a section is written out once for each way in which the section may be there
  cases document.get? "weights" <;> cases document.get? "thresholds" <;> rfl

/-- A section that is left out is read as one without entries. -/
theorem weights?_eq_some_iff {value? : Option Toml} {weights : Severities} :
    weights? value? = some weights ↔ (∀ value ∈ value?, value.IsSection) ∧
      ∀ c, number? (.weight c) (value?.bind (slot? (.weight c))) =
        some (PerCategory.get weights c) := by
  cases value? with
  | some value => simpa [weights?] using Severities.ofToml?_eq_some_iff
  | none =>
    have hdefaults : Severities.default = weights ↔
        ∀ c, PerCategory.get Severities.default c = PerCategory.get weights c :=
      ⟨fun h c => h ▸ rfl, PerCategory.ext_get⟩
    simpa [weights?, number?, get] using hdefaults

theorem thresholds?_eq_some_iff {value? : Option Toml} {thresholds : Thresholds} :
    thresholds? value? = some thresholds ↔ (∀ value ∈ value?, value.IsSection) ∧
      number? .allowBelow (value?.bind (slot? .allowBelow)) = some thresholds.allowBelow ∧
      number? .blockAt (value?.bind (slot? .blockAt)) = some thresholds.blockAt := by
  cases value? with
  | some value => simpa [thresholds?] using Thresholds.ofToml?_eq_some_iff
  | none =>
    cases thresholds
    simp [thresholds?, number?, get]

/-- A profile is read setting by setting. -/
theorem ofToml?_eq_some_iff {document : Toml} {profile : Profile} :
    ofToml? document = some profile ↔
      (∀ setting : Setting, ∀ value ∈ document.get? setting.sectionName, value.IsSection) ∧
      ∀ setting, number? setting (document.given? setting) = some (profile.get setting) := by
  have hparts : ofToml? document = some profile ↔
      weights? (document.get? "weights") = some profile.weights ∧
      thresholds? (document.get? "thresholds") = some profile.thresholds := by
    simp only [ofToml?_eq, Option.bind_eq_some_iff, Option.some.injEq]
    constructor
    · rintro ⟨weights, hweights, thresholds, hthresholds, rfl⟩
      exact ⟨hweights, hthresholds⟩
    · exact fun ⟨hweights, hthresholds⟩ => ⟨_, hweights, _, hthresholds, rfl⟩
  rw [hparts, weights?_eq_some_iff, thresholds?_eq_some_iff, Setting.forall_iff, Setting.forall_iff]
  -- all weights are in one section, and both thresholds in another
  simp only [Setting.sectionName, given?, get, forall_const, and_self]
  exact and_and_and_comm

/-- The profile that a document describes is the one with the values that it gives. -/
theorem ofToml?_eq_some_iff_gives {document : Toml} {profile : Profile} :
    ofToml? document = some profile ↔
      ∃ given, document.Gives given ∧ profile = considered given := by
  rw [ofToml?_eq_some_iff]
  constructor
  · rintro ⟨hsections, hnumbers⟩
    choose given hentries hvalues using fun setting => number?_eq_some_iff.mp (hnumbers setting)
    refine ⟨given, ⟨hsections, hentries⟩, ext_get fun setting => ?_⟩
    rw [considered, get_of, hvalues]
  · rintro ⟨given, hgiven, rfl⟩
    refine ⟨hgiven.sections, fun setting => ?_⟩
    exact number?_eq_some_iff.mpr ⟨given setting, hgiven.entries setting, get_of _ setting⟩

/-! ## Loading a profile -/

section

variable {text : String} {complaint : String → Option String} {profile : Profile}

theorem ofTomlText_of_read (hread : (Toml.ofText? text).bind ofToml? = some profile) :
    ofTomlText text complaint = profile.check.bind fun _ => .ok profile := by
  rw [ofTomlText, hread]
  rfl

theorem ofTomlText_eq_ok_iff (hread : (Toml.ofText? text).bind ofToml? = some profile)
    {loaded : Profile} :
    ofTomlText text complaint = .ok loaded ↔
      loaded = profile ∧ ∀ requirement, profile.Meets requirement := by
  rw [ofTomlText_of_read hread, ← check_eq_ok_iff, eq_comm (a := loaded)]
  cases profile.check with
  | error cause => simp [Except.bind]
  | ok _ => simp [Except.bind]

theorem ofTomlText_eq_error_iff (hread : (Toml.ofText? text).bind ofToml? = some profile)
    {e : ProfileError} :
    ofTomlText text complaint = .error e ↔
      FirstFailure Requirement.order profile.Violates e := by
  rw [ofTomlText_of_read hread, ← check_eq_error_iff]
  cases profile.check with
  | error cause => simp [Except.bind]
  | ok _ => simp [Except.bind]

/-- No complaint about a requirement is the one about a document that cannot be read. -/
theorem ofTomlText_eq_malformed_iff :
    ofTomlText text complaint = .error (@ProfileError.malformed (complaint text)) ↔
      (Toml.ofText? text).bind ofToml? = none := by
  cases hread : (Toml.ofText? text).bind ofToml? with
  | none =>
    rw [ofTomlText, hread]
    exact iff_of_true rfl rfl
  | some profile =>
    rw [ofTomlText_eq_error_iff hread]
    refine iff_of_false ?_ (Option.some_ne_none _)
    rintro ⟨_, requirement, _, -, ⟨-, hcomplaint⟩, -⟩
    cases requirement <;> cases hcomplaint

/-- A document that is TOML and gives numbers to some settings, if to any, describes the profile
with these and the defaults. That profile is loaded, as it is, exactly if it meets every
requirement, and otherwise the error is the complaint about the first one that it does not meet. No
other document is loaded, and the error then is what the reader says of it. A profile that has been
loaded passes the check of every assessment. -/
theorem ofTomlText_exact (text : String) (complaint : String → Option String) :
    (ofTomlText text complaint = .error (@ProfileError.malformed (complaint text)) ↔
      ¬ ∃ document given, Toml.ofText? text = some document ∧ document.Gives given) ∧
    ∀ document given, Toml.ofText? text = some document → document.Gives given →
      (∀ profile, ofTomlText text complaint = .ok profile ↔
        profile = considered given ∧ ∀ requirement, (considered given).Meets requirement) ∧
      (∀ e, ofTomlText text complaint = .error e ↔
        FirstFailure Requirement.order (considered given).Violates e) ∧
      ∀ profile, ofTomlText text complaint = .ok profile → ∀ facts classifier tool cause,
        assess facts classifier profile tool ≠ .error (.profile cause) := by
  constructor
  · rw [ofTomlText_eq_malformed_iff, ← Option.not_isSome_iff_eq_none, Option.isSome_iff_exists]
    simp only [Option.bind_eq_some_iff, ofToml?_eq_some_iff_gives]
    refine not_congr ⟨?_, ?_⟩
    · rintro ⟨_, document, hdocument, given, hgiven, -⟩
      exact ⟨document, given, hdocument, hgiven⟩
    · rintro ⟨document, given, hdocument, hgiven⟩
      exact ⟨_, document, hdocument, given, hgiven, rfl⟩
  · intro document given hdocument hgiven
    have hread : (Toml.ofText? text).bind ofToml? = some (considered given) := by
      rw [hdocument]
      exact ofToml?_eq_some_iff_gives.mpr ⟨given, hgiven, rfl⟩
    refine ⟨fun _ => ofTomlText_eq_ok_iff hread, fun _ => ofTomlText_eq_error_iff hread, ?_⟩
    intro profile hloaded facts classifier tool cause hblamed
    rcases (ofTomlText_eq_ok_iff hread).mp hloaded with ⟨rfl, hmeets⟩
    rw [assess_eq_profile_error_iff, check_eq_ok_iff.mpr hmeets] at hblamed
    cases hblamed

end

/-- Keys may be left out, and others may be added. Of several defects the first one in the order of
the requirements is named, wherever in the document it stands. -/
theorem ofTomlText_exact_partial :
    let partly := "[weights]\nreentrancy = 5\naudited = true\n[audit]\nyear = 2026\n" ++
      "[thresholds]\nblock_at = 8.5\n"
    let faulty := "thresholds = [8, 2]\nweights.access_control = -1.0\nweights.reentrancy = nan\n"
    ofTomlText partly = .ok {
      weights := { Severities.default with reentrancy := 5 }
      thresholds := { blockAt := 8.5 } } ∧
    ofTomlText faulty = .error (.invalidWeight .reentrancy .nan) := by
  intro partly faulty
  let given : Setting → Option Binary64
    | .weight .reentrancy => some 5
    | .blockAt => some 8.5
    | _ => none
  let given' : Setting → Option Binary64
    | .weight .reentrancy => some .nan
    | .weight .accessControl => some (-1)
    | .allowBelow => some 8
    | .blockAt => some 2
    | _ => none
  have hvalues : (∃ document ∈ Toml.ofText? partly, document.Gives given) ∧
      (∃ document ∈ Toml.ofText? faulty, document.Gives given') ∧
      (considered given).check = .ok () := by
    decide +kernel
  obtain ⟨⟨document, hdocument, hgiven⟩, ⟨document', hdocument', hgiven'⟩, hcheck⟩ := hvalues
  constructor
  · have hloads := ((ofTomlText_exact partly fun _ => none).2 document given hdocument hgiven).1
    exact (hloads _).mpr ⟨rfl, check_eq_ok_iff.mp hcheck⟩
  · have hcomplains := ((ofTomlText_exact faulty fun _ => none).2
      document' given' hdocument' hgiven').2.1
    refine (hcomplains _).mpr ⟨[], .weight .reentrancy, _, rfl, ⟨?_, rfl⟩, ?_⟩
    · exact fun hmeets => Bool.false_ne_true hmeets.1
    · exact fun _ hearlier => nomatch hearlier

end Profile

end RiskGate
