import RiskGate.Proofs.Json.Codec
import RiskGate.Proofs.Policy.Monotonicity
import RiskGate.Report.Json

/-! # Sections of a report on the wire

Every section is decoded as the section that was encoded. Where it has doubles this takes that each
of them reads back; all other values always do.

* `FeatureVector.ofJson?_toJson` and its likes: sections without doubles;
* `Probabilities.ofJson?_toJson_iff`, `RiskAssessment.ofJson?_toJson_iff` and
  `Enforcement.ofJson?_toJson_iff`: sections with doubles;
* `writable_toJson` and `nulls_toJson` of each section: what is encoded can be written, and where it
  has nulls.
-/

namespace RiskGate

open Json

/-! ## Tool, input and analysis -/

theorem ToolIdentity.ofJson?_toJson (tool : ToolIdentity) : ofJson? tool.toJson = some tool := by
  rw [ofJson?, toJson, slots?_record]
  · simp [Slots.required, optionalText, Slots.optional, Slots.slot_cons_self,
      Slots.slot_cons_of_ne, text?_text, nullable?_text]
  · rfl
  · decide

theorem Fingerprint.ofJson?_toJson (hash : Fingerprint) : ofJson? hash.toJson = some hash := by
  rw [ofJson?, toJson, slots?_record]
  · simp [Slots.required, Slots.slot_cons_self, Slots.slot_cons_of_ne, text?_text]
  · rfl
  · decide

theorem FeatureVector.countOfJson?_nat (count : Count) :
    countOfJson? (nat count.toNat) = some count := by
  have hlimit := count.le_limit
  have hcut : Count.ofNat count.toNat = count := by
    cases count
    simp [Count.ofNat, hlimit]
  rw [countOfJson?, natBelow?_nat (by omega), Option.map_some, hcut]

theorem InputIdentity.ofJson?_toJson (input : InputIdentity) :
    ofJson? input.toJson = some input := by
  rw [ofJson?, toJson, slots?_record]
  · simp [Slots.required, optionalText, Slots.optional, Slots.slot_cons_self,
      Slots.slot_cons_of_ne, nullable?_text, FeatureVector.countOfJson?_nat,
      Fingerprint.ofJson?_toJson]
  · rfl
  · decide

theorem AnalysisState.ofJson?_toJson (info : AnalysisState) : ofJson? info.toJson = some info := by
  rw [ofJson?, toJson, slots?_record]
  · simp [Slots.required, Slots.slot_cons_self, Slots.slot_cons_of_ne, text?_text, list?_text]
  · rfl
  · decide

/-! ## Features and metrics -/

theorem FeatureVector.ofJson?_toJson (v : FeatureVector) : ofJson? v.toJson = some v := by
  rw [ofJson?, toJson, slots?_record]
  · -- counts and flags in the order of the names
    show Option.bind _ _ = _
    iterate 8 refine Slots.required_bind rfl (countOfJson?_nat _) ?_
    iterate 4 refine Slots.required_bind rfl (bool?_bool _) ?_
    iterate 2 refine Slots.required_bind rfl (countOfJson?_nat _) ?_
    refine Slots.required_bind rfl (bool?_bool _) ?_
    exact Slots.required_bind rfl (countOfJson?_nat _) rfl
  · rfl
  · decide

/-- Names that were written in order are read as the set that they came from. -/
theorem Names.ofList_toList (names : Names) : Std.ExtTreeSet.ofList names.toList = names := by
  apply Std.ExtTreeSet.ext_mem
  intro name
  rw [Std.ExtTreeSet.mem_ofList, List.contains_iff_mem, Std.ExtTreeSet.mem_toList]

theorem CallGraph.Metrics.ofJson?_toJson (m : CallGraph.Metrics) : ofJson? m.toJson = some m := by
  rw [ofJson?, toJson, slots?_record]
  · simp [Slots.required, Slots.slot_cons_self, Slots.slot_cons_of_ne, bool?_bool, list?_text,
      FeatureVector.countOfJson?_nat, Names.ofList_toList]
  · rfl
  · decide

/-! ## Doubles -/

theorem flatOfJson?_list_iff {xs : List Binary64} :
    flatOfJson? (list double xs) = some xs ↔
      xs.length = FeatureVector.names.length ∧ ∀ x ∈ xs, ReadsBack x := by
  have hread : list? double? (list double xs) = some xs ↔ ∀ x ∈ xs, ReadsBack x := by
    rw [list?_list]
    exact mapM_eq_some_self_iff
  rw [flatOfJson?, Option.filter_eq_some_iff, hread, decide_eq_true_eq, and_comm]

theorem Category.named?_text (c : Category) : named? names (text c.name) = some c :=
  c.lookup_name

namespace Probabilities

/-- The probabilities with those of a list of pairs given one after the other. -/
def withEntries (p : Probabilities) (entries : List (Category × Binary64)) : Probabilities :=
  entries.foldl (fun p (c, value) => p.insert c value) p

theorem get_withEntries_of_notMem {entries : List (Category × Binary64)} {c : Category}
    (h : c ∉ entries.map (·.1)) (p : Probabilities) :
    PerCategory.get (p.withEntries entries) c = PerCategory.get p c := by
  induction entries generalizing p with
  | nil => rfl
  | cons entry entries ih =>
    rw [List.map_cons, List.mem_cons, not_or] at h
    rw [withEntries, List.foldl_cons]
    exact (ih h.2 _).trans ((get_insert p _ c _).trans (if_neg h.1))

theorem get_withEntries_of_mem {entries : List (Category × Binary64)}
    (hnodup : (entries.map (·.1)).Nodup) {c : Category} {value : Binary64}
    (h : (c, value) ∈ entries) (p : Probabilities) :
    PerCategory.get (p.withEntries entries) c = some value := by
  induction entries generalizing p with
  | nil => cases h
  | cons entry entries ih =>
    rw [List.map_cons, List.nodup_cons] at hnodup
    rw [withEntries, List.foldl_cons]
    rcases List.mem_cons.mp h with rfl | hmem
    · exact (get_withEntries_of_notMem hnodup.1 _).trans ((get_insert p _ _ _).trans (if_pos rfl))
    · exact ih hnodup.2 hmem _

theorem nodup_entries (p : Probabilities) : (p.entries.map (·.1)).Nodup := by
  have hgiven :
      p.entries.map (·.1) = Category.all.filter fun c => (PerCategory.get p c).isSome := by
    rw [entries, List.map_filterMap, ← List.filterMap_eq_filter]
    congr 1
    funext c
    cases hget : PerCategory.get p c with
    | none => simp [Option.guard, hget]
    | some value => simp [Option.guard, hget]
  rw [hgiven]
  exact List.Nodup.filter _ (by decide)

/-- Probabilities are what their entries say. -/
theorem withEntries_entries (p : Probabilities) : empty.withEntries p.entries = p := by
  apply PerCategory.ext_get
  intro c
  cases hvalue : PerCategory.get p c with
  | some value => exact get_withEntries_of_mem p.nodup_entries (mem_entries.mpr hvalue) empty
  | none =>
    have habsent : c ∉ p.entries.map (·.1) := by
      intro hmem
      rcases List.mem_map.mp hmem with ⟨⟨_, value⟩, hentry, rfl⟩
      rw [mem_entries.mp hentry] at hvalue
      cases hvalue
    rw [get_withEntries_of_notMem habsent, empty, PerCategory.get_of]

/-- What the entry of a category is read back as. -/
def rereadEntry (entry : Category × Binary64) : Option (Category × Binary64) :=
  (reread entry.2).map fun value => (entry.1, value)

theorem rereadEntry_eq_self_iff {entry : Category × Binary64} :
    rereadEntry entry = some entry ↔ ReadsBack entry.2 := by
  rcases entry with ⟨c, value⟩
  simp [rereadEntry, ReadsBack]

theorem ofJson?_toJson (p : Probabilities) :
    ofJson? p.toJson = (p.entries.mapM rereadEntry).map empty.withEntries := by
  have hmembers : p.toJson.members? (Category.names.lookup ·) double? =
      p.entries.mapM rereadEntry := by
    rw [toJson, record, members?, List.mapM_map, List.mapM_map]
    congr 1
    funext entry
    simp only [Function.comp_apply, Option.bind_some, Category.lookup_name, rereadEntry, reread]
    cases double? (double entry.2) <;> rfl
  rw [ofJson?, hmembers]
  cases p.entries.mapM rereadEntry <;> rfl

theorem ofJson?_toJson_iff {p : Probabilities} :
    ofJson? p.toJson = some p ↔ ∀ entry ∈ p.entries, ReadsBack entry.2 := by
  rw [ofJson?_toJson, Option.map_eq_some_iff]
  constructor
  · rintro ⟨entries, hentries, hp⟩ ⟨c, value⟩ hentry
    rw [mapM_eq_some_iff] at hentries
    have hkeys : p.entries.map (·.1) = entries.map (·.1) := by
      rw [← List.forall₂_eq_eq_eq, List.forall₂_map_left_iff, List.forall₂_map_right_iff]
      refine hentries.imp fun entry result hresult => ?_
      rcases Option.map_eq_some_iff.mp hresult with ⟨_, -, rfl⟩
      rfl
    -- each category is given once, so what its entry is read as is what ends up in `p`
    rcases exists_of_forall₂ hentries hentry with ⟨result, hmem, hresult⟩
    rcases Option.map_eq_some_iff.mp hresult with ⟨value', hvalue', rfl⟩
    have hget := get_withEntries_of_mem (hkeys ▸ p.nodup_entries) hmem empty
    rw [hp, mem_entries.mp hentry, Option.some.injEq] at hget
    show reread value = some value
    rw [hvalue', hget]
  · intro h
    refine ⟨p.entries, ?_, p.withEntries_entries⟩
    exact mapM_eq_some_self_iff.mpr fun entry hentry => rereadEntry_eq_self_iff.mpr (h entry hentry)

end Probabilities

theorem RiskAssessment.ofJson?_toJson_iff {risk : RiskAssessment} :
    ofJson? risk.toJson = some risk ↔ ReadsBack risk.overallScore ∧
      (∀ entry ∈ risk.probabilities.entries, ReadsBack entry.2) ∧ ReadsBack risk.confidence := by
  have hdecode : ofJson? risk.toJson =
      (reread risk.overallScore).bind fun score =>
        (Probabilities.ofJson? risk.probabilities.toJson).bind fun p =>
          (reread risk.confidence).map fun confidence =>
            { risk with overallScore := score, probabilities := p, confidence } := by
    rw [ofJson?, toJson, slots?_record]
    · simp [Slots.required, Slots.slot_cons_self, Slots.slot_cons_of_ne, list?_text, reread,
        Option.map_eq_bind]
    · rfl
    · decide
  rw [hdecode, ← Probabilities.ofJson?_toJson_iff]
  simp only [Option.bind_eq_some_iff, Option.map_eq_some_iff]
  constructor
  · rintro ⟨score, hscore, p, hp, confidence, hconfidence, heq⟩
    cases risk
    cases heq
    exact ⟨hscore, hp, hconfidence⟩
  · rintro ⟨hscore, hp, hconfidence⟩
    exact ⟨_, hscore, _, hp, _, hconfidence, rfl⟩

theorem Enforcement.ofJson?_toJson_iff {result : Enforcement} :
    ofJson? result.toJson = some result ↔ ReadsBack result.riskScore := by
  have hdecisions : ∀ decision : Decision,
      named? Decision.names (text decision.name) = some decision := by
    intro decision
    cases decision <;> rfl
  have hbands : ∀ band : RiskBand, named? RiskBand.names (text band.name) = some band := by
    intro band
    cases band <;> rfl
  have hcategories := fun categories : List Category =>
    list?_list_of_inverse Category.named?_text categories
  have hdecode : ofJson? result.toJson =
      (reread result.riskScore).map fun score => { result with riskScore := score } := by
    rw [ofJson?, toJson, slots?_record]
    · simp [Slots.required, Slots.slot_cons_self, Slots.slot_cons_of_ne, list?_text, reread,
        Option.map_eq_bind, text?_text, hdecisions, hbands, hcategories]
    · rfl
    · decide
  rw [hdecode, Option.map_eq_some_iff]
  constructor
  · rintro ⟨score, hscore, heq⟩
    cases result
    cases heq
    exact hscore
  · intro hscore
    exact ⟨_, hscore, rfl⟩

/-! ## What is written -/

theorem FeatureValue.writable_toJson (value : FeatureValue) : value.toJson.Writable := by
  cases value with
  | count n => exact .nat n.toNat
  | flag b => exact .bool b

theorem FeatureValue.nulls_toJson (value : FeatureValue) : value.toJson.nulls = [] := by
  cases value with
  | count n => exact nulls_nat n.toNat
  | flag b => exact nulls_bool b

namespace FeatureVector

theorem writable_toJson (v : FeatureVector) : v.toJson.Writable := by
  apply Writable.record
  intro member hmember
  rcases List.mem_map.mp (List.of_mem_zip hmember).2 with ⟨value, -, hvalue⟩
  rw [← hvalue]
  exact value.writable_toJson

theorem nulls_toJson (v : FeatureVector) : v.toJson.nulls = [] := by
  apply nulls_record_eq_nil
  intro member hmember
  rcases List.mem_map.mp (List.of_mem_zip hmember).2 with ⟨value, -, hvalue⟩
  rw [← hvalue]
  exact value.nulls_toJson

end FeatureVector

theorem ToolIdentity.writable_toJson (tool : ToolIdentity) : tool.toJson.Writable := by
  apply Writable.record
  simp [Writable.text, Writable.nullable Writable.text]

theorem ToolIdentity.nulls_toJson (tool : ToolIdentity) :
    tool.toJson.nulls = if tool.commit.isNone then [["commit"]] else [] := by
  rw [toJson, nulls_record]
  simp [nulls_text, nulls_nullable nulls_text, apply_ite]

theorem Fingerprint.writable_toJson (hash : Fingerprint) : hash.toJson.Writable := by
  apply Writable.record
  simp [Writable.text]

theorem Fingerprint.nulls_toJson (hash : Fingerprint) : hash.toJson.nulls = [] := by
  apply nulls_record_eq_nil
  simp [nulls_text]

theorem InputIdentity.writable_toJson (input : InputIdentity) : input.toJson.Writable := by
  apply Writable.record
  simp [Writable.nullable Writable.text, Writable.nat, Fingerprint.writable_toJson]

theorem InputIdentity.nulls_toJson (input : InputIdentity) :
    input.toJson.nulls = if input.path.isNone then [["path"]] else [] := by
  rw [toJson, nulls_record]
  simp [nulls_nullable nulls_text, nulls_nat, Fingerprint.nulls_toJson, apply_ite]

theorem AnalysisState.writable_toJson (info : AnalysisState) : info.toJson.Writable := by
  apply Writable.record
  simp [Writable.text, Writable.list Writable.text]

theorem AnalysisState.nulls_toJson (info : AnalysisState) : info.toJson.nulls = [] := by
  apply nulls_record_eq_nil
  simp [nulls_text, nulls_list fun s _ => nulls_text s]

theorem CallGraph.Metrics.writable_toJson (m : CallGraph.Metrics) : m.toJson.Writable := by
  apply Writable.record
  simp [Writable.bool, Writable.nat, Writable.list Writable.text]

theorem CallGraph.Metrics.nulls_toJson (m : CallGraph.Metrics) : m.toJson.nulls = [] := by
  apply nulls_record_eq_nil
  simp [nulls_bool, nulls_nat, nulls_list fun s _ => nulls_text s]

theorem Probabilities.writable_toJson (p : Probabilities) : p.toJson.Writable := by
  apply Writable.record
  intro member hmember
  rcases List.mem_map.mp hmember with ⟨entry, -, rfl⟩
  exact .double entry.2

theorem Probabilities.nulls_toJson {p : Probabilities} (hp : p.Finite) : p.toJson.nulls = [] := by
  apply nulls_record_eq_nil
  intro member hmember
  rcases List.mem_map.mp hmember with ⟨entry, hentry, rfl⟩
  exact nulls_double (hp entry hentry)

theorem RiskAssessment.writable_toJson (risk : RiskAssessment) : risk.toJson.Writable := by
  apply Writable.record
  simp [Writable.double, Writable.list Writable.text, Probabilities.writable_toJson]

theorem RiskAssessment.nulls_toJson {risk : RiskAssessment}
    (hscore : risk.overallScore.isFinite = true) (hp : risk.probabilities.Finite)
    (hconfidence : risk.confidence.isFinite = true) : risk.toJson.nulls = [] := by
  apply nulls_record_eq_nil
  simp [nulls_double hscore, nulls_double hconfidence, Probabilities.nulls_toJson hp,
    nulls_list fun s _ => nulls_text s]

theorem Enforcement.writable_toJson (result : Enforcement) : result.toJson.Writable := by
  apply Writable.record
  simp [Writable.text, Writable.double, Writable.list Writable.text,
    Writable.list fun c : Category => Writable.text c.name]

theorem Enforcement.nulls_toJson {result : Enforcement}
    (hscore : result.riskScore.isFinite = true) : result.toJson.nulls = [] := by
  apply nulls_record_eq_nil
  simp [nulls_text, nulls_double hscore, nulls_list fun s _ => nulls_text s,
    nulls_list fun (c : Category) _ => nulls_text c.name]

end RiskGate
