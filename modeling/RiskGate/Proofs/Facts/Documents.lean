import RiskGate.Facts.Document
import RiskGate.Proofs.Json.Forms
import RiskGate.Proofs.Text.Bytes

/-! # Fact documents and their forms

A fact document may leave out what has its natural empty value, in any of its records and at any
depth. However much is left out, the same contracts are read, and the document that leaves out
nothing is one of these forms.

* `CallSite.fields`, `ContractFunction.fields`, `Contract.fields`: which fields may be left out;
* `CallSite.reads`, `ContractFunction.reads`, `Contract.reads`: records are read from all their
  forms;
* `FactDocument.contracts_reread`: whole documents, from their bytes.
-/

namespace RiskGate

open Json

/-! ## Plain values -/

theorem ContractKind.lookup_name (kind : ContractKind) : names.lookup kind.name = some kind := by
  cases kind <;> rfl

theorem Visibility.lookup_name (v : Visibility) : names.lookup v.name = some v := by
  cases v <;> rfl

theorem CallKind.lookup_name (kind : CallKind) : names.lookup kind.name = some kind := by
  cases kind <;> rfl

theorem StatementKind.lookup_name (kind : StatementKind) : names.lookup kind.name = some kind := by
  cases kind <;> rfl

/-- Values of a closed set are read from their names. -/
theorem reads_name {α : Type} {names : List (String × α)} {name : α → String}
    (h : ∀ x, names.lookup (name x) = some x) :
    Reads (named? names) (exactly fun x => .text (name x)) :=
  reads_exactly h fun x => .text (name x)

theorem reads_text : Reads text? (exactly .text) := reads_exactly text?_text .text

theorem reads_bool : Reads bool? (exactly .bool) := reads_exactly bool?_bool .bool

theorem reads_position : Reads position? (exactly fun p => .nat p.toNat) := by
  refine reads_exactly ?_ fun p => .nat p.toNat
  intro p
  rw [position?, natBelow?_nat p.toNat_lt_size, Option.map_some, UInt32.ofNat_toNat]

/-! ## Records without defaults -/

theorem FunctionName.reads : Reads ofJson? (exactly toJson) := by
  apply reads_exactly
  · intro ref
    rw [ofJson?, toJson, slots?_record]
    · simp [Slots.required, Slots.slot_cons_self, Slots.slot_cons_of_ne, text?_text]
    · rfl
    · decide
  · intro ref
    apply Writable.record
    simp [Writable.text]

theorem StateWrite.reads : Reads ofJson? (exactly toJson) := by
  apply reads_exactly
  · intro write
    have hposition := (reads_position write.position _ rfl).1
    rw [ofJson?, toJson, slots?_record]
    · simp [Slots.required, Slots.slot_cons_self, Slots.slot_cons_of_ne, text?_text, hposition]
    · rfl
    · decide
  · intro write
    apply Writable.record
    simp [Writable.text, Writable.nat]

/-- The wire form of a modifier of a contract. -/
def modifierToJson (name : String) : Json := record [("name", .text name)]

theorem reads_modifier : Reads modifierOfJson? (exactly modifierToJson) := by
  apply reads_exactly
  · intro name
    rw [modifierOfJson?, modifierToJson, slots?_record]
    · simp [Slots.required, Slots.slot_cons_self, text?_text]
    · rfl
    · decide
  · intro name
    apply Writable.record
    simp [Writable.text]

/-! ## Records with defaults -/

/-- The fields of a call site. -/
def CallSite.fields (site : CallSite) : List Field := [
  .required "kind" (exactly fun kind => .text kind.name) site.kind,
  .orDefault "name" (exactly .text) site.name "",
  .orDefault "target" (exactly (.nullable FunctionName.toJson)) site.target none,
  .orDefault "expression" (exactly (.nullable .text)) site.expression none,
  .orDefault "statement" (exactly fun kind => .text kind.name) site.statement .expression,
  .required "position" (exactly fun p => .nat p.toNat) site.position]

theorem CallSite.reads : Reads ofJson? (records fields) := by
  have hkinds := reads_name CallKind.lookup_name
  have htargets := reads_nullable FunctionName.reads fun _ => Json.noConfusion
  have hexpressions := reads_nullable reads_text text_ne_null
  have hstatements := reads_name StatementKind.lookup_name
  apply reads_records ["kind", "name", "target", "expression", "statement", "position"]
  case hnames => exact fun _ => rfl
  case hnodup => decide
  case hwrite =>
    intro site
    simp only [fields, List.forall_mem_cons]
    exact ⟨hkinds.writable _, reads_text.writable _, htargets.writable _, hexpressions.writable _,
      hstatements.writable _, reads_position.writable _, by simp⟩
  case hread =>
    intro site json slots hslots hheld
    simp only [fields, List.forall_mem_cons] at hheld
    obtain ⟨hkind, hname, htarget, hexpression, hstatement, hposition, -⟩ := hheld
    rw [ofJson?, hslots]
    simp [hkinds.required hkind, reads_text.orDefault hname, htargets.orDefault htarget,
      hexpressions.orDefault hexpression, hstatements.orDefault hstatement,
      reads_position.required hposition]

theorem CallSite.records_toJson (site : CallSite) : records fields site site.toJson :=
  ⟨_, .given rfl (.given rfl (.given rfl (.given rfl (.given rfl (.given rfl .nil))))), rfl⟩

/-- The fields of a function. -/
def ContractFunction.fields (f : ContractFunction) : List Field := [
  .required "id" (exactly .text) f.id,
  .required "visibility" (exactly fun v => .text v.name) f.visibility,
  .orDefault "is_constructor" (exactly .bool) f.isConstructor false,
  .orDefault "is_fallback" (exactly .bool) f.isFallback false,
  .orDefault "is_receive" (exactly .bool) f.isReceive false,
  .orDefault "call_sites" (listed (records CallSite.fields)) f.callSites [],
  .orDefault "state_writes" (listed (exactly StateWrite.toJson)) f.stateWrites [],
  .orDefault "modifiers" (listed (exactly .text)) f.modifiers [],
  .orDefault "special_var_reads" (listed (exactly .text)) f.specialReads []]

theorem ContractFunction.reads : Reads ofJson? (records fields) := by
  have hvisibilities := reads_name Visibility.lookup_name
  have hsites := CallSite.reads.listed
  have hwrites := StateWrite.reads.listed
  have htexts := reads_text.listed
  apply reads_records ["id", "visibility", "is_constructor", "is_fallback", "is_receive",
    "call_sites", "state_writes", "modifiers", "special_var_reads"]
  case hnames => exact fun _ => rfl
  case hnodup => decide
  case hwrite =>
    intro f
    simp only [fields, List.forall_mem_cons]
    exact ⟨reads_text.writable _, hvisibilities.writable _, reads_bool.writable _,
      reads_bool.writable _, reads_bool.writable _, hsites.writable _, hwrites.writable _,
      htexts.writable _, htexts.writable _, by simp⟩
  case hread =>
    intro f json slots hslots hheld
    simp only [fields, List.forall_mem_cons] at hheld
    obtain ⟨hid, hvisibility, hconstructor, hfallback, hreceive, hcallSites, hstateWrites,
      hmodifiers, hspecialReads, -⟩ := hheld
    rw [ofJson?, hslots]
    simp [reads_text.required hid, hvisibilities.required hvisibility,
      reads_bool.orDefault hconstructor, reads_bool.orDefault hfallback,
      reads_bool.orDefault hreceive, hsites.orDefault hcallSites, hwrites.orDefault hstateWrites,
      htexts.orDefault hmodifiers, htexts.orDefault hspecialReads]

theorem ContractFunction.records_toJson (f : ContractFunction) : records fields f f.toJson := by
  refine ⟨_, .given rfl (.given rfl (.given rfl (.given rfl (.given rfl (.given ?_ (.given ?_
    (.given ?_ (.given ?_ .nil)))))))), rfl⟩
  · exact listed_list CallSite.records_toJson f.callSites
  · exact listed_list (exactly_encode StateWrite.toJson) f.stateWrites
  · exact listed_list (exactly_encode .text) f.modifiers
  · exact listed_list (exactly_encode .text) f.specialReads

/-- The fields of a contract. -/
def Contract.fields (c : Contract) : List Field := [
  .required "id" (exactly .text) c.id,
  .required "kind" (exactly fun kind => .text kind.name) c.kind,
  .orDefault "functions" (listed (records ContractFunction.fields)) c.functions [],
  .orDefault "modifiers" (listed (exactly modifierToJson)) c.modifiers []]

theorem Contract.reads : Reads ofJson? (records fields) := by
  have hkinds := reads_name ContractKind.lookup_name
  have hfunctions := ContractFunction.reads.listed
  have hmodifiers := reads_modifier.listed
  apply reads_records ["id", "kind", "functions", "modifiers"]
  case hnames => exact fun _ => rfl
  case hnodup => decide
  case hwrite =>
    intro c
    simp only [fields, List.forall_mem_cons]
    exact ⟨reads_text.writable _, hkinds.writable _, hfunctions.writable _,
      hmodifiers.writable _, by simp⟩
  case hread =>
    intro c json slots hslots hheld
    simp only [fields, List.forall_mem_cons] at hheld
    obtain ⟨hid, hkind, hheldFunctions, hheldModifiers, -⟩ := hheld
    rw [ofJson?, hslots]
    simp [reads_text.required hid, hkinds.required hkind, hfunctions.orDefault hheldFunctions,
      hmodifiers.orDefault hheldModifiers]

theorem Contract.records_toJson (c : Contract) : records fields c c.toJson := by
  refine ⟨_, .given rfl (.given rfl (.given ?_ (.given ?_ .nil))), rfl⟩
  · exact listed_list ContractFunction.records_toJson c.functions
  · exact listed_list (exactly_encode modifierToJson) c.modifiers

/-! ## Documents -/

namespace FactDocument

/-- The one field of a document. -/
def fields (contracts : List Contract) : List Field :=
  [.orDefault "contracts" (listed (records Contract.fields)) contracts []]

/-- The documents that give a list of contracts. -/
def forms : Forms (List Contract) := records fields

theorem reads : Reads contractsOf? forms := by
  have hcontracts := Contract.reads.listed
  apply reads_records ["contracts"]
  case hnames => exact fun _ => rfl
  case hnodup => decide
  case hwrite =>
    intro contracts
    simp only [fields, List.forall_mem_cons]
    exact ⟨hcontracts.writable _, by simp⟩
  case hread =>
    intro contracts json slots hslots hheld
    simp only [fields, List.forall_mem_cons] at hheld
    rw [contractsOf?, hslots]
    exact hcontracts.orDefault hheld.1

/-- The document that leaves out nothing is one of those that give its contracts. -/
theorem forms_toJson (contracts : List Contract) : forms contracts (toJson contracts) :=
  ⟨_, .given (listed_list Contract.records_toJson contracts) .nil, rfl⟩

/-- What is read from the bytes of a document that is written in a layout. -/
def reread (layout : Layout) (path : Option String) (complaint : ByteArray → Option String)
    (json : Json) : Except FactsError FactDocument :=
  ofBytes path (String.ofList (json.render layout 0)).toUTF8 complaint

/-- Whatever a document leaves out, its contracts are read from its bytes. -/
theorem exists_reread {layout : Layout} (hlayout : layout.Blank) (path : Option String)
    (complaint : ByteArray → Option String) {contracts : List Contract} {json : Json}
    (h : forms contracts json) :
    ∃ doc, reread layout path complaint json = .ok doc ∧ doc.path = path ∧
      doc.contracts = contracts := by
  rcases reads contracts json h with ⟨hcontracts, hwritable⟩
  have hjson : ofBytes? (String.ofList (json.render layout 0)).toUTF8 = some json := by
    rw [ofBytes?, Piece.ofBytes_toUTF8]
    exact ofText?_render hlayout hwritable
  rw [reread, ofBytes, hjson, Option.bind_some, hcontracts]
  exact ⟨_, rfl, rfl, rfl⟩

/-- Contracts are read back from every document that gives them, among them the one that leaves out
nothing; so writing the contracts of an accepted document and reading them again changes nothing. -/
theorem contracts_reread {layout : Layout} (hlayout : layout.Blank) (path : Option String)
    (complaint : ByteArray → Option String) :
    (∀ contracts, forms contracts (toJson contracts) ∧ ∀ json, forms contracts json →
      ∃ doc, reread layout path complaint json = .ok doc ∧ doc.path = path ∧
        doc.contracts = contracts) ∧
    ∀ source bytes accepted, ofBytes source bytes complaint = .ok accepted →
      ∃ doc, reread layout path complaint (toJson accepted.contracts) = .ok doc ∧
        doc.path = path ∧ doc.contracts = accepted.contracts := by
  constructor
  · intro contracts
    exact ⟨forms_toJson contracts, fun json hform => exists_reread hlayout path complaint hform⟩
  · intro source bytes accepted _
    exact exists_reread hlayout path complaint (forms_toJson accepted.contracts)

/-- A vault with one function that makes one call, with all else left out at every depth. -/
theorem contracts_reread_vault :
    let site : CallSite := { kind := .lowLevel, position := 3 }
    let withdraw : ContractFunction :=
      { id := "withdraw", visibility := .publicly, callSites := [site] }
    let vault : Contract := { id := "Vault", kind := .concrete, functions := [withdraw] }
    let short := record [("contracts", .array [record [
      ("id", .text "Vault"),
      ("kind", .text "concrete"),
      ("functions", .array [record [
        ("id", .text "withdraw"),
        ("visibility", .text "public"),
        ("call_sites", .array [record [
          ("kind", .text "low_level_call"),
          ("position", .nat 3)]])]])]])]
    Layout.compact.Blank ∧ forms [vault] short ∧
      ∃ doc, reread .compact none (fun _ => none) short = .ok doc ∧ doc.path = none ∧
        doc.contracts = [vault] := by
  intro site withdraw vault short
  have hsite : records CallSite.fields site _ :=
    ⟨_, .given rfl (.omitted rfl (.omitted rfl (.omitted rfl (.omitted rfl
      (.given rfl .nil))))), rfl⟩
  have hwithdraw : records ContractFunction.fields withdraw _ :=
    ⟨_, .given rfl (.given rfl (.omitted rfl (.omitted rfl (.omitted rfl
      (.given ⟨_, .cons hsite .nil, rfl⟩
        (.omitted rfl (.omitted rfl (.omitted rfl .nil)))))))), rfl⟩
  have hvault : records Contract.fields vault _ :=
    ⟨_, .given rfl (.given rfl (.given ⟨_, .cons hwithdraw .nil, rfl⟩ (.omitted rfl .nil))), rfl⟩
  have hshort : forms [vault] short := ⟨_, .given ⟨_, .cons hvault .nil, rfl⟩ .nil, rfl⟩
  have hread := ((contracts_reread Layout.blank_compact none fun _ => none).1 [vault]).2 short
    hshort
  exact ⟨Layout.blank_compact, hshort, hread⟩

end FactDocument

end RiskGate
