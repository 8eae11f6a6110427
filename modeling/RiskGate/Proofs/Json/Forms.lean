import RiskGate.Proofs.Json.Codec

/-! # Forms on the wire

A value may be written in more than one way, because a record may leave out fields that have their
natural empty values. The forms of a value are a relation between values and documents; a decoder
that reads a value from every form of it does not mind what was left out.

* `Fills` and `records`: the members of a record, each there or, where that is allowed, left out;
* `Fills.exists_slots`: what a decoder of records finds for the fields;
* `Reads`, `reads_exactly`, `Reads.listed`, `reads_records`: decoders that read a value from each of
  its forms.
-/

namespace RiskGate.Json

/-- The documents that stand for each value of a type. -/
abbrev Forms (α : Type) := α → Json → Prop

/-- A field of a record with a given value: its name, the forms of the value, and whether the field
may be left out. -/
structure Field where
  name : String
  form : Json → Prop
  optional : Prop

/-- `Fills fields members`: the members are those of the fields, in order, each in a form of its
value, with some of the optional ones left out. -/
inductive Fills : List Field → List (String × Json) → Prop
  | nil : Fills [] []
  | given {field : Field} {fields : List Field} {json : Json} {members : List (String × Json)} :
      field.form json → Fills fields members →
        Fills (field :: fields) ((field.name, json) :: members)
  | omitted {field : Field} {fields : List Field} {members : List (String × Json)} :
      field.optional → Fills fields members → Fills (field :: fields) members

section

variable {α : Type}

/-- A field that is always written. -/
def Field.required (name : String) (forms : Forms α) (value : α) : Field where
  name
  form := forms value
  optional := False

/-- A field that may be left out if it has its default. -/
def Field.orDefault (name : String) (forms : Forms α) (value default : α) : Field where
  name
  form := forms value
  optional := value = default

/-- The form that an encoder gives, and no other. -/
def exactly (encode : α → Json) : Forms α := fun value json => json = encode value

/-- The forms of a list, with every element in any of its forms. -/
def listed (forms : Forms α) : Forms (List α) := fun values json =>
  ∃ elements, List.Forall₂ (fun element value => forms value element) elements values ∧
    json = .array elements

/-- The forms of a record, with any of the optional fields left out. -/
def records (fields : α → List Field) : Forms α := fun value json =>
  ∃ members, Fills (fields value) members ∧ json = record members

/-- A decoder reads every value from each of its forms, all of which can be written. -/
def Reads (decode : Json → Option α) (forms : Forms α) : Prop :=
  ∀ value json, forms value json → decode json = some value ∧ json.Writable

end

/-! ## Records with fields left out -/

/-- The names that are written are names of fields. -/
theorem Fills.keys_sublist {fields : List Field} {members : List (String × Json)}
    (h : Fills fields members) : (members.map (·.1)).Sublist (fields.map (·.name)) := by
  induction h with
  | nil => exact List.Sublist.slnil
  | given _ _ ih => exact ih.cons_cons _
  | omitted _ _ ih => exact ih.cons _

/-- What the members of a record hold for a field of that name. -/
def heldFor (members : List (String × Json)) (name : String) : Slot :=
  match members.lookup name with
  | some json => .given json
  | none => .unnamed

theorem heldFor_cons_self (name : String) (json : Json) (members : List (String × Json)) :
    heldFor ((name, json) :: members) name = .given json := by
  rw [heldFor, List.lookup_cons_self]

theorem heldFor_cons_of_ne {key name : String} (h : name ≠ key) (json : Json)
    (members : List (String × Json)) :
    heldFor ((key, json) :: members) name = heldFor members name := by
  rw [heldFor, List.lookup_cons, beq_false_of_ne h]
  rfl

theorem heldFor_of_notMem {members : List (String × Json)} {name : String}
    (h : name ∉ members.map (·.1)) : heldFor members name = .unnamed := by
  have hnone : members.lookup name = none := by
    rw [List.lookup_eq_none_iff]
    intro member hmember
    have hne : name ≠ member.1 := fun heq => h (heq ▸ List.mem_map_of_mem hmember)
    simpa using hne
  rw [heldFor, hnone]

theorem heldFor_of_mem {members : List (String × Json)} (hnodup : (members.map (·.1)).Nodup)
    {name : String} {json : Json} (h : (name, json) ∈ members) :
    heldFor members name = .given json := by
  induction members with
  | nil => cases h
  | cons member members ih =>
    rcases member with ⟨key, first⟩
    rw [List.map_cons, List.nodup_cons] at hnodup
    rcases List.mem_cons.mp h with heq | hmem
    · cases heq
      exact heldFor_cons_self name json members
    · have hne : name ≠ key := by
        rintro rfl
        exact hnodup.1 (List.mem_map.mpr ⟨_, hmem, rfl⟩)
      rw [heldFor_cons_of_ne hne, ih hnodup.2 hmem]

/-- The slots of a record whose members have distinct names. -/
theorem slots?_eq_heldFor {members : List (String × Json)} (hnodup : (members.map (·.1)).Nodup)
    (names : List String) :
    (record members).slots? names = some (names.map fun name => (name, heldFor members name)) := by
  rw [record, slots?, if_pos (by simp)]
  apply mapM_eq_some_map
  intro name _
  by_cases hname : name ∈ members.map (·.1)
  · rcases List.mem_map.mp hname with ⟨⟨key, json⟩, hmember, rfl⟩
    rw [valuesOf_of_mem hnodup hmember, heldFor_of_mem hnodup hmember]
  · rw [valuesOf_of_notMem hname, heldFor_of_notMem hname]

/-- The members hold a form of each of the values, or nothing where the field is optional. -/
theorem Fills.held {fields : List Field} {members : List (String × Json)}
    (hnodup : (fields.map (·.name)).Nodup) (h : Fills fields members) :
    ∀ field ∈ fields,
      (∃ json, heldFor members field.name = .given json ∧ field.form json) ∨
        heldFor members field.name = .unnamed ∧ field.optional := by
  induction h with
  | nil => simp
  | @given field fields json members hform hrest ih =>
    rw [List.map_cons, List.nodup_cons] at hnodup
    intro other hother
    rcases List.mem_cons.mp hother with rfl | hother
    · exact .inl ⟨json, heldFor_cons_self _ _ _, hform⟩
    · have hne : other.name ≠ field.name := fun heq => hnodup.1 (heq ▸ List.mem_map_of_mem hother)
      rw [heldFor_cons_of_ne hne]
      exact ih hnodup.2 other hother
  | @omitted field fields members hoptional hrest ih =>
    rw [List.map_cons, List.nodup_cons] at hnodup
    intro other hother
    rcases List.mem_cons.mp hother with rfl | hother
    · have hnot : other.name ∉ members.map (·.1) := fun hmem =>
        hnodup.1 (hrest.keys_sublist.subset hmem)
      exact .inr ⟨heldFor_of_notMem hnot, hoptional⟩
    · exact ih hnodup.2 other hother

theorem slot_map_of_mem {names : List String} {name : String} (h : name ∈ names)
    (held : String → Slot) :
    Slots.slot (names.map fun name => (name, held name)) name = held name := by
  induction names with
  | nil => cases h
  | cons first names ih =>
    rw [List.map_cons]
    by_cases hname : name = first
    · rw [hname, Slots.slot_cons_self]
    · rw [Slots.slot_cons_of_ne hname, ih ((List.mem_cons.mp h).resolve_left hname)]

/-- What a decoder finds for a field: a form of its value, or nothing if the field may be left out.
-/
def Slots.Hold (slots : Slots) (field : Field) : Prop :=
  (∃ json, slots.slot field.name = .given json ∧ field.form json) ∨
    slots.slot field.name = .unnamed ∧ field.optional

theorem Fills.exists_slots {fields : List Field} {members : List (String × Json)}
    (hnodup : (fields.map (·.name)).Nodup) (h : Fills fields members) :
    ∃ slots, (record members).slots? (fields.map (·.name)) = some slots ∧
      ∀ field ∈ fields, slots.Hold field := by
  refine ⟨_, slots?_eq_heldFor (hnodup.sublist h.keys_sublist) _, ?_⟩
  intro field hfield
  rw [Slots.Hold, slot_map_of_mem (List.mem_map_of_mem hfield)]
  exact h.held hnodup field hfield

/-! ## Decoders that read all forms -/

section

variable {α : Type} {decode : Json → Option α} {forms : Forms α}

theorem exactly_encode (encode : α → Json) (x : α) : exactly encode x (encode x) := rfl

theorem reads_exactly {encode : α → Json} (hread : ∀ x, decode (encode x) = some x)
    (hwrite : ∀ x, (encode x).Writable) : Reads decode (exactly encode) := by
  rintro value json rfl
  exact ⟨hread value, hwrite value⟩

theorem Reads.writable (h : Reads decode forms) (value : α) :
    ∀ json, forms value json → json.Writable :=
  fun json hform => (h value json hform).2

/-- A value that may be missing is written as null where it is. -/
theorem reads_nullable {encode : α → Json} (h : Reads decode (exactly encode))
    (hnull : ∀ x, encode x ≠ .null) :
    Reads (nullable? decode) (exactly (.nullable encode)) :=
  reads_exactly (nullable?_nullable hnull fun x => (h x _ rfl).1)
    (.nullable fun x => h.writable x _ rfl)

/-- What an encoder makes of a list is a form of it if that holds of the elements. -/
theorem listed_list {encode : α → Json} (h : ∀ x, forms x (encode x)) (xs : List α) :
    Json.listed forms xs (list encode xs) := by
  refine ⟨xs.map encode, ?_, rfl⟩
  rw [List.forall₂_map_left_iff, List.forall₂_same]
  exact fun x _ => h x

theorem Reads.listed (h : Reads decode forms) : Reads (list? decode) (listed forms) := by
  rintro values json ⟨elements, heach, rfl⟩
  constructor
  · rw [list?, mapM_eq_some_iff]
    exact heach.imp fun element value hform => (h value element hform).1
  · apply Writable.array
    intro element helement
    rcases exists_of_forall₂ heach helement with ⟨value, -, hform⟩
    exact (h value element hform).2

/-- A field that has to be there is read from any form of its value. -/
theorem Reads.required (h : Reads decode forms) {slots : Slots} {name : String} {value : α}
    (hheld : slots.Hold (.required name forms value)) :
    slots.required name decode = some value := by
  rcases hheld with ⟨json, hslot, hform⟩ | ⟨-, hoptional⟩
  · replace hslot : slots.slot name = .given json := hslot
    rw [Slots.required, hslot]
    exact (h value json hform).1
  · exact hoptional.elim

/-- A field that may be left out is read from any form of its value, and as its default where it is
left out. -/
theorem Reads.orDefault (h : Reads decode forms) {slots : Slots} {name : String}
    {value default : α} (hheld : slots.Hold (.orDefault name forms value default)) :
    slots.orDefault name decode default = some value := by
  rcases hheld with ⟨json, hslot, hform⟩ | ⟨hslot, hoptional⟩
  · replace hslot : slots.slot name = .given json := hslot
    rw [Slots.orDefault, hslot]
    exact (h value json hform).1
  · replace hslot : slots.slot name = .unnamed := hslot
    rw [Slots.orDefault, hslot]
    exact congrArg some (Eq.symm hoptional)

end

theorem Fills.writable {fields : List Field} {members : List (String × Json)}
    (h : Fills fields members)
    (hwrite : ∀ field ∈ fields, ∀ json, field.form json → json.Writable) :
    (record members).Writable := by
  apply Writable.record
  induction h with
  | nil => simp
  | given hform _ ih =>
    rw [List.forall_mem_cons] at hwrite ⊢
    exact ⟨hwrite.1 _ hform, ih hwrite.2⟩
  | omitted _ _ ih => exact ih fun field hfield => hwrite field (List.mem_cons_of_mem _ hfield)

/-- A decoder of records reads them if it puts together the values from whatever the slots hold. -/
theorem reads_records {α : Type} {decode : Json → Option α} {fields : α → List Field}
    (names : List String) (hnames : ∀ x, (fields x).map (·.name) = names) (hnodup : names.Nodup)
    (hwrite : ∀ x, ∀ field ∈ fields x, ∀ json, field.form json → json.Writable)
    (hread : ∀ x json slots, json.slots? names = some slots →
      (∀ field ∈ fields x, slots.Hold field) → decode json = some x) :
    Reads decode (records fields) := by
  rintro x json ⟨members, hfills, rfl⟩
  have hdistinct : ((fields x).map (·.name)).Nodup := (hnames x).symm ▸ hnodup
  rcases hfills.exists_slots hdistinct with ⟨slots, hslots, hheld⟩
  exact ⟨hread x _ slots (hnames x ▸ hslots) hheld, hfills.writable (hwrite x)⟩

end RiskGate.Json
