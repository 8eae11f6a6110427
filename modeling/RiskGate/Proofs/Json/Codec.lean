import RiskGate.Binary64.Arithmetic
import RiskGate.Json.Decode
import RiskGate.Proofs.Json.RoundTrip

/-! # Encoders and decoders

What the encoders of plain values and records make is understood by the decoders, can be written,
and has a null only where a part is missing.

* `mapM_eq_some_iff`, `list?_list`: lists, element by element;
* `reread`, what a double is read back as, and `ReadsBack`;
* `slots?_record`: a record has exactly the slots that its encoder fills;
* `Writable.record`, `Writable.double`: what encoders make can be written;
* `nulls`: where a document has nulls.
-/

namespace RiskGate.Json

/-! ## Lists -/

section

variable {α β : Type}

/-- Decoding a list relates each element to what it is decoded as. -/
theorem mapM_eq_some_iff {f : α → Option β} {xs : List α} {ys : List β} :
    xs.mapM f = some ys ↔ List.Forall₂ (fun x y => f x = some y) xs ys := by
  induction xs generalizing ys with
  | nil =>
    rw [List.forall₂_nil_left_iff, List.mapM_nil]
    exact ⟨fun h => (Option.some.inj h).symm, fun h => congrArg some h.symm⟩
  | cons x xs ih =>
    rw [List.forall₂_cons_left_iff, List.mapM_cons]
    simp only [Option.bind_eq_bind, Option.bind_eq_some_iff, Option.pure_def, Option.some.injEq]
    constructor
    · rintro ⟨y, hy, rest, hrest, rfl⟩
      exact ⟨y, rest, hy, ih.mp hrest, rfl⟩
    · rintro ⟨y, rest, hy, hrest, rfl⟩
      exact ⟨y, hy, rest, ih.mpr hrest, rfl⟩

theorem mapM_eq_some_map {f : α → Option β} {g : α → β} {xs : List α}
    (h : ∀ x ∈ xs, f x = some (g x)) : xs.mapM f = some (xs.map g) := by
  rw [mapM_eq_some_iff, List.forall₂_map_right_iff, List.forall₂_same]
  exact h

theorem mapM_eq_some_self_iff {f : α → Option α} {xs : List α} :
    xs.mapM f = some xs ↔ ∀ x ∈ xs, f x = some x := by
  rw [mapM_eq_some_iff, List.forall₂_same]

theorem exists_of_forall₂ {R : α → β → Prop} {xs : List α} {ys : List β}
    (h : List.Forall₂ R xs ys) {x : α} (hx : x ∈ xs) : ∃ y ∈ ys, R x y := by
  induction h with
  | nil => cases hx
  | cons hxy _ ih =>
    rcases List.mem_cons.mp hx with rfl | hx
    · exact ⟨_, List.mem_cons_self, hxy⟩
    · rcases ih hx with ⟨y, hy, hxy⟩
      exact ⟨y, List.mem_cons_of_mem _ hy, hxy⟩

/-- A list is decoded as its elements are. -/
theorem list?_list {encode : α → Json} {decode : Json → Option β} (xs : List α) :
    list? decode (list encode xs) = xs.mapM fun x => decode (encode x) := by
  rw [list, list?, List.mapM_map]
  rfl

theorem list?_list_of_inverse {encode : α → Json} {decode : Json → Option α}
    (h : ∀ x, decode (encode x) = some x) (xs : List α) :
    list? decode (list encode xs) = some xs := by
  rw [list?_list]
  exact mapM_eq_some_self_iff.mpr fun x _ => h x

end

/-! ## Plain values -/

theorem text?_text (s : String) : text? (text s) = some s := rfl

theorem bool?_bool (b : Bool) : bool? (.bool b) = some b := rfl

theorem natBelow?_nat {n limit : Nat} (h : n < limit) : natBelow? limit (nat n) = some n := by
  simp [natBelow?, nat, Number.toNat?, h]

/-- A value is told from a missing one by the fact that it is not written as null. -/
theorem nullable?_nullable {α : Type} {encode : α → Json} {decode : Json → Option α}
    (hnull : ∀ x, encode x ≠ .null) (h : ∀ x, decode (encode x) = some x) (value : Option α) :
    nullable? decode (nullable encode value) = some value := by
  cases value with
  | none => rfl
  | some x =>
    rw [nullable]
    unfold nullable?
    split
    · rename_i hx
      exact absurd hx (hnull x)
    · rw [h x]
      rfl

theorem text_ne_null (s : String) : text s ≠ .null := Json.noConfusion

/-- A text that may be missing. -/
theorem nullable?_text (value : Option String) :
    nullable? text? (nullable text value) = some value :=
  nullable?_nullable text_ne_null text?_text value

theorem list?_text (texts : List String) : list? text? (list text texts) = some texts :=
  list?_list_of_inverse text?_text texts

/-! ## Records -/

theorem valuesOf_cons (key : String) (value : Json) (members : List (Option String × Json))
    (field : String) :
    valuesOf ((some key, value) :: members) field =
      if key = field then value :: valuesOf members field else valuesOf members field := by
  by_cases h : key = field
  · simp [valuesOf, h]
  · simp [valuesOf, h]

theorem valuesOf_of_notMem {members : List (String × Json)} {field : String}
    (h : field ∉ members.map (·.1)) :
    valuesOf (members.map fun (key, value) => (some key, value)) field = [] := by
  rw [valuesOf, List.filterMap_eq_nil_iff]
  intro member hmember
  rcases List.mem_map.mp hmember with ⟨⟨key, value⟩, hkey, rfl⟩
  have hne : key ≠ field := by
    rintro rfl
    exact h (List.mem_map_of_mem hkey)
  simp [hne]

theorem valuesOf_of_mem {members : List (String × Json)} (hnodup : (members.map (·.1)).Nodup)
    {field : String} {value : Json} (h : (field, value) ∈ members) :
    valuesOf (members.map fun (key, value) => (some key, value)) field = [value] := by
  induction members with
  | nil => cases h
  | cons member members ih =>
    rcases member with ⟨key, first⟩
    rw [List.map_cons, List.nodup_cons] at hnodup
    rw [List.map_cons, valuesOf_cons]
    rcases List.mem_cons.mp h with heq | hmem
    · cases heq
      rw [if_pos rfl, valuesOf_of_notMem hnodup.1]
    · -- the field is written once, further on
      have hne : key ≠ field := by
        rintro rfl
        exact hnodup.1 (List.mem_map.mpr ⟨_, hmem, rfl⟩)
      rw [if_neg hne, ih hnodup.2 hmem]

/-- The slots of a record are the members that its encoder writes. -/
theorem slots?_record {members : List (String × Json)} {fields : List String}
    (hfields : members.map (·.1) = fields) (hnodup : fields.Nodup) :
    (record members).slots? fields =
      some (members.map fun (key, value) => (key, .given value)) := by
  subst hfields
  have hall : (members.map fun (key, value) => (some key, value)).all (·.1.isSome) = true := by
    simp
  rw [record, slots?, if_pos hall, List.mapM_map]
  apply mapM_eq_some_map
  rintro ⟨field, value⟩ hmember
  simp only [Function.comp_apply, valuesOf_of_mem hnodup hmember]

namespace Slots

variable {α β : Type}

theorem slot_cons_self (field : String) (held : Slot) (slots : Slots) :
    slot ((field, held) :: slots) field = held := by
  simp [slot]

theorem slot_cons_of_ne {name field : String} (h : field ≠ name) (held : Slot) (slots : Slots) :
    slot ((name, held) :: slots) field = slots.slot field := by
  simp [slot, List.lookup_cons, beq_false_of_ne h]

/-- A field that is given and decoded hands its value on. -/
theorem required_bind {slots : Slots} {field : String} {json : Json} {decode : Json → Option α}
    {next : α → Option β} {x : α} {y : β} (hslot : slots.slot field = .given json)
    (hdecode : decode json = some x) (hnext : next x = some y) :
    (slots.required field decode).bind next = some y := by
  simp [required, hslot, hdecode, hnext]

end Slots

/-! ## Written documents -/

theorem Writable.nat (n : Nat) : (nat n).Writable := .number fun _ h => absurd h List.not_mem_nil

theorem Writable.list {α : Type} {encode : α → Json} (h : ∀ x, (encode x).Writable)
    (xs : List α) : (list encode xs).Writable := by
  apply Writable.array
  intro element helement
  rcases List.mem_map.mp helement with ⟨x, -, rfl⟩
  exact h x

theorem Writable.nullable {α : Type} {encode : α → Json} (h : ∀ x, (encode x).Writable)
    (value : Option α) : (nullable encode value).Writable := by
  cases value with
  | none => exact .null
  | some x => exact h x

theorem Writable.record {members : List (String × Json)}
    (h : ∀ member ∈ members, member.2.Writable) : (record members).Writable := by
  apply Writable.object
  · intro member hmember
    rcases List.mem_map.mp hmember with ⟨_, -, rfl⟩
    rfl
  · intro member hmember
    rcases List.mem_map.mp hmember with ⟨original, horiginal, rfl⟩
    exact h original horiginal

/-! ## Doubles -/

/-- What a double is read back as. Reading is not exact, so this may differ from the double in its
last places. -/
def reread (x : Binary64) : Option Binary64 := double? (double x)

/-- A double that is written with digits that are read as the double itself. -/
def ReadsBack (x : Binary64) : Prop := reread x = some x

instance (x : Binary64) : Decidable (ReadsBack x) :=
  inferInstanceAs (Decidable (reread x = some x))

/-- A product that needs seventeen digits is read as a neighbour of it. -/
example : ReadsBack 0.21 ∧ ¬ ReadsBack (0.07 * 3) := by decide +kernel

theorem isDigit_padded (width n : Nat) : ∀ c ∈ Decimal.padded width n, c.isDigit = true := by
  intro c hc
  rcases List.mem_append.mp hc with hzero | hdigit
  · rw [List.eq_of_mem_replicate hzero]
    rfl
  · exact isDigit_of_mem_toDigits c hdigit

theorem Writable.double (x : Binary64) : (double x).Writable := by
  cases x with
  | nan => exact .null
  | number negative magnitude h =>
    rw [Json.double]
    by_cases hinfinite : magnitude = infinityMagnitude
    · rw [if_pos hinfinite]
      exact .null
    · rw [if_neg hinfinite]
      apply Writable.number
      -- after the point stand the digits of the double, in the one notation or the other
      intro c hc
      unfold Number.ofMagnitude at hc
      dsimp only at hc
      split at hc
      · unfold Number.positional at hc
        dsimp only at hc
        split at hc
        · rw [List.mem_singleton.mp hc]
          rfl
        · rename_i hexponent
          rw [Decimal.fraction, if_neg hexponent] at hc
          exact isDigit_padded _ _ c hc
      · exact isDigit_of_mem_toDigits c (List.mem_of_mem_drop hc)

theorem exists_double_eq {x : Binary64} (h : x.isFinite = true) :
    ∃ literal, double x = .number literal := by
  cases x with
  | nan => cases h
  | number negative magnitude hle =>
    have hfinite : magnitude ≠ infinityMagnitude := (of_decide_eq_true h).ne
    exact ⟨_, if_neg hfinite⟩

/-! ## Nulls -/

mutual

/-- Where a document has nulls: for each of them the names of the members that lead to it. -/
def nulls : Json → List (List String)
  | .null => [[]]
  | .array elements => nullsOfElements elements
  | .object members => nullsOfMembers members
  | .bool _ => []
  | .number _ => []
  | .string _ => []

/-- Where the elements of an array have nulls. -/
def nullsOfElements : List Json → List (List String)
  | [] => []
  | element :: rest => nulls element ++ nullsOfElements rest

/-- Where the members of an object have nulls. -/
def nullsOfMembers : List (Option String × Json) → List (List String)
  | [] => []
  | (key, value) :: rest => (nulls value).map (key.getD "" :: ·) ++ nullsOfMembers rest

end

theorem nulls_list {α : Type} {encode : α → Json} {xs : List α}
    (h : ∀ x ∈ xs, (encode x).nulls = []) : (list encode xs).nulls = [] := by
  rw [list, nulls]
  induction xs with
  | nil => rw [List.map_nil, nullsOfElements]
  | cons x xs ih =>
    have hrest := ih fun y hy => h y (List.mem_cons_of_mem x hy)
    rw [List.map_cons, nullsOfElements, h x List.mem_cons_self, hrest, List.nil_append]

theorem nulls_record (members : List (String × Json)) :
    (record members).nulls =
      members.flatMap fun (key, value) => value.nulls.map (key :: ·) := by
  rw [record, nulls]
  induction members with
  | nil => rw [List.map_nil, nullsOfMembers, List.flatMap_nil]
  | cons member members ih =>
    rw [List.map_cons, nullsOfMembers, ih, List.flatMap_cons]
    rfl

theorem nulls_record_eq_nil {members : List (String × Json)}
    (h : ∀ member ∈ members, member.2.nulls = []) : (record members).nulls = [] := by
  rw [nulls_record, List.flatMap_eq_nil_iff]
  intro member hmember
  exact List.map_eq_nil_iff.mpr (h member hmember)

/-- A missing value is a null, and a value brings its own nulls. -/
theorem nulls_nullable {α : Type} {encode : α → Json} (h : ∀ x, (encode x).nulls = [])
    (value : Option α) : (nullable encode value).nulls = if value.isNone then [[]] else [] := by
  cases value with
  | none =>
    rw [nullable, nulls]
    rfl
  | some x => exact h x

theorem nulls_text (s : String) : (text s).nulls = [] := by rw [text, nulls]

theorem nulls_nat (n : Nat) : (nat n).nulls = [] := by rw [nat, nulls]

theorem nulls_bool (b : Bool) : (bool b).nulls = [] := by rw [nulls]

theorem nulls_double {x : Binary64} (h : x.isFinite = true) : (double x).nulls = [] := by
  rcases exists_double_eq h with ⟨literal, hliteral⟩
  rw [hliteral, nulls]

end RiskGate.Json
