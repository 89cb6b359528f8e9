import Regraft.Record.Artifact
import Regraft.Proofs.Json.Reading
import Regraft.Proofs.Record.Moment
import Mathlib.Data.List.Nodup
/-!
# Artifacts read back

The artifact of a version holds the version (`ofArtifact_artifact`), if it can be written to a file, its moment is one
of universal time, and no number in it is too long for a reader of JSON.
-/
namespace Regraft

/-! ## Fields -/

theorem Text.ofString_injective : Function.Injective Text.ofString := by
  intro a b h
  have hchars : a.toList = b.toList := List.map_injective_iff.mpr (fun _ _ hcd => CodePoint.char.inj hcd) h
  exact String.toList_inj.mp hchars

namespace Json

/-- The field of an object whose keys are written as constants. -/
theorem get?_record {α : Type} (key : String) (members : List (String × α)) :
    Table.get? (key : Text) (members.map fun m => (Text.ofString m.1, m.2)) = Table.get? key members := by
  induction members with
  | nil => rfl
  | cons m members ih => simp only [List.map_cons, Table.get?, Text.ofString_injective.eq_iff, ih]

theorem onlyFields_record (keys : List String) (members : List (String × Json)) :
    onlyFields keys (members.map fun m => (Text.ofString m.1, m.2)) = members.all fun m => decide (m.1 ∈ keys) := by
  simp only [onlyFields, List.all_map]
  congr 1
  funext m
  simp only [Function.comp_apply, Text.ofString_injective.eq_iff]
  rw [Bool.eq_iff_iff, List.any_eq_true, decide_eq_true_iff]
  simp

section
variable {α : Type} {read : Json → Option α} {key : String} {members : Table Json} {v : Json}

theorem required?_of_get? (h : Table.get? (key : Text) members = some v) : required? read key members = read v := by
  rw [required?, h, Option.bind_some]

theorem default?_of_get? (h : Table.get? (key : Text) members = some v) (value : α) :
    default? read key value members = read v := by
  rw [default?, h]

end

@[simp] theorem list?_text_texts (ts : List Text) : list? text? (texts ts) = some ts := by
  simp only [list?, texts]
  induction ts with
  | nil => rfl
  | cons t ts ih => simp [ih, text?]

@[simp] theorem list?_whole_ints (ns : List Int) : list? whole? (.array (ns.map .int)) = some ns := by
  simp only [list?]
  induction ns with
  | nil => rfl
  | cons n ns ih => simp [ih, whole?]

end Json

/-! ## Words -/

@[simp] theorem ChangeKind.ofWord?_word (k : ChangeKind) : ofWord? k.word = some k := by
  cases k <;> decide

@[simp] theorem GuardStyle.ofWord?_word (s : GuardStyle) : ofWord? s.word = some s := by
  cases s <;> decide

/-! ## Records -/

/-- The fields of a record, as they are written. -/
def Record.fields (r : Record) : List (String × Json) :=
  [("target_path", .text r.targetPath),
   ("kind", .text r.kind.word),
   ("style", .text r.style.word),
   ("comment", .text r.comment),
   ("indent", .text r.indent),
   ("preceding", .texts r.preceding),
   ("following", .texts r.following),
   ("body", .texts r.body),
   ("stock", .texts r.stock),
   ("blank_stock", .array (r.blankStock.map .int)),
   ("replacement_style", .optional (fun s => .text s.word) r.replacementStyle),
   ("replacement_comment", .text r.replacementComment),
   ("replacement_indent", .text r.replacementIndent),
   ("anchor", .int r.anchor),
   ("order", .int r.order)]

/-- A record is read from the object that describes it. -/
theorem Record.ofJson?_toJson (r : Record) : ofJson? r.toJson = some r := by
  have honly := Json.onlyFields_record fieldNames r.fields
  have hget := fun key v (h : Table.get? key r.fields = some v) => (Json.get?_record key r.fields).trans h
  have hobject : r.toJson = .object (r.fields.map fun m => (Text.ofString m.1, m.2)) := rfl
  rw [hobject]
  generalize r.fields.map (fun m => (Text.ofString m.1, m.2)) = members at honly hget
  have honly' : Json.onlyFields fieldNames members = true := by
    rw [honly]
    simp [fields, fieldNames]
  unfold ofJson?
  refine Option.bind_eq_some_iff.mpr ⟨members, rfl, ?_⟩
  rw [honly']
  refine Option.bind_eq_some_iff.mpr ⟨_, Json.required?_of_get? (hget "target_path" _ rfl), ?_⟩
  refine Option.bind_eq_some_iff.mpr ⟨r.kind, ?_, ?_⟩
  · exact (Json.required?_of_get? (hget "kind" _ rfl)).trans (ChangeKind.ofWord?_word _)
  refine Option.bind_eq_some_iff.mpr ⟨r.style, ?_, ?_⟩
  · exact (Json.default?_of_get? (hget "style" _ rfl) _).trans (GuardStyle.ofWord?_word _)
  refine Option.bind_eq_some_iff.mpr ⟨_, Json.default?_of_get? (hget "comment" _ rfl) _, ?_⟩
  refine Option.bind_eq_some_iff.mpr ⟨_, Json.default?_of_get? (hget "indent" _ rfl) _, ?_⟩
  refine Option.bind_eq_some_iff.mpr ⟨r.preceding, ?_, ?_⟩
  · exact (Json.default?_of_get? (hget "preceding" _ rfl) _).trans (Json.list?_text_texts _)
  refine Option.bind_eq_some_iff.mpr ⟨r.following, ?_, ?_⟩
  · exact (Json.default?_of_get? (hget "following" _ rfl) _).trans (Json.list?_text_texts _)
  refine Option.bind_eq_some_iff.mpr ⟨r.body, ?_, ?_⟩
  · exact (Json.default?_of_get? (hget "body" _ rfl) _).trans (Json.list?_text_texts _)
  refine Option.bind_eq_some_iff.mpr ⟨r.stock, ?_, ?_⟩
  · exact (Json.default?_of_get? (hget "stock" _ rfl) _).trans (Json.list?_text_texts _)
  refine Option.bind_eq_some_iff.mpr ⟨r.blankStock, ?_, ?_⟩
  · exact (Json.default?_of_get? (hget "blank_stock" _ rfl) _).trans (Json.list?_whole_ints _)
  refine Option.bind_eq_some_iff.mpr ⟨r.replacementStyle, ?_, ?_⟩
  · refine (Json.default?_of_get? (hget "replacement_style" _ rfl) _).trans ?_
    cases r.replacementStyle with
    | none => rfl
    | some s => simp [Json.optional, Json.text?]
  refine Option.bind_eq_some_iff.mpr ⟨_, Json.default?_of_get? (hget "replacement_comment" _ rfl) _, ?_⟩
  refine Option.bind_eq_some_iff.mpr ⟨_, Json.default?_of_get? (hget "replacement_indent" _ rfl) _, ?_⟩
  refine Option.bind_eq_some_iff.mpr ⟨_, Json.default?_of_get? (hget "anchor" _ rfl) _, ?_⟩
  exact Option.bind_eq_some_iff.mpr ⟨_, Json.default?_of_get? (hget "order" _ rfl) _, rfl⟩

/-! ## Versions -/

/-- The records of a version are read from the array that holds them. -/
theorem Json.list?_records (rs : List Record) : list? Record.ofJson? (.array (rs.map Record.toJson)) = some rs := by
  simp only [list?]
  induction rs with
  | nil => rfl
  | cons r rs ih => simp [ih, Record.ofJson?_toJson]

/-- The fields of a version, as they are written. -/
def Version.fields (v : Version) : List (String × Json) :=
  [("order", .int v.order),
   ("created_at", .text v.created.showZulu),
   ("records", .array (v.records.map Record.toJson))]

/-- A version of a moment of universal time is read from the object that describes it. -/
theorem Version.ofJson?_toJson {v : Version} (h : v.created.IsUniversal) (now : Moment) :
    ofJson? now v.toJson = some v := by
  have honly := Json.onlyFields_record ["order", "created_at", "records"] v.fields
  have hget := fun key w (h : Table.get? key v.fields = some w) => (Json.get?_record key v.fields).trans h
  have hobject : v.toJson = .object (v.fields.map fun m => (Text.ofString m.1, m.2)) := rfl
  rw [hobject]
  generalize v.fields.map (fun m => (Text.ofString m.1, m.2)) = members at honly hget
  have honly' : Json.onlyFields ["order", "created_at", "records"] members = true := by
    rw [honly]
    simp [fields]
  unfold ofJson?
  refine Option.bind_eq_some_iff.mpr ⟨members, rfl, ?_⟩
  rw [honly']
  refine Option.bind_eq_some_iff.mpr ⟨_, Json.required?_of_get? (hget "order" _ rfl), ?_⟩
  refine Option.bind_eq_some_iff.mpr ⟨v.created, ?_, ?_⟩
  · rw [Json.default?_of_get? (hget "created_at" _ rfl), Moment.ofJson?, Moment.ofText?_showZulu h]
  refine Option.bind_eq_some_iff.mpr ⟨v.records, ?_, rfl⟩
  exact (Json.default?_of_get? (hget "records" _ rfl) _).trans (Json.list?_records _)

/-! ## Numbers that are not too long -/

/-- A number with no more digits than a reader of JSON takes. -/
def IsShort (n : Int) : Prop := (showNat n.natAbs).length ≤ longestInteger

/-- A record whose line numbers are not too long. -/
structure Record.HasShortNumbers (r : Record) : Prop where
  blankStock : ∀ n ∈ r.blankStock, IsShort n
  anchor : IsShort r.anchor

namespace Json

theorem plain_texts (depth : Nat) (ts : List Text) : Plain (depth + 1) (texts ts) := by
  refine .array depth _ fun v hv => ?_
  obtain ⟨t, -, rfl⟩ := List.mem_map.mp hv
  exact .text depth t

/-- An object with the keys of its fields is plain if its fields are. -/
theorem plain_record {depth : Nat} {members : List (String × Json)} (hdistinct : (members.map Prod.fst).Nodup)
    (hplain : ∀ m ∈ members, Plain depth m.2) : Plain (depth + 1) (record members) := by
  refine .object depth _ ?_ ?_
  · have hkeys : (members.map fun m => (Text.ofString m.1, m.2)).map Prod.fst =
        (members.map Prod.fst).map Text.ofString := by
      simp
    exact hkeys ▸ List.Nodup.map Text.ofString_injective hdistinct
  · intro m hm
    obtain ⟨field, hfield, rfl⟩ := List.mem_map.mp hm
    exact hplain field hfield

end Json

theorem Record.plain_toJson {r : Record} (h : r.HasShortNumbers) (horder : IsShort r.order) (depth : Nat) :
    Json.Plain (depth + 2) r.toJson := by
  have hints : Json.Plain (depth + 1) (.array (r.blankStock.map .int)) := by
    refine .array depth _ fun v hv => ?_
    obtain ⟨n, hn, rfl⟩ := List.mem_map.mp hv
    exact .int depth n (h.blankStock n hn)
  have hstyle : Json.Plain (depth + 1) (.optional (fun s => .text (GuardStyle.word s)) r.replacementStyle) := by
    cases r.replacementStyle with
    | none => exact .null _
    | some s => exact .text _ _
  have htext := fun t => Json.Plain.text (depth + 1) t
  refine Json.plain_record (by simp) ?_
  simp only [List.forall_mem_cons, List.not_mem_nil, false_implies, implies_true, and_true]
  exact ⟨htext _, htext _, htext _, htext _, htext _, Json.plain_texts _ _, Json.plain_texts _ _, Json.plain_texts _ _,
    Json.plain_texts _ _, hints, hstyle, htext _, htext _, .int _ _ h.anchor, .int _ _ horder⟩

theorem Version.plain_toJson {v : Version} (horder : IsShort v.order)
    (hrecords : ∀ r ∈ v.records, r.HasShortNumbers ∧ IsShort r.order) (depth : Nat) : Json.Plain (depth + 4) v.toJson := by
  have harray : Json.Plain (depth + 3) (.array (v.records.map Record.toJson)) := by
    refine .array (depth + 2) _ fun w hw => ?_
    obtain ⟨r, hr, rfl⟩ := List.mem_map.mp hw
    exact Record.plain_toJson (hrecords r hr).1 (hrecords r hr).2 depth
  refine Json.plain_record (by simp) ?_
  simp only [List.forall_mem_cons, List.not_mem_nil, false_implies, implies_true, and_true]
  exact ⟨.int _ _ horder, .text _ _, harray⟩

/-- The artifact of a version holds the version, if it can be written. -/
theorem Version.ofArtifact_artifact {v : Version} {chars : List Char} (hcreated : v.created.IsUniversal)
    (horder : IsShort v.order) (hrecords : ∀ r ∈ v.records, r.HasShortNumbers ∧ IsShort r.order)
    (hchars : v.artifact.chars? = some chars) (now : Moment) : ofArtifact now (Text.ofChars chars) = .ok v := by
  have hplain := Version.plain_toJson horder hrecords 981
  have hwhole : v.artifact.IsWhole := by
    rw [Text.isWhole_of_chars? hchars]
    exact Text.isWhole_ofChars chars
  rw [← Text.isWhole_of_chars? hchars, ofArtifact, artifact, Json.read_indented hplain hwhole]
  simp only [bind, Except.bind, ofJson?_toJson hcreated now]
  rfl

end Regraft
