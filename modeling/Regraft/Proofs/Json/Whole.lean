import Regraft.Record.Moment
import Regraft.Proofs.Json.Texts
/-!
# Written values are whole

A value is written as a whole text if all its texts are quoted as whole ones (`Json.AllTexts.isWhole_indented`). Quoting
in ASCII makes every text whole, quoting with all characters keeps the halves that there are.
-/
namespace Regraft

/-! ## Numbers and moments -/

@[simp] theorem isWhole_showNat (n : Nat) : (showNat n).IsWhole := Text.isWhole_ofChars _

@[simp] theorem isWhole_showInt (n : Int) : (showInt n).IsWhole := by
  cases n with
  | ofNat n => exact isWhole_showNat n
  | negSucc n => exact Text.isWhole_cons.mpr ⟨rfl, isWhole_showNat _⟩

@[simp] theorem isWhole_showPadded (width : Nat) (n : Int) : (showPadded width n).IsWhole := by
  unfold showPadded
  split <;> simp

theorem isWhole_placeDigits {digits : Text} (h : digits.IsWhole) (point : Int) : (placeDigits digits point).IsWhole := by
  have htake : ∀ k, Text.IsWhole (digits.take k) := fun k => h.of_sublist (List.take_sublist _ _)
  have hdrop : ∀ k, Text.IsWhole (digits.drop k) := fun k => h.of_sublist (List.drop_sublist _ _)
  unfold placeDigits
  simp only
  split
  · split
    · simp [h]
    · simp only [Text.isWhole_append, Text.isWhole_cons, htake, Text.isWhole_replicate, isHalf_char, true_and]
      split <;> simp only [Text.isWhole_cons, isHalf_char, Text.isWhole_nil, hdrop, and_self]
  · simp only [Text.isWhole_append, htake, isWhole_showPadded, true_and, and_true]
    refine ⟨?_, ?_⟩
    · split <;> simp only [Text.isWhole_cons, isHalf_char, Text.isWhole_nil, hdrop, and_self]
    · split <;> simp

theorem isWhole_trimZeros {digits : Text} (h : digits.IsWhole) : (trimZeros digits).IsWhole :=
  h.of_sublist (dropEndWhile_sublist _ digits)

/-- Floating-point numbers are written in digits, or with the words for those that have none. -/
theorem isWhole_showShortest {names : NonFinite} (hinfinity : names.infinity.IsWhole)
    (hnan : names.notANumber.IsWhole) (x : Float) : (showShortest names x).IsWhole := by
  unfold showShortest
  split
  · unfold NonFinite.text
    repeat' split
    all_goals simp [hinfinity, hnan]
  · rename_i b hb
    have hsign : (if b.negative then [char '-'] else [] : Text).IsWhole := by
      split <;> simp
    have hdigits := fun n point => isWhole_placeDigits (isWhole_trimZeros (isWhole_showNat n)) point
    simp only
    split
    · simp [hsign]
    · exact Text.isWhole_append.mpr ⟨hsign, hdigits _ _⟩

theorem Moment.isWhole_showZulu (m : Moment) : m.showZulu.IsWhole := by
  have hlocal : m.showLocal.IsWhole := by
    unfold showLocal two
    split <;> simp
  have hoffset : ∀ seconds, (showOffset seconds).IsWhole := by
    intro seconds
    simp only [showOffset, two]
    split <;> split <;> simp
  unfold showZulu
  split <;> simp [hlocal, hoffset]

namespace Json

/-! ## Texts -/

theorem isHalf_of_mem_escapeUnits {c d : CodePoint} (h : d ∈ escapeUnits c) : d.isHalf = false := by
  have hunit : ∀ n, ∀ d ∈ unicodeEscape n, d.isHalf = false := by
    simp [unicodeEscape]
  unfold escapeUnits at h
  simp only at h
  split at h
  · exact hunit _ d h
  · exact (List.mem_append.mp h).elim (hunit _ d) (hunit _ d)

theorem isHalf_of_shortEscape? {c e : CodePoint} (h : shortEscape? c = some e) : e.isHalf = false := by
  unfold shortEscape? at h
  split at h <;> cases h <;> rfl

/-- A text is quoted as a whole one if no half in it is written as it is. -/
theorem isWhole_quote {plain : CodePoint → Bool} {t : Text} (h : ∀ c ∈ t, plain c = true → c.isHalf = false) :
    (quote plain t).IsWhole := by
  refine Text.isWhole_cons.mpr ⟨rfl, Text.isWhole_append.mpr ⟨fun d hd => ?_, by simp⟩⟩
  obtain ⟨c, hc, hd⟩ := List.mem_flatMap.mp hd
  unfold quoteCodePoint at hd
  split at hd
  · rename_i e he
    obtain rfl | rfl : d = char '\\' ∨ d = e := by simpa using hd
    · rfl
    · exact isHalf_of_shortEscape? he
  · split at hd
    · rename_i hplain
      exact List.mem_singleton.mp hd ▸ h c hc hplain
    · exact isHalf_of_mem_escapeUnits hd

theorem isWhole_quoteRaw {t : Text} (h : t.IsWhole) : (quoteRaw t).IsWhole := isWhole_quote fun c hc _ => h c hc

theorem isWhole_quoteAscii (t : Text) : (quoteAscii t).IsWhole := by
  refine isWhole_quote fun c _ hplain => ?_
  cases c with
  | char c => rfl
  | half place =>
    have hlow : CodePoint.firstHalf + place < 127 := of_decide_eq_true (Bool.and_eq_true_iff.mp hplain).2
    exact absurd hlow (by simp only [CodePoint.firstHalf]; omega)

/-! ## Values -/

/-- All texts in a value satisfy a property, the keys of objects included. -/
inductive AllTexts (q : Text → Prop) : Json → Prop
  | null : AllTexts q .null
  | bool (value : Bool) : AllTexts q (.bool value)
  | int (n : Int) : AllTexts q (.int n)
  | float (x : Float) : AllTexts q (.float x)
  | text (t : Text) (ht : q t) : AllTexts q (.text t)
  | array (items : List Json) (hitems : ∀ v ∈ items, AllTexts q v) : AllTexts q (.array items)
  | object (members : List (Text × Json)) (hkeys : ∀ m ∈ members, q m.1) (hvalues : ∀ m ∈ members, AllTexts q m.2) :
      AllTexts q (.object members)

section
variable {q : Text → Prop} {quote : Text → Text} {v : Json}

/-- A property of all texts is one of all texts in a value. -/
theorem allTexts_of_forall (h : ∀ t, q t) : ∀ v : Json, AllTexts q v
  | .null => .null
  | .bool value => .bool value
  | .int n => .int n
  | .float x => .float x
  | .text t => .text t (h t)
  | .array items => .array items fun v _ => allTexts_of_forall h v
  | .object members => .object members (fun m _ => h m.1) fun m hm =>
    have : sizeOf m.2 < sizeOf members := by
      have hsize := List.sizeOf_lt_of_mem hm
      rw [Prod.mk.sizeOf_spec] at hsize
      omega
    allTexts_of_forall h m.2

theorem allTexts_texts {ts : List Text} (h : ∀ t ∈ ts, q t) : AllTexts q (texts ts) := by
  refine .array _ fun v hv => ?_
  obtain ⟨t, ht, rfl⟩ := List.mem_map.mp hv
  exact .text t (h t ht)

theorem allTexts_record {members : List (String × Json)} (hkeys : ∀ s : String, q (Text.ofString s))
    (hvalues : ∀ m ∈ members, AllTexts q m.2) : AllTexts q (record members) := by
  refine .object _ (List.forall_mem_map.mpr fun m _ => hkeys m.1) (List.forall_mem_map.mpr hvalues)

@[simp] theorem isWhole_newLine (level : Nat) : (newLine level).IsWhole := by
  simp [newLine]

theorem isWhole_indentedItems {level : Nat} {items : List Json}
    (h : ∀ v ∈ items, (indented quote level v).IsWhole) : (indentedItems quote level items).IsWhole := by
  induction items with
  | nil => simp [indentedItems]
  | cons v items ih =>
    have hv := h v List.mem_cons_self
    have hrest := ih fun w hw => h w (List.mem_cons_of_mem _ hw)
    cases items with
    | nil => simp [indentedItems, hv]
    | cons w items => simp [indentedItems, hv, hrest]

theorem isWhole_indentedMembers {level : Nat} {members : List (Text × Json)}
    (hkeys : ∀ m ∈ members, (quote m.1).IsWhole) (hvalues : ∀ m ∈ members, (indented quote level m.2).IsWhole) :
    (indentedMembers quote level members).IsWhole := by
  induction members with
  | nil => simp [indentedMembers]
  | cons m members ih =>
    have hkey := hkeys m List.mem_cons_self
    have hvalue := hvalues m List.mem_cons_self
    have hrest := ih (fun n hn => hkeys n (List.mem_cons_of_mem _ hn)) fun n hn => hvalues n (List.mem_cons_of_mem _ hn)
    cases members with
    | nil => simp [indentedMembers, hkey, hvalue]
    | cons n members => simp [indentedMembers, hkey, hvalue, hrest]

/-- A value is written as a whole text if its texts are quoted as whole ones. -/
theorem AllTexts.isWhole_indented (h : AllTexts (fun t => (quote t).IsWhole) v) :
    ∀ level, (indented quote level v).IsWhole := by
  induction h with
  | null => exact fun _ => Text.isWhole_ofString _
  | bool value =>
    intro level
    cases value <;> exact Text.isWhole_ofString _
  | int n => exact fun _ => isWhole_showInt n
  | float x => exact fun _ => isWhole_showShortest (Text.isWhole_ofString _) (Text.isWhole_ofString _) x
  | text t ht => exact fun _ => ht
  | array items hitems ih =>
    intro level
    cases items with
    | nil => simp [indented]
    | cons v items => simp [indented, isWhole_indentedItems fun w hw => ih w hw (level + 1)]
  | object members hkeys hvalues ih =>
    intro level
    cases members with
    | nil => simp [indented]
    | cons m members => simp [indented, isWhole_indentedMembers hkeys fun n hn => ih n hn (level + 1)]

end

end Json

end Regraft
