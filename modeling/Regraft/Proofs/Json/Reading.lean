import Regraft.Proofs.Json.Texts
import Regraft.Proofs.Number.Digits
import Regraft.Proofs.Table
/-!
# Written values read back

A value is plain (`Json.Plain`) if its numbers are whole and not too long, no object has a key twice, and arrays and
objects are not too deep in each other. A plain value is read from its lines as it was written, if these can be written
to a file (`read_indented`).

The reader takes one unit of fuel for every part it opens, and every part has a character of its own, so the length of
what is read is fuel enough.
-/
namespace Regraft.Json

/-! ## Numbers -/

/-- What may follow a value in its line: nothing, the comma before the next one, or the end of the line. -/
def Closes (rest : Text) : Prop := ∀ c ∈ rest.head?, c = char ',' ∨ c = char '\n'

theorem closes_newLine (level : Nat) (rest : Text) : Closes (newLine level ++ rest) := by
  simp [Closes, newLine]

theorem closes_comma (rest : Text) : Closes (char ',' :: rest) := by
  simp [Closes]

section
variable {rest : Text}

theorem Closes.isDigit_eq_false (h : Closes rest) : ∀ c ∈ rest.head?, c.isDigit = false := by
  intro c hc
  rcases h c hc with rfl | rfl <;> rfl

theorem Closes.takePlaces (h : Closes rest) : takePlaces rest = (none, rest) := by
  unfold Json.takePlaces
  split
  · rcases h _ rfl with hc | hc <;> cases hc
  · rfl

theorem Closes.takePower (h : Closes rest) : takePower rest = (none, rest) := by
  unfold Regraft.takePower
  cases rest with
  | nil => rfl
  | cons c rest => rcases h c rfl with rfl | rfl <;> rfl

/-- The digits of a number are taken up to where it ends. -/
theorem takeWhole_showNat (h : Closes rest) (n : Nat) : takeWhole (showNat n ++ rest) = (showNat n, rest) := by
  unfold takeWhole
  split
  · rename_i tail heq
    obtain ⟨c, digits, hdigits⟩ := List.exists_cons_of_ne_nil (showNat_ne_nil n)
    rw [hdigits] at heq
    obtain ⟨rfl, htail⟩ := List.cons.inj heq
    have hzero : n = 0 := showNat_of_head?_zero (by rw [hdigits]; rfl)
    subst hzero
    obtain rfl : digits = [] := (List.cons.inj hdigits).2.symm
    rw [hdigits, ← htail]
    rfl
  · rw [List.takeWhile_append_of_pos fun c hc => isDigit_of_mem_showNat hc,
      List.dropWhile_append_of_pos fun c hc => isDigit_of_mem_showNat hc, dropWhile_eq_self h.isDigit_eq_false]
    have hnone : rest.takeWhile CodePoint.isDigit = [] := by
      cases rest with
      | nil => rfl
      | cons c rest => simp [h.isDigit_eq_false c rfl]
    rw [hnone, List.append_nil]

theorem readUnsigned_showNat (h : Closes rest) (negative : Bool) {n : Nat}
    (hlong : (showNat n).length ≤ longestInteger) :
    readUnsigned negative (showNat n ++ rest) = some (.int (if negative then -(n : Int) else n), rest) := by
  have hwhole : (showNat n).isEmpty = false := by
    simpa using showNat_ne_nil n
  simp [readUnsigned, takeWhole_showNat h, h.takePlaces, h.takePower, hwhole, Nat.not_lt.mpr hlong]

theorem readNumber_showInt (h : Closes rest) {n : Int} (hlong : (showNat n.natAbs).length ≤ longestInteger) :
    readNumber (showInt n ++ rest) = some (.int n, rest) := by
  cases n with
  | ofNat n =>
    have hplain : readNumber (showNat n ++ rest) = readUnsigned false (showNat n ++ rest) := by
      unfold readNumber
      split
      · rename_i tail heq
        obtain ⟨c, digits, hdigits⟩ := List.exists_cons_of_ne_nil (showNat_ne_nil n)
        have hc : c.isDigit = true := isDigit_of_mem_showNat (n := n) (by rw [hdigits]; exact List.mem_cons_self)
        rw [hdigits] at heq
        obtain ⟨rfl, -⟩ := List.cons.inj heq
        cases hc
      · rfl
    exact hplain.trans (readUnsigned_showNat h false hlong)
  | negSucc n => exact readUnsigned_showNat h true hlong

end

/-! ## Words -/

/-- No word starts with a digit or a minus sign. -/
theorem readWord_eq_none {c : CodePoint} (h : c.isDigit = true ∨ c = char '-') (rest : Text) :
    readWord (c :: rest) = none := by
  have hne : ∀ d : Char, d.isDigit = false → d ≠ '-' → (char d : CodePoint) ≠ c := by
    rintro d hd hminus rfl
    rcases h with h | h
    · exact absurd h (by simp [CodePoint.isDigit, CodePoint.isIn, hd])
    · exact hminus (CodePoint.char.inj h)
  have hn := hne 'n' (by decide) (by decide)
  have ht := hne 't' (by decide) (by decide)
  have hf := hne 'f' (by decide) (by decide)
  have hN := hne 'N' (by decide) (by decide)
  have hI := hne 'I' (by decide) (by decide)
  simp [readWord, after?, Text.ofString, Text.ofChars, hn, ht, hf, hN, hI]

theorem showInt_cons (n : Int) : ∃ c digits, showInt n = c :: digits ∧ (c.isDigit = true ∨ c = char '-') := by
  cases n with
  | ofNat n =>
    obtain ⟨c, digits, hdigits⟩ := List.exists_cons_of_ne_nil (showNat_ne_nil n)
    exact ⟨c, digits, hdigits, .inl (isDigit_of_mem_showNat (n := n) (by rw [hdigits]; exact List.mem_cons_self))⟩
  | negSucc n => exact ⟨char '-', showNat (n + 1), rfl, .inr rfl⟩

/-! ## Plain values -/

/-- A value with whole numbers, distinct keys, and arrays and objects at most so deep in each other. -/
inductive Plain : (depth : Nat) → Json → Prop
  | null (depth : Nat) : Plain depth .null
  | bool (depth : Nat) (value : Bool) : Plain depth (.bool value)
  | int (depth : Nat) (n : Int) (short : (showNat n.natAbs).length ≤ longestInteger) : Plain depth (.int n)
  | text (depth : Nat) (t : Text) : Plain depth (.text t)
  | array (depth : Nat) (items : List Json) (plain : ∀ v ∈ items, Plain depth v) : Plain (depth + 1) (.array items)
  | object (depth : Nat) (members : List (Text × Json)) (distinct : (members.map Prod.fst).Nodup)
      (plain : ∀ m ∈ members, Plain depth m.2) : Plain (depth + 1) (.object members)

/-- How a value may start: neither with a blank nor with a closing bracket. -/
def Opens (t : Text) : Prop := ∃ c body, t = c :: body ∧ isSpace c = false ∧ c ≠ char ']'

theorem opens_of_isDigit {c : CodePoint} (h : c.isDigit = true ∨ c = char '-') (body : Text) : Opens (c :: body) := by
  refine ⟨c, body, rfl, ?_, ?_⟩
  · have hne : ∀ d : Char, d.isDigit = false → d ≠ '-' → (c == char d) = false := by
      intro d hd hminus
      refine beq_false_of_ne ?_
      rintro rfl
      rcases h with h | h
      · exact absurd h (by simp [CodePoint.isDigit, CodePoint.isIn, hd])
      · exact hminus (CodePoint.char.inj h)
    simp [isSpace, hne ' ' (by decide) (by decide), hne '\t' (by decide) (by decide), hne '\n' (by decide) (by decide),
      hne '\r' (by decide) (by decide)]
  · rintro rfl
    rcases h with h | h <;> exact absurd h (by decide)

theorem Plain.opens {depth : Nat} {v : Json} (h : Plain depth v) (level : Nat) :
    Opens (indented quoteRaw level v) := by
  cases h with
  | null => exact ⟨_, _, rfl, rfl, by decide⟩
  | bool depth value => cases value <;> exact ⟨_, _, rfl, rfl, by decide⟩
  | int depth n short =>
    obtain ⟨c, digits, hn, hc⟩ := showInt_cons n
    have hwritten : indented quoteRaw level (.int n) = c :: digits := hn
    rw [hwritten]
    exact opens_of_isDigit hc digits
  | text => exact ⟨_, _, rfl, rfl, by decide⟩
  | array depth items => cases items <;> exact ⟨_, _, rfl, rfl, by decide⟩
  | object depth members => cases members <;> exact ⟨_, _, rfl, rfl, by decide⟩

theorem Opens.skipSpace {t : Text} (h : Opens t) (rest : Text) : skipSpace (t ++ rest) = t ++ rest := by
  obtain ⟨c, body, rfl, hspace, -⟩ := h
  exact dropWhile_eq_self (by simpa using hspace)

theorem skipSpace_comma (t : Text) : skipSpace (char ',' :: t) = char ',' :: t := rfl

theorem skipSpace_newLine (level : Nat) (t : Text) : skipSpace (newLine level ++ t) = skipSpace t := by
  unfold Json.skipSpace newLine
  refine List.dropWhile_append_of_pos fun c hc => ?_
  rcases List.mem_cons.mp hc with rfl | hc
  · rfl
  · rw [List.eq_of_mem_replicate hc]
    rfl

/-! ## Values -/

/-- A value is read from its lines, if these are whole, with their length as fuel, and what follows them is left. -/
def ReadsBack (depth : Nat) (v : Json) : Prop :=
  ∀ (level fuel : Nat) (rest : Text), (indented quoteRaw level v).IsWhole → Closes rest →
    (indented quoteRaw level v).length ≤ fuel →
      readValue fuel depth (indented quoteRaw level v ++ rest) = .ok (v, rest)

section
variable {depth : Nat}

/-- What starts neither a text nor an array nor an object is a word or a number. -/
theorem readValue_other {c : CodePoint} (htext : c ≠ char '"') (harray : c ≠ char '[') (hobject : c ≠ char '\x7b')
    (fuel depth : Nat) (t : Text) : readValue (fuel + 1) depth (c :: t) =
      orMalformed ((readWord (c :: t)).orElse fun _ => readNumber (c :: t)) := by
  rw [readValue.eq_def]
  split
  · rename_i heq
    cases heq
  · rename_i heq
    cases heq
    split
    · rename_i heq
      cases heq
      exact absurd rfl htext
    · rename_i heq
      cases heq
      exact absurd rfl harray
    · rename_i heq
      cases heq
      exact absurd rfl hobject
    · rename_i heq
      cases heq
      exact absurd rfl harray
    · rename_i heq
      cases heq
      exact absurd rfl hobject
    · rfl

theorem readsBack_null : ReadsBack depth .null := by
  intro level fuel rest hwhole hrest hfuel
  obtain ⟨fuel, rfl⟩ := Nat.exists_eq_add_of_le' (le_trans (by decide : 1 ≤ 4) hfuel)
  exact readValue_other (by decide) (by decide) (by decide) fuel depth _

theorem readsBack_bool (value : Bool) : ReadsBack depth (.bool value) := by
  intro level fuel rest hwhole hrest hfuel
  cases value with
  | true =>
    obtain ⟨fuel, rfl⟩ := Nat.exists_eq_add_of_le' (le_trans (by decide : 1 ≤ 4) hfuel)
    exact readValue_other (by decide) (by decide) (by decide) fuel depth _
  | false =>
    obtain ⟨fuel, rfl⟩ := Nat.exists_eq_add_of_le' (le_trans (by decide : 1 ≤ 5) hfuel)
    exact readValue_other (by decide) (by decide) (by decide) fuel depth _

theorem readsBack_int {n : Int} (short : (showNat n.natAbs).length ≤ longestInteger) : ReadsBack depth (.int n) := by
  intro level fuel rest hwhole hrest hfuel
  obtain ⟨c, digits, hn, hc⟩ := showInt_cons n
  have hwritten : indented quoteRaw level (.int n) = c :: digits := hn
  have hne : c ≠ char '"' ∧ c ≠ char '[' ∧ c ≠ char '\x7b' := by
    refine ⟨?_, ?_, ?_⟩ <;> (rintro rfl; revert hc; decide)
  rw [hwritten] at hfuel ⊢
  obtain ⟨fuel, rfl⟩ := Nat.exists_eq_add_of_le' (le_trans (Nat.le_add_left 1 _) hfuel)
  have hnumber : readNumber (c :: (digits ++ rest)) = some (.int n, rest) := by
    rw [← List.cons_append, ← hn]
    exact readNumber_showInt hrest short
  rw [List.cons_append, readValue_other hne.1 hne.2.1 hne.2.2, readWord_eq_none hc, hnumber]
  rfl

theorem readsBack_text (t : Text) : ReadsBack depth (.text t) := by
  intro level fuel rest hwhole hrest hfuel
  obtain ⟨fuel, rfl⟩ := Nat.exists_eq_add_of_le' (le_trans (Nat.le_add_left 1 _) hfuel)
  obtain ⟨body, hquoted, hread⟩ := readText_quoteRaw (isWhole_of_quoteRaw hwhole) rest
  have hwritten : indented quoteRaw level (.text t) ++ rest = char '"' :: body := hquoted
  rw [hwritten, readValue.eq_def]
  simp only [hread]
  rfl

/-! ## Arrays -/

theorem indentedItems_cons_cons (quote : Text → Text) (level : Nat) (v w : Json) (items : List Json) :
    indentedItems quote level (v :: w :: items) =
      newLine level ++ (indented quote level v ++ char ',' :: indentedItems quote level (w :: items)) :=
  List.append_assoc ..

theorem indentedItems_cons (quote : Text → Text) (level : Nat) (v : Json) (items : List Json) :
    ∃ more, indentedItems quote level (v :: items) = newLine level ++ (indented quote level v ++ more) := by
  cases items with
  | nil =>
    refine ⟨[], ?_⟩
    rw [List.append_nil]
    rfl
  | cons w items => exact ⟨_, indentedItems_cons_cons quote level v w items⟩

/-- The items of an array, from behind the bracket on. -/
theorem readItems_indented {items : List Json} (hplain : ∀ v ∈ items, Plain depth v)
    (hitems : ∀ v ∈ items, ReadsBack depth v) (hne : items ≠ []) (level : Nat) (rest : Text) :
    ∀ fuel, (indentedItems quoteRaw (level + 1) items).IsWhole →
      (indentedItems quoteRaw (level + 1) items).length ≤ fuel →
      readItems fuel depth (skipSpace (indentedItems quoteRaw (level + 1) items ++
        (newLine level ++ char ']' :: rest))) = .ok (items, rest) := by
  induction items with
  | nil => exact absurd rfl hne
  | cons v items ih =>
    intro fuel hwhole hfuel
    have hopens := (hplain v List.mem_cons_self).opens (level + 1)
    have hv := hitems v List.mem_cons_self
    cases items with
    | nil =>
      rw [indentedItems] at hfuel hwhole
      rw [List.length_append] at hfuel
      rw [Text.isWhole_append] at hwhole
      obtain ⟨fuel, rfl⟩ := Nat.exists_eq_add_of_le' (le_trans (Nat.le_add_left 1 _) (le_of_add_le_left hfuel))
      have hlong : (indented quoteRaw (level + 1) v).length ≤ fuel := by
        simp only [newLine, List.length_cons] at hfuel
        omega
      rw [indentedItems, List.append_assoc, skipSpace_newLine, hopens.skipSpace, readItems,
        hv _ _ _ hwhole.2 (closes_newLine level _) hlong]
      simp only [bind, Except.bind, skipSpace_newLine]
      rfl
    | cons w items =>
      simp only [indentedItems_cons_cons, newLine, List.length_append, List.length_cons] at hfuel
      rw [indentedItems_cons_cons, Text.isWhole_append, Text.isWhole_append, Text.isWhole_cons] at hwhole
      obtain ⟨-, hfirst, -, hwhole⟩ := hwhole
      obtain ⟨fuel, rfl⟩ := Nat.exists_eq_add_of_le' (show 1 ≤ fuel by omega)
      have hrest := ih (fun v hv => hplain v (List.mem_cons_of_mem _ hv))
        (fun v hv => hitems v (List.mem_cons_of_mem _ hv)) (List.cons_ne_nil w items) fuel hwhole (by omega)
      rw [indentedItems_cons_cons, List.append_assoc, List.append_assoc, skipSpace_newLine, hopens.skipSpace, readItems,
        List.cons_append, hv _ _ _ hfirst (closes_comma _) (by omega)]
      simp only [bind, Except.bind, skipSpace_comma, hrest]
      rfl

/-- An array with items is read from its lines. -/
theorem readsBack_array {items : List Json} (hplain : ∀ v ∈ items, Plain depth v)
    (hitems : ∀ v ∈ items, ReadsBack depth v) : ReadsBack (depth + 1) (.array items) := by
  intro level fuel rest hwhole hrest hfuel
  cases items with
  | nil =>
    obtain ⟨fuel, rfl⟩ := Nat.exists_eq_add_of_le' (le_trans (by decide : 1 ≤ 2) hfuel)
    rfl
  | cons v items =>
    have hwritten : indented quoteRaw level (.array (v :: items)) =
        char '[' :: (indentedItems quoteRaw (level + 1) (v :: items) ++ newLine level ++ [char ']']) := by
      simp [indented]
    simp only [hwritten, List.length_cons, List.length_append] at hfuel
    rw [hwritten, Text.isWhole_cons, Text.isWhole_append, Text.isWhole_append] at hwhole
    obtain ⟨fuel, rfl⟩ := Nat.exists_eq_add_of_le' (show 1 ≤ fuel by omega)
    have hread := readItems_indented hplain hitems (List.cons_ne_nil v items) level rest fuel hwhole.2.1.1 (by omega)
    obtain ⟨more, hmore⟩ := indentedItems_cons quoteRaw (level + 1) v items
    obtain ⟨c, body, hv, hspace, hbracket⟩ := (hplain v List.mem_cons_self).opens (level + 1)
    have hfirst : ∀ tail, skipSpace (indentedItems quoteRaw (level + 1) (v :: items) ++
        (newLine level ++ char ']' :: rest)) = char ']' :: tail → False := by
      intro tail heq
      rw [hmore, hv, List.append_assoc, skipSpace_newLine, skipSpace, List.cons_append, List.cons_append,
        List.dropWhile_cons_of_neg (by simp [hspace])] at heq
      exact hbracket (List.cons.inj heq).1
    rw [hwritten, List.cons_append, List.append_assoc, List.append_assoc, List.singleton_append, readValue.eq_def]
    simp only [hread]
    rfl

/-! ## Objects -/

theorem indentedMembers_cons_cons (quote : Text → Text) (level : Nat) (m n : Text × Json)
    (members : List (Text × Json)) : indentedMembers quote level (m :: n :: members) =
      newLine level ++ (quote m.1 ++ char ':' :: char ' ' ::
        (indented quote level m.2 ++ char ',' :: indentedMembers quote level (n :: members))) := by
  obtain ⟨key, v⟩ := m
  rw [indentedMembers, List.append_assoc]
  simp

theorem indentedMembers_cons (quote : Text → Text) (level : Nat) (m : Text × Json) (members : List (Text × Json)) :
    ∃ more, indentedMembers quote level (m :: members) = newLine level ++ (quote m.1 ++ more) := by
  obtain ⟨key, v⟩ := m
  cases members with
  | nil => exact ⟨_, by rw [indentedMembers, List.append_assoc]⟩
  | cons n members => exact ⟨_, indentedMembers_cons_cons quote level (key, v) n members⟩

theorem opens_quoteRaw (t rest : Text) : skipSpace (quoteRaw t ++ rest) = quoteRaw t ++ rest := rfl

theorem skipSpace_colon (t : Text) : skipSpace (char ':' :: t) = char ':' :: t := rfl

theorem skipSpace_blank (t : Text) : skipSpace (char ' ' :: t) = skipSpace t := rfl

/-- The members of an object, from behind the brace on. -/
theorem readMembers_indented {members : List (Text × Json)}
    (hplain : ∀ m ∈ members, Plain depth m.2) (hmembers : ∀ m ∈ members, ReadsBack depth m.2) (hne : members ≠ [])
    (level : Nat) (rest : Text) :
    ∀ fuel, (indentedMembers quoteRaw (level + 1) members).IsWhole →
      (indentedMembers quoteRaw (level + 1) members).length ≤ fuel →
      readMembers fuel depth (skipSpace (indentedMembers quoteRaw (level + 1) members ++
        (newLine level ++ char '\x7d' :: rest))) = .ok (members, rest) := by
  induction members with
  | nil => exact absurd rfl hne
  | cons m members ih =>
    intro fuel hwhole hfuel
    obtain ⟨key, v⟩ := m
    have hopens := (hplain (key, v) List.mem_cons_self).opens (level + 1)
    have hv : ReadsBack depth v := hmembers (key, v) List.mem_cons_self
    cases members with
    | nil =>
      simp only [indentedMembers, newLine, List.length_append, List.length_cons] at hfuel
      rw [indentedMembers, Text.isWhole_append, Text.isWhole_append, Text.isWhole_cons, Text.isWhole_cons] at hwhole
      obtain ⟨⟨-, hkey⟩, -, -, hvalue⟩ := hwhole
      obtain ⟨fuel, rfl⟩ := Nat.exists_eq_add_of_le' (show 1 ≤ fuel by omega)
      obtain ⟨body, hquoted, hread⟩ := readText_quoteRaw (isWhole_of_quoteRaw hkey)
        (char ':' :: char ' ' :: (indented quoteRaw (level + 1) v ++ (newLine level ++ char '\x7d' :: rest)))
      rw [indentedMembers, List.append_assoc, List.append_assoc, skipSpace_newLine, List.cons_append, List.cons_append,
        opens_quoteRaw, hquoted, readMembers, hread]
      simp only [bind, Except.bind, orMalformed, skipSpace_colon, skipSpace_blank, hopens.skipSpace]
      rw [hv _ _ _ hvalue (closes_newLine level _) (by omega)]
      simp only [skipSpace_newLine]
      rfl
    | cons n members =>
      simp only [indentedMembers_cons_cons, newLine, List.length_append, List.length_cons] at hfuel
      rw [indentedMembers_cons_cons, Text.isWhole_append, Text.isWhole_append, Text.isWhole_cons, Text.isWhole_cons,
        Text.isWhole_append, Text.isWhole_cons] at hwhole
      obtain ⟨-, hkey, -, -, hvalue, -, hwhole⟩ := hwhole
      obtain ⟨fuel, rfl⟩ := Nat.exists_eq_add_of_le' (show 1 ≤ fuel by omega)
      have hrest := ih (fun m hm => hplain m (List.mem_cons_of_mem _ hm))
        (fun m hm => hmembers m (List.mem_cons_of_mem _ hm)) (List.cons_ne_nil n members) fuel hwhole (by omega)
      obtain ⟨body, hquoted, hread⟩ := readText_quoteRaw (isWhole_of_quoteRaw hkey)
        (char ':' :: char ' ' :: (indented quoteRaw (level + 1) v ++
          char ',' :: (indentedMembers quoteRaw (level + 1) (n :: members) ++ (newLine level ++ char '\x7d' :: rest))))
      rw [indentedMembers_cons_cons, List.append_assoc, List.append_assoc, skipSpace_newLine, List.cons_append,
        List.cons_append, List.append_assoc, List.cons_append, opens_quoteRaw, hquoted, readMembers, hread]
      simp only [bind, Except.bind, orMalformed, skipSpace_colon, skipSpace_blank, hopens.skipSpace]
      rw [hv _ _ _ hvalue (closes_comma _) (by omega)]
      simp only [skipSpace_comma, hrest]
      rfl

/-- An object with distinct keys is read from its lines. -/
theorem readsBack_object {members : List (Text × Json)} (hdistinct : (members.map Prod.fst).Nodup)
    (hplain : ∀ m ∈ members, Plain depth m.2) (hmembers : ∀ m ∈ members, ReadsBack depth m.2) : ReadsBack (depth + 1) (.object members) := by
  intro level fuel rest hwhole hrest hfuel
  cases members with
  | nil =>
    obtain ⟨fuel, rfl⟩ := Nat.exists_eq_add_of_le' (le_trans (by decide : 1 ≤ 2) hfuel)
    rfl
  | cons m members =>
    have hwritten : indented quoteRaw level (.object (m :: members)) =
        char '\x7b' :: (indentedMembers quoteRaw (level + 1) (m :: members) ++ newLine level ++ [char '\x7d']) := by
      simp [indented]
    simp only [hwritten, List.length_cons, List.length_append] at hfuel
    rw [hwritten, Text.isWhole_cons, Text.isWhole_append, Text.isWhole_append] at hwhole
    obtain ⟨fuel, rfl⟩ := Nat.exists_eq_add_of_le' (show 1 ≤ fuel by omega)
    have hread := readMembers_indented hplain hmembers (List.cons_ne_nil m members) level rest fuel hwhole.2.1.1
      (by omega)
    obtain ⟨more, hmore⟩ := indentedMembers_cons quoteRaw (level + 1) m members
    have hfirst : ∀ tail, skipSpace (indentedMembers quoteRaw (level + 1) (m :: members) ++
        (newLine level ++ char '\x7d' :: rest)) = char '\x7d' :: tail → False := by
      intro tail heq
      rw [hmore, List.append_assoc, skipSpace_newLine, List.append_assoc, opens_quoteRaw] at heq
      cases (List.cons.inj heq).1
    rw [hwritten, List.cons_append, List.append_assoc, List.append_assoc, List.singleton_append, readValue.eq_def]
    simp only [hread]
    exact congrArg (fun table => Except.ok (object table, rest)) (Table.ofEntries_of_nodup hdistinct)

end

/-! ## Whole texts -/

theorem Plain.readsBack {depth : Nat} {v : Json} (h : Plain depth v) : ReadsBack depth v := by
  induction h with
  | null depth => exact readsBack_null
  | bool depth value => exact readsBack_bool value
  | int depth n short => exact readsBack_int short
  | text depth t => exact readsBack_text t
  | array depth items plain ih => exact readsBack_array plain ih
  | object depth members distinct plain ih => exact readsBack_object distinct plain ih

/-- A plain value is read from its lines as it was written. -/
theorem read_indented {v : Json} (h : Plain deepest v) (hwhole : (indented quoteRaw 0 v ++ [char '\n']).IsWhole) :
    read (indented quoteRaw 0 v ++ [char '\n']) = .ok v := by
  have hvalue := h.readsBack 0 ((indented quoteRaw 0 v ++ [char '\n']).length + 1) [char '\n']
    (Text.isWhole_append.mp hwhole).1 (closes_newLine 0 []) (by rw [List.length_append]; omega)
  rw [read, (h.opens 0).skipSpace, hvalue]
  rfl

end Regraft.Json
