import Regraft.Proofs.Fallible
import Regraft.Proofs.Match.Layer
import Regraft.Proofs.Match.Similarity
import Regraft.Proofs.Splice.Clear
/-!
# All records at once

The places of a version's records are those of the lines without any of them, while each splice moves the lines behind
it. `substitute` says, place by place, what comes of a list when all records are put in at once, with no order of
splices; a weave of records that are apart is that (`weave_eq_substitute`).

* `Record.IsRenderable`: what it takes for a record to have guarded lines, which are then `Record.rendered`;
* `Record.IsRenderable.exists_parts`: among these lines, those that carry stock stand together, each with the source of
  its stock line;
* `sources_woven`: behind all splices, the sources are the places of the lines, each of them once and in order;
* `applyVersion_substitute`: a version that is placed is spliced in, with the lines and the sources of the substitution.
-/
namespace Regraft

/-! ## Substitution -/

section
variable {α : Type}

/-- A placed record takes out the element at a place. -/
def takesOut (i : Nat) (x : Nat × Record) : Bool := x.1 ≤ i && i < x.1 + x.2.extent

theorem takesOut_iff {i : Nat} {x : Nat × Record} : takesOut i x = true ↔ x.1 ≤ i ∧ i < x.1 + x.2.extent := by
  simp [takesOut]

/-- What stands at a place when every record is in its place: what the records at this place bring in, one after the
other, and the element that is there, unless a record takes it out. -/
def pieceAt (xs : List α) (new : Nat × Record → List α) (placed : List (Nat × Record)) (i : Nat) : List α :=
  (placed.filter fun x => x.1 = i).flatMap new ++
    if placed.any (takesOut i) then [] else xs[i]?.toList

/-- A list with every record in its place, all of them put there at once. -/
def substitute (xs : List α) (new : Nat × Record → List α) (placed : List (Nat × Record)) : List α :=
  (List.range (xs.length + 1)).flatMap (pieceAt xs new placed)

variable {xs : List α} {new : Nat × Record → List α} {placed : List (Nat × Record)} {x : Nat × Record} {i : Nat}

/-- In front of the records, there is what was there. -/
theorem pieceAt_of_lt (h : ∀ x ∈ placed, i < x.1) : pieceAt xs new placed i = xs[i]?.toList := by
  have hnone : (placed.filter fun x => x.1 = i) = [] :=
    List.filter_eq_nil_iff.mpr fun x hx => by simpa using (h x hx).ne'
  have hfree : placed.any (takesOut i) = false :=
    List.any_eq_false.mpr fun x hx htakes => Nat.not_le.mpr (h x hx) (takesOut_iff.mp htakes).1
  rw [pieceAt, hnone, hfree]
  rfl

/-- Behind a record and what it takes out, it does not count. -/
theorem pieceAt_cons_of_lt (hplace : x.1 < i) (hextent : x.1 + x.2.extent ≤ i) :
    pieceAt xs new (x :: placed) i = pieceAt xs new placed i := by
  have hfree : takesOut i x = false := Bool.eq_false_iff.mpr fun h => Nat.not_lt.mpr hextent (takesOut_iff.mp h).2
  rw [pieceAt, pieceAt, List.filter_cons_of_neg (by simpa using hplace.ne), List.any_cons, hfree, Bool.false_or]

/-- A record that takes nothing out comes first at its place. -/
theorem pieceAt_cons_self (h : x.2.extent = 0) :
    pieceAt xs new (x :: placed) x.1 = new x ++ pieceAt xs new placed x.1 := by
  have hfree : takesOut x.1 x = false := Bool.eq_false_iff.mpr fun hx => by
    have := (takesOut_iff.mp hx).2
    omega
  rw [pieceAt, pieceAt, List.filter_cons_of_pos (by simp), List.any_cons, hfree, Bool.false_or, List.flatMap_cons,
    List.append_assoc]

/-- A record that takes elements out stands alone in their place. -/
theorem flatMap_pieceAt_cons (hbehind : ∀ y ∈ placed, x.1 + x.2.extent ≤ y.1) (h : x.2.extent ≠ 0) :
    (List.range' x.1 x.2.extent).flatMap (pieceAt xs new (x :: placed)) = new x := by
  have hcovered : ∀ i, x.1 ≤ i → i < x.1 + x.2.extent →
      pieceAt xs new (x :: placed) i = if x.1 = i then new x else [] := by
    intro i hle hlt
    have hnone : (placed.filter fun y => y.1 = i) = [] :=
      List.filter_eq_nil_iff.mpr fun y hy => by simpa using (Nat.lt_of_lt_of_le hlt (hbehind y hy)).ne'
    rw [pieceAt, List.any_cons, takesOut_iff.mpr ⟨hle, hlt⟩, List.filter_cons, hnone]
    by_cases hi : x.1 = i <;> simp [hi]
  obtain ⟨k, hk⟩ := Nat.exists_eq_succ_of_ne_zero h
  have hrest : (List.range' (x.1 + 1) k).flatMap (pieceAt xs new (x :: placed)) = [] := by
    refine List.flatMap_eq_nil_iff.mpr fun i hi => ?_
    obtain ⟨hlow, hhigh⟩ := List.mem_range'_1.mp hi
    rw [hcovered i (by omega) (by omega), if_neg (by omega)]
  rw [hk, List.range'_succ, List.flatMap_cons, hcovered _ (Nat.le_refl _) (by omega), if_pos rfl, hrest,
    List.append_nil]

/-- From the place of a record on, there is what it brings in, and then what is behind what it takes out. -/
theorem flatMap_pieceAt_from (hbehind : ∀ y ∈ placed, x.1 + x.2.extent ≤ y.1) {count : Nat}
    (hcount : x.1 + x.2.extent ≤ count) :
    (List.range' x.1 (count + 1 - x.1)).flatMap (pieceAt xs new (x :: placed)) =
      new x ++ (List.range' (x.1 + x.2.extent) (count + 1 - (x.1 + x.2.extent))).flatMap (pieceAt xs new placed) := by
  by_cases hextent : x.2.extent = 0
  · have hrest : (List.range' (x.1 + 1) (count - x.1)).flatMap (pieceAt xs new (x :: placed)) =
        (List.range' (x.1 + 1) (count - x.1)).flatMap (pieceAt xs new placed) := by
      refine List.flatMap_congr fun i hi => ?_
      have hlt := (List.mem_range'_1.mp hi).1
      exact pieceAt_cons_of_lt (by omega) (by omega)
    have hfirst : List.range' x.1 (count + 1 - x.1) = x.1 :: List.range' (x.1 + 1) (count - x.1) := by
      rw [← List.range'_succ]
      congr 1
      omega
    simp only [hextent, Nat.add_zero, hfirst, List.flatMap_cons, pieceAt_cons_self hextent, hrest, List.append_assoc]
  · have hrest : (List.range' (x.1 + x.2.extent) (count + 1 - (x.1 + x.2.extent))).flatMap
          (pieceAt xs new (x :: placed)) =
        (List.range' (x.1 + x.2.extent) (count + 1 - (x.1 + x.2.extent))).flatMap (pieceAt xs new placed) := by
      refine List.flatMap_congr fun i hi => ?_
      have hle := (List.mem_range'_1.mp hi).1
      exact pieceAt_cons_of_lt (by omega) hle
    rw [show count + 1 - x.1 = x.2.extent + (count + 1 - (x.1 + x.2.extent)) by omega, ← List.range'_append_1,
      List.flatMap_append, flatMap_pieceAt_cons hbehind hextent, hrest]

/-- Elements one by one. -/
theorem flatMap_getElem? (xs : List α) (start count : Nat) :
    (List.range' start count).flatMap (fun i => xs[i]?.toList) = (xs.drop start).take count := by
  induction count generalizing start with
  | zero => simp
  | succ count ih =>
    rw [List.range'_succ, List.flatMap_cons, ih]
    by_cases h : start < xs.length
    · rw [List.getElem?_eq_getElem h, List.drop_eq_getElem_cons h]
      rfl
    · rw [List.getElem?_eq_none (by omega), List.drop_of_length_le (by omega), List.drop_of_length_le (by omega)]
      simp

/-- Edits from a cursor on are not in front of it. -/
theorem Spaced.le_position {count : Nat} {edits : List (Edit α)} :
    ∀ {cursor : Nat}, Spaced count cursor edits → ∀ e ∈ edits, cursor ≤ e.position := by
  induction edits with
  | nil => exact fun _ e he => absurd he List.not_mem_nil
  | cons first rest ih =>
    intro cursor h e he
    rcases List.mem_cons.mp he with rfl | he
    · exact h.1
    · exact (h.1.trans (Nat.le_add_right _ _)).trans (ih h.2 e he)

/-- From a cursor on, the weave of edits that are apart is put together place by place. -/
theorem weave_eq_flatMap : ∀ {cursor : Nat}, Spaced xs.length cursor (editsOf new placed) →
    weave xs cursor (editsOf new placed) =
      (List.range' cursor (xs.length + 1 - cursor)).flatMap (pieceAt xs new placed) := by
  induction placed with
  | nil =>
    intro cursor _
    have hpieces : pieceAt xs new [] = fun i => xs[i]?.toList := funext fun i => pieceAt_of_lt fun x hx => by cases hx
    rw [hpieces, flatMap_getElem?, List.take_of_length_le (by rw [List.length_drop]; omega)]
    rfl
  | cons x placed ih =>
    intro cursor h
    have hcursor : cursor ≤ x.1 := h.1
    have hrest : Spaced xs.length (x.1 + x.2.extent) (editsOf new placed) := h.2
    have hbehind : ∀ y ∈ placed, x.1 + x.2.extent ≤ y.1 :=
      fun y hy => hrest.le_position _ (List.mem_map_of_mem hy)
    have hcount : xs.length + 1 - cursor = (x.1 - cursor) + (xs.length + 1 - x.1) := by
      have := hrest.le
      omega
    -- In front of the record stands what was there.
    have hfront : (List.range' cursor (x.1 - cursor)).flatMap (pieceAt xs new (x :: placed)) =
        (xs.take x.1).drop cursor := by
      rw [List.drop_take, ← flatMap_getElem?]
      refine List.flatMap_congr fun i hi => pieceAt_of_lt fun y hy => ?_
      have hlt : i < x.1 := by
        have := (List.mem_range'_1.mp hi).2
        omega
      rcases List.mem_cons.mp hy with rfl | hy
      · exact hlt
      · have := hbehind y hy
        omega
    rw [hcount, ← List.range'_append_1, List.flatMap_append, hfront, Nat.add_sub_cancel' hcursor,
      flatMap_pieceAt_from hbehind hrest.le, ← ih hrest]
    exact List.append_assoc ..

/-- A weave of records that are apart has them all in their places. -/
theorem weave_eq_substitute (h : Spaced xs.length 0 (editsOf new placed)) :
    weave xs 0 (editsOf new placed) = substitute xs new placed := by
  rw [weave_eq_flatMap h, substitute, List.range_eq_range', Nat.sub_zero]

end

/-! ## What a record brings in -/

namespace Record

/-- Each guard of a record that is not a block holds exactly one line. -/
structure IsRenderable (r : Record) : Prop where
  body : r.kind = .addition → r.style = .block ∨ r.body.length = 1
  stock : r.kind = .deletion → r.style = .block ∨ r.stock.length = 1
  replacing : r.kind = .deletion → ∀ style ∈ r.replacementStyle, style = .block ∨ r.body.length = 1

instance (r : Record) : Decidable r.IsRenderable :=
  decidable_of_iff ((r.kind = .addition → r.style = .block ∨ r.body.length = 1) ∧
      (r.kind = .deletion → r.style = .block ∨ r.stock.length = 1) ∧
      (r.kind = .deletion → ∀ style ∈ r.replacementStyle, style = .block ∨ r.body.length = 1))
    ⟨fun h => ⟨h.1, h.2.1, h.2.2⟩, fun h => ⟨h.body, h.stock, h.replacing⟩⟩

/-- The guarded lines of a record; none if it cannot be rendered. -/
def rendered (tag : Tag) (r : Record) : List Text := (r.render tag).toOption.getD []

/-- The stock lines that a record takes out. -/
def taken (r : Record) : List Text :=
  match r.kind with
  | .addition => []
  | .deletion => r.stock

/-- The comments in front of deleted stock and behind it. -/
def comments (tag : Tag) (r : Record) : List Text × List Text :=
  match r.style with
  | .block => ([tag.formatBegin r.indent r.comment true], [tag.formatEnd r.indent])
  | .singleLine => ([], [])
  | .nextLine => ([tag.formatMarker r.indent r.comment true], [])

/-- The lines that carry deleted stock. -/
def carriers (tag : Tag) (r : Record) : List Text :=
  if r.style = .singleLine then r.commentedStock.map fun line => tag.formatTrailing line r.comment true
  else r.commentedStock

/-- The guarded lines in place of deleted stock. -/
def replacement (tag : Tag) (r : Record) : List Text :=
  match r.replacementStyle with
  | none => []
  | some style => (guardLines tag style r.replacementIndent r.replacementComment r.body false).toOption.getD []

/-- The lines that a record brings in and that carry no stock. -/
def brought (tag : Tag) (r : Record) : List Text :=
  match r.kind with
  | .addition => r.rendered tag
  | .deletion => (r.comments tag).1 ++ (r.comments tag).2 ++ r.replacement tag

end Record

/-- A line carries a stock line: as it is or commented out, and maybe with the comment of a guard behind it. -/
def Tag.Carries (tag : Tag) (line stock : Text) : Prop :=
  ∃ t, (t = stock ∨ t = commentOut stock) ∧ (line = t ∨ ∃ comment, line = tag.formatTrailing t comment true)

section
variable {σ : Type} {tag : Tag} {r : Record}

theorem forall₂_map_zipIdx {α β : Type} {R : β → α → Prop} {f : α × Nat → β} (h : ∀ a i, R (f (a, i)) a)
    (as : List α) : ∀ k, List.Forall₂ R ((as.zipIdx k).map f) as := by
  induction as with
  | nil => exact fun _ => .nil
  | cons a as ih => exact fun k => .cons (h a k) (ih (k + 1))

theorem exists_guardLines {style : GuardStyle} {lines : List Text} (h : style = .block ∨ lines.length = 1)
    (tag : Tag) (indent comment : Text) (deletion : Bool) :
    ∃ out, guardLines tag style indent comment lines deletion = .ok out := by
  cases style with
  | block => exact ⟨_, rfl⟩
  | singleLine | nextLine =>
    obtain ⟨line, rfl⟩ := List.length_eq_one_iff.mp (h.resolve_left (by decide))
    exact ⟨_, rfl⟩

namespace Record

theorem length_taken (r : Record) : r.taken.length = r.extent := by
  unfold taken extent
  cases r.kind <;> rfl

@[simp] theorem length_commentedStock (r : Record) : r.commentedStock.length = r.stock.length := by
  simp [commentedStock]

@[simp] theorem length_carriers (tag : Tag) (r : Record) : (r.carriers tag).length = r.stock.length := by
  unfold carriers
  split <;> simp

/-- Each stock line has the line that carries it. -/
theorem carries_carriers (tag : Tag) (r : Record) : List.Forall₂ tag.Carries (r.carriers tag) r.stock := by
  have hcommented : ∀ (line : Text) (i : Nat), (if (i : Int) ∈ r.blankStock then line else commentOut line) = line ∨
      (if (i : Int) ∈ r.blankStock then line else commentOut line) = commentOut line := fun line i => by
    split
    · exact .inl rfl
    · exact .inr rfl
  unfold carriers commentedStock
  split
  · rw [List.map_map]
    exact forall₂_map_zipIdx (fun line i => ⟨_, hcommented line i, .inr ⟨_, rfl⟩⟩) r.stock 0
  · exact forall₂_map_zipIdx (fun line i => ⟨_, hcommented line i, .inl rfl⟩) r.stock 0

/-- Deleted stock stands between its comments. -/
theorem guardLines_commentedStock (h : r.style = .block ∨ r.stock.length = 1) (tag : Tag) :
    guardLines tag r.style r.indent r.comment r.commentedStock true =
      .ok ((r.comments tag).1 ++ r.carriers tag ++ (r.comments tag).2) := by
  unfold comments carriers
  cases hstyle : r.style with
  | block => rfl
  | singleLine | nextLine =>
    obtain ⟨line, hline⟩ := List.length_eq_one_iff.mp
      (r.length_commentedStock.trans (h.resolve_left (by rw [hstyle]; decide)))
    rw [hline]
    rfl

theorem render_addition (h : r.IsRenderable) (hkind : r.kind = .addition) (tag : Tag) :
    r.render tag = .ok (r.rendered tag) := by
  obtain ⟨out, hout⟩ := exists_guardLines (h.body hkind) tag r.indent r.comment false
  simp only [rendered, render, hkind, hout, Except.toOption, Option.getD_some]

theorem render_deletion (h : r.IsRenderable) (hkind : r.kind = .deletion) (tag : Tag) :
    r.render tag = .ok ((r.comments tag).1 ++ r.carriers tag ++ ((r.comments tag).2 ++ r.replacement tag)) := by
  have hstock := guardLines_commentedStock (h.stock hkind) tag
  simp only [render, hkind, hstock, bind, Except.bind, pure, Except.pure, replacement]
  cases hstyle : r.replacementStyle with
  | none => simp
  | some style =>
    obtain ⟨out, hout⟩ := exists_guardLines (h.replacing hkind style hstyle) tag r.replacementIndent
      r.replacementComment false
    simp [hout, Except.toOption]

/-- The lines of a deletion have no source, but for those that carry stock. -/
theorem renderedSources_deletion (hkind : r.kind = .deletion) {known : List (Option σ)}
    (hknown : known.length = r.stock.length) (tag : Tag) (more : List Text) :
    r.renderedSources known ((r.comments tag).1 ++ r.carriers tag ++ ((r.comments tag).2 ++ more)).length =
      List.replicate (r.comments tag).1.length none ++ known ++
        List.replicate ((r.comments tag).2 ++ more).length none := by
  unfold renderedSources comments
  cases hstyle : r.style with
  | block =>
    simp only [hkind]
    simp [hknown, List.replicate_succ]
    omega
  | singleLine => simp [hkind, hknown]
  | nextLine => simp [hkind, hknown]

theorem IsRenderable.render_eq (h : r.IsRenderable) (tag : Tag) : r.render tag = .ok (r.rendered tag) := by
  cases hkind : r.kind with
  | addition => exact render_addition h hkind tag
  | deletion => simp [rendered, render_deletion h hkind tag, Except.toOption]

/-- Around the lines that carry the stock of a record, each with the source of its line, stand lines that the record
brings in, without a source. -/
theorem IsRenderable.exists_parts (h : r.IsRenderable) {known : List (Option σ)} (hknown : known.length = r.extent)
    (tag : Tag) : ∃ front carriers back, r.rendered tag = front ++ carriers ++ back ∧
      r.renderedSources known (r.rendered tag).length =
        List.replicate front.length none ++ known ++ List.replicate back.length none ∧
      List.Forall₂ tag.Carries carriers r.taken ∧ ∀ line ∈ front ++ back, line ∈ r.brought tag := by
  cases hkind : r.kind with
  | addition =>
    obtain rfl : known = [] := List.eq_nil_of_length_eq_zero (by rw [hknown, extent, hkind])
    exact ⟨r.rendered tag, [], [], by simp, by simp [renderedSources, hkind], by simp [taken, hkind],
      fun line hline => by simpa [brought, hkind] using hline⟩
  | deletion =>
    have hrendered : r.rendered tag =
        (r.comments tag).1 ++ r.carriers tag ++ ((r.comments tag).2 ++ r.replacement tag) := by
      simp [rendered, render_deletion h hkind tag, Except.toOption]
    have hcount : known.length = r.stock.length := by rw [hknown, extent, hkind]
    refine ⟨_, _, _, hrendered, ?_, ?_, fun line hline => ?_⟩
    · rw [hrendered, renderedSources_deletion hkind hcount]
    · rw [taken, hkind]
      exact carries_carriers tag r
    · rwa [brought, hkind, List.append_assoc]

end Record

end

/-! ## All records of a version -/

/-- A weave of pairs is a pair of weaves. -/
theorem zip_weave {α β : Type} {xs : List α} {ys : List β} (hlen : xs.length = ys.length)
    {new : Nat × Record → List α} {new' : Nat × Record → List β} {placed : List (Nat × Record)}
    (hnew : ∀ x ∈ placed, (new x).length = (new' x).length) :
    ∀ cursor, (weave xs cursor (editsOf new placed)).zip (weave ys cursor (editsOf new' placed)) =
      weave (xs.zip ys) cursor (editsOf (fun x => (new x).zip (new' x)) placed) := by
  induction placed with
  | nil =>
    intro cursor
    simp [editsOf, weave_nil, List.zip, List.drop_zipWith]
  | cons x placed ih =>
    intro cursor
    have hrest := ih (fun y hy => hnew y (List.mem_cons_of_mem _ hy)) (x.1 + x.2.extent)
    have hfirst := hnew x List.mem_cons_self
    simp only [editsOf] at hrest
    simp only [editsOf, List.map_cons, weave_cons]
    rw [List.zip_append (by simp [hlen, hfirst]), List.zip_append (by simp [hlen]), hrest]
    simp [List.zip, List.drop_zipWith, List.take_zipWith]

section
variable {tag : Tag} {lines : List Text} {placed : List (Nat × Record)}

/-- The lines of a file, each with its own place as its source. -/
def Sourced.ofLines (lines : List Text) : Sourced Nat := ⟨lines, (List.range lines.length).map some⟩

theorem length_sources_ofLines (lines : List Text) : (Sourced.ofLines lines).sources.length = lines.length := by
  simp [Sourced.ofLines]

/-- The lines that a placed record takes out have as many sources as its extent. -/
theorem length_known {x : Nat × Record} (h : Placeable lines placed) (hx : x ∈ placed) :
    (((Sourced.ofLines lines).sources.drop x.1).take x.2.extent).length = x.2.extent := by
  have := add_extent_le (h.inside x hx) (h.present x hx)
  rw [List.length_take, List.length_drop, length_sources_ofLines]
  omega

/-- A placed record that is renderable brings in lines around those that carry what it takes out. -/
theorem exists_parts_of_mem (h : Placeable lines placed) (hr : ∀ x ∈ placed, x.2.IsRenderable) (tag : Tag)
    {x : Nat × Record} (hx : x ∈ placed) : ∃ front carriers back, x.2.rendered tag = front ++ carriers ++ back ∧
      sourcesOf (Sourced.ofLines lines).sources (Record.rendered tag) x = List.replicate front.length none ++
        ((Sourced.ofLines lines).sources.drop x.1).take x.2.extent ++ List.replicate back.length none ∧
      List.Forall₂ tag.Carries carriers ((lines.drop x.1).take x.2.extent) ∧
      ∀ line ∈ front ++ back, line ∈ x.2.brought tag := by
  have htaken : x.2.taken = (lines.drop x.1).take x.2.extent := by
    by_cases hne : x.2.extent = 0
    · rw [hne, List.take_zero, ← List.length_eq_zero_iff, Record.length_taken, hne]
    · rw [take_drop_of_extentFits (h.present x hx) hne]
      cases hkind : x.2.kind with
      | addition => exact absurd (by rw [Record.extent, hkind]) hne
      | deletion => rw [Record.taken, hkind]
  rw [← htaken]
  exact (hr x hx).exists_parts (length_known h hx) tag

theorem length_sourcesOf (h : Placeable lines placed) (hr : ∀ x ∈ placed, x.2.IsRenderable) (tag : Tag) :
    ∀ x ∈ placed, (x.2.rendered tag).length =
      (sourcesOf (Sourced.ofLines lines).sources (Record.rendered tag) x).length := by
  intro x hx
  obtain ⟨front, carriers, back, hrendered, hsources, hcarries, -⟩ := exists_parts_of_mem h hr tag hx
  have hcarriers := hcarries.length_eq
  have := add_extent_le (h.inside x hx) (h.present x hx)
  rw [List.length_take, List.length_drop] at hcarriers
  simp only [hrendered, hsources, List.length_append, List.length_replicate, length_known h hx]
  omega

/-- The places that a record takes out are sources in its lines, in order. -/
theorem flatMap_sourcesOf (h : Placeable lines placed) (hr : ∀ x ∈ placed, x.2.IsRenderable) (tag : Tag)
    {x : Nat × Record} (hx : x ∈ placed) :
    (sourcesOf (Sourced.ofLines lines).sources (Record.rendered tag) x).flatMap Option.toList =
      ((List.range lines.length).drop x.1).take x.2.extent := by
  obtain ⟨front, carriers, back, -, hsources, -⟩ := exists_parts_of_mem h hr tag hx
  have hnone : ∀ n, (List.replicate n (none : Option Nat)).flatMap Option.toList = [] := by simp
  have hsome : ∀ is : List Nat, (is.map some).flatMap Option.toList = is := by simp [List.flatMap_map]
  rw [hsources, List.flatMap_append, List.flatMap_append, hnone, hnone, Sourced.ofLines, ← List.map_drop,
    ← List.map_take, hsome, List.nil_append, List.append_nil]

/-- Every place of the lines is the source of one line, in order. -/
theorem sources_woven (h : Placeable lines placed) (hr : ∀ x ∈ placed, x.2.IsRenderable) (tag : Tag) :
    (woven lines (Sourced.ofLines lines).sources (Record.rendered tag) placed).sources.filterMap id =
      List.range lines.length := by
  rw [List.filterMap_eq_flatMap_toList]
  refine (flatMap_weave (fun _ => rfl) (List.range lines.length) _ 0).trans ?_
  refine (weave_eq_drop ?_ ?_).trans List.drop_zero
  · rw [editsOf, List.map_map, List.length_range]
    exact spaced_editsOf (fun x => (sourcesOf _ _ x).flatMap Option.toList) h 0 (Nat.zero_le _) fun _ _ => Nat.zero_le _
  · intro e' he'
    obtain ⟨e, he, rfl⟩ := List.mem_map.mp he'
    obtain ⟨x, hx, rfl⟩ := List.mem_map.mp he
    exact flatMap_sourcesOf h hr tag hx

/-- A line comes from the line that it carries, or a record brings it in. -/
theorem carries_of_mem (h : Placeable lines placed) (hr : ∀ x ∈ placed, x.2.IsRenderable) {x : Nat × Record}
    (hx : x ∈ placed) {line : Text} {source : Option Nat}
    (hline : (line, source) ∈ (x.2.rendered tag).zip
      (sourcesOf (Sourced.ofLines lines).sources (Record.rendered tag) x)) :
    (∃ i stock, source = some i ∧ lines[i]? = some stock ∧ tag.Carries line stock) ∨
      source = none ∧ line ∈ x.2.brought tag := by
  obtain ⟨front, carriers, back, hrendered, hsources, hcarries, hbrought⟩ := exists_parts_of_mem h hr tag hx
  have hcount := hcarries.length_eq
  have hknown := length_known h hx
  have hle := add_extent_le (h.inside x hx) (h.present x hx)
  rw [List.length_take, List.length_drop] at hcount
  rw [hrendered, hsources, List.zip_append (by simp [hknown]; omega), List.zip_append (by simp), List.mem_append,
    List.mem_append] at hline
  rcases hline with (hfront | hcarrier) | hback
  · obtain ⟨hmem, hnone⟩ := List.of_mem_zip hfront
    exact .inr ⟨List.eq_of_mem_replicate hnone, hbrought line (List.mem_append_left _ hmem)⟩
  · obtain ⟨k, hk, hpair⟩ := List.mem_iff_getElem.mp hcarrier
    rw [List.length_zip, hknown] at hk
    simp only [Sourced.ofLines, List.getElem_zip, List.getElem_take, List.getElem_drop, List.getElem_map,
      List.getElem_range, Prod.mk.injEq] at hpair
    obtain ⟨rfl, rfl⟩ := hpair
    have hcarried := hcarries.get (by omega : k < carriers.length) (by rw [List.length_take, List.length_drop]; omega)
    rw [List.get_eq_getElem, List.get_eq_getElem, List.getElem_take, List.getElem_drop] at hcarried
    exact .inl ⟨x.1 + k, _, rfl, List.getElem?_eq_getElem _, hcarried⟩
  · obtain ⟨hmem, hnone⟩ := List.of_mem_zip hback
    exact .inr ⟨List.eq_of_mem_replicate hnone, hbrought line (List.mem_append_right _ hmem)⟩

/-- A line comes from the line that it carries, or a record brings it in. -/
theorem carries_woven (h : Placeable lines placed) (hr : ∀ x ∈ placed, x.2.IsRenderable) {line : Text}
    {source : Option Nat}
    (hline : (line, source) ∈ (woven lines (Sourced.ofLines lines).sources (Record.rendered tag) placed).lines.zip
      (woven lines (Sourced.ofLines lines).sources (Record.rendered tag) placed).sources) :
    (∃ i stock, source = some i ∧ lines[i]? = some stock ∧ tag.Carries line stock) ∨
      source = none ∧ ∃ x ∈ placed, line ∈ x.2.brought tag := by
  rw [woven, zip_weave (length_sources_ofLines lines).symm (length_sourcesOf h hr tag)] at hline
  rcases mem_weave hline with hkept | ⟨e, he, hnew⟩
  · -- A line that no record takes out has its own place as its source.
    obtain ⟨i, hi, hpair⟩ := List.mem_iff_getElem.mp hkept
    simp only [Sourced.ofLines, List.getElem_zip, List.getElem_map, List.getElem_range, Prod.mk.injEq] at hpair
    obtain ⟨rfl, rfl⟩ := hpair
    exact .inl ⟨i, _, rfl, List.getElem?_eq_getElem _, _, .inl rfl, .inl rfl⟩
  · obtain ⟨x, hx, rfl⟩ := List.mem_map.mp he
    exact (carries_of_mem h hr hx hnew).imp_right fun hbrought => ⟨hbrought.1, x, hx, hbrought.2⟩

end

/-- Lines with records in their places, all put there at once, and where each of these lines comes from. -/
structure Substituted (tag : Tag) (lines : List Text) (placed : List (Nat × Record)) (out : Sourced Nat) : Prop where
  lines_eq : out.lines = substitute lines (fun x => x.2.rendered tag) placed
  /-- Each line has a source or none. -/
  length_sources : out.sources.length = out.lines.length
  /-- Every place is the source of one line, in order. -/
  places : out.sources.filterMap id = List.range lines.length
  /-- A line with a source carries the line of that place; one without is a guard's. -/
  carries : ∀ line source, (line, source) ∈ out.lines.zip out.sources →
    (∃ i stock, source = some i ∧ lines[i]? = some stock ∧ tag.Carries line stock) ∨
      source = none ∧ ∃ x ∈ placed, line ∈ x.2.brought tag

/-- A version whose records can be rendered is spliced in wherever it is placed. Its records are then all in their
places, each one's lines in place of the stock that it takes out and in the order of the version, as if they had been
put there at once. -/
theorem applyVersion_substitute {α : Type} [Scale α] {m : Matching α} {lines : List Text} {v : Version}
    {pv : PlacedVersion α} (tag : Tag) (hr : ∀ r ∈ v.records, r.IsRenderable) (h : m.place lines v = .ok pv) :
    pv.places.map Prod.snd = v.records ∧ Placeable lines pv.places ∧
      (∀ r ∈ v.records, r.render tag = .ok (r.rendered tag)) ∧
      ∃ out, applyVersion tag (.ofLines lines) (pv.placed.map fun p => ((p.position : Int), p.record)) = .ok out ∧
        Substituted tag lines pv.places out := by
  obtain ⟨-, hfeasible⟩ := Matching.place_feasible h
  have hplaceable := hfeasible.placeable
  have hrenderable : ∀ x ∈ pv.places, x.2.IsRenderable := fun x hx =>
    hr x.2 (hfeasible.records ▸ List.mem_map_of_mem hx)
  have hlen := length_sources_ofLines lines
  have hplaces : (pv.placed.map fun p => ((p.position : Int), p.record)) =
      pv.places.map fun x => ((x.1 : Int), x.2) := by
    simp [PlacedVersion.places]
  refine ⟨hfeasible.records, hplaceable, fun r hmem => (hr r hmem).render_eq tag,
    woven lines (Sourced.ofLines lines).sources (Record.rendered tag) pv.places, ?_, ?_, ?_, ?_, ?_⟩
  · rw [hplaces]
    exact applyVersion_eq_woven hlen hplaceable fun x hx => (hrenderable x hx).render_eq tag
  · exact weave_eq_substitute (spaced_editsOf _ hplaceable 0 (Nat.zero_le _) fun _ _ => Nat.zero_le _)
  · exact (length_weave_congr hlen.symm (length_sourcesOf hplaceable hrenderable tag) 0).symm
  · exact sources_woven hplaceable hrenderable tag
  · exact fun line source => carries_woven hplaceable hrenderable

/-- A line to take out, and two lines for the place right behind it. -/
def sampleTouching : Version :=
  ⟨1, ⟨2024, 1, 1, 0, 0, 0, 0, none⟩,
    [{ targetPath := "a.c", kind := .deletion, stock := ["int a;"] },
     { targetPath := "a.c", kind := .addition, style := .singleLine, body := ["int x;"], anchor := 1 },
     { targetPath := "a.c", kind := .addition, style := .nextLine, body := ["int y;"], anchor := 1 }]⟩

theorem applyVersion_substitute_touching :
    ∃ pv : PlacedVersion ℚ,
      (⟨1 / 2, none, exactSimilarity⟩ : Matching ℚ).place ["int a;", "int b;"] sampleTouching = .ok pv ∧
      pv.places.map Prod.fst = [0, 1, 1] ∧ pv.places.map Prod.snd = sampleTouching.records ∧
      ∃ out, applyVersion sampleTag (.ofLines ["int a;", "int b;"])
          (pv.placed.map fun p => ((p.position : Int), p.record)) = .ok out ∧
        Substituted sampleTag ["int a;", "int b;"] pv.places out ∧
        out.lines = (["// Mod-: Begin", "// int a;", "// Mod: End", "int x; // Mod", "// Mod", "int y;",
          "int b;"] : List Text) := by
  have hfound : ((⟨1 / 2, none, exactSimilarity⟩ : Matching ℚ).place
      ["int a;", "int b;"] sampleTouching).toOption.map PlacedVersion.places =
        some ([0, 1, 1].zip sampleTouching.records) := by with_unfolding_all decide
  obtain ⟨pv, hpv, hplaces⟩ := Option.map_eq_some_iff.mp hfound
  obtain ⟨hrecords, -, -, out, happly, hout⟩ :=
    applyVersion_substitute sampleTag (by decide : ∀ r ∈ sampleTouching.records, r.IsRenderable)
      (eq_ok_of_toOption hpv)
  refine ⟨pv, eq_ok_of_toOption hpv, by rw [hplaces]; rfl, hrecords, out, happly, hout, ?_⟩
  rw [hout.lines_eq, hplaces]
  decide

end Regraft
