import Regraft.Proofs.Guard.Stock
import Regraft.Proofs.Record.Guards
import Regraft.Proofs.Splice.Weave
/-!
# Clearing undoes applying

Stock lines with recorded changes spliced in read as a layout (`placedLayout`): the stock between the changes, and
the guards of each. Its stock lines are the lines that the changes were spliced into, and its sources lead back
to them through the sources that splicing gave the lines.

* `reads_woven`: the spliced lines read as the layout;
* `stock_placedLayout`, `picks_placedLayout`: what clearing them finds, and where it comes from;
* `clearLines_applyVersion`: clearing undoes applying, and the two line maps compose to the identity.
-/
namespace Regraft

/-- Lines of a text, with a record for some places: each is made of guards of a file, stands where its stock is,
and the lines carry no guard themselves. -/
structure Applicable (q : CodePoint → Prop) (tag : Tag) (lines : List Text) (placed : List (Nat × Record)) :
    Prop where
  plain : ∀ l ∈ lines, OneLine l ∧ tag.Plain l
  recorded : ∀ x ∈ placed, ∃ g rest, Record.MadeOf q tag x.2 g rest
  placeable : Placeable lines placed

/-- The lines that a record is written in. -/
def Record.written (tag : Tag) (r : Record) : List Text := r.guards.flatMap (Guard.written tag)

/-- Stock lines with the guards of records in their places. -/
def placedLayout (lines : List Text) (cursor : Nat) (placed : List (Nat × Record)) : Layout :=
  weave (lines.map Piece.line) cursor (editsOf (fun x => x.2.guards.map Piece.guard) placed)

section
variable {q : CodePoint → Prop} {tag : Tag}

/-! ## One record -/

section
variable {r : Record} {g : Guard} {rest : List Guard}

theorem Record.MadeOf.stock_eq (h : r.MadeOf q tag g rest) :
    g.stock = match r.kind with
      | .addition => []
      | .deletion => r.stock := by
  cases hk : r.kind with
  | addition =>
    have hd : g.deletion = false := by
      have := h.deletion.not.mpr (by simp [hk])
      simpa using this
    simp [Guard.stock, hd]
  | deletion => exact (h.stock hk).symm

theorem Record.MadeOf.extent_eq (h : r.MadeOf q tag g rest) : r.extent = g.stock.length := by
  rw [h.stock_eq, Record.extent]
  cases r.kind <;> rfl

theorem Record.MadeOf.stock_rest (h : r.MadeOf q tag g rest) : rest.flatMap Guard.stock = [] := by
  rw [List.flatMap_eq_nil_iff]
  intro a ha
  simp [Guard.stock, (h.replaces a ha).1]

/-- The guards of a record take out its stock. -/
theorem Record.MadeOf.flatMap_stock (h : r.MadeOf q tag g rest) : r.guards.flatMap Guard.stock = g.stock := by
  rw [h.guards, List.flatMap_cons, h.fits.1.stock_recommented, h.stock_rest, List.append_nil]

theorem Record.MadeOf.take_drop {lines : List Text} {p : Nat} (h : r.MadeOf q tag g rest)
    (hx : Matching.extentFits lines p r = true) : (lines.drop p).take r.extent = g.stock := by
  rw [h.stock_eq]
  unfold Matching.extentFits at hx
  unfold Record.extent at hx ⊢
  cases hk : r.kind with
  | addition => simp
  | deletion => simpa [hk] using hx

/-- The guards of a record fit when its stock carries no guards. -/
theorem Record.MadeOf.guards_fit (h : r.MadeOf q tag g rest) (hp : ∀ l ∈ g.stock, tag.Plain l) :
    ∀ a ∈ r.guards, a.Fits tag := by
  rw [h.guards]
  intro a ha
  rcases List.mem_cons.mp ha with rfl | ha
  · exact h.fits.1.recommented hp
  · exact (h.replaces a ha).2.1

end

/-! ## The layout of spliced lines -/

section
variable {lines : List Text} {placed : List (Nat × Record)}

theorem Applicable.tail {x : Nat × Record} (h : Applicable q tag lines (x :: placed)) :
    Applicable q tag lines placed :=
  ⟨h.plain, fun y hy => h.recorded y (List.mem_cons_of_mem _ hy), h.placeable.apart.tail,
    fun y hy => h.placeable.inside y (List.mem_cons_of_mem _ hy),
    fun y hy => h.placeable.present y (List.mem_cons_of_mem _ hy)⟩

theorem Applicable.guards_fit (h : Applicable q tag lines placed) {x : Nat × Record} (hx : x ∈ placed) :
    ∀ a ∈ x.2.guards, a.Fits tag := by
  obtain ⟨g, rest, hm⟩ := h.recorded x hx
  refine hm.guards_fit fun l hl => (h.plain l ?_).2
  rw [← hm.take_drop (h.placeable.present x hx)] at hl
  exact List.mem_of_mem_drop (List.mem_of_mem_take hl)

theorem Applicable.render_eq (h : Applicable q tag lines placed) {x : Nat × Record} (hx : x ∈ placed) :
    x.2.render tag = .ok (x.2.written tag) :=
  Record.render_eq (h.guards_fit hx)

theorem Applicable.fits (h : Applicable q tag lines placed) (cursor : Nat) :
    ∀ p ∈ placedLayout lines cursor placed, p.Fits tag := by
  intro p hp
  rcases mem_weave hp with hp | ⟨e, he, hp⟩
  · obtain ⟨l, hl, rfl⟩ := List.mem_map.mp hp
    exact h.plain l hl
  · obtain ⟨x, hx, rfl⟩ := List.mem_map.mp he
    obtain ⟨a, ha, rfl⟩ := List.mem_map.mp hp
    exact h.guards_fit hx a ha

/-- What lines and guards become, the layout of spliced lines becomes. -/
theorem flatMap_placedLayout {f : Piece → List Text} (hf : ∀ t, f (.line t) = [t]) (lines : List Text)
    (placed : List (Nat × Record)) :
    (placedLayout lines 0 placed).flatMap f =
      weave lines 0 (editsOf (fun x => x.2.guards.flatMap fun g => f (.guard g)) placed) := by
  have hnew : ∀ x : Nat × Record, (x.2.guards.map Piece.guard).flatMap f = x.2.guards.flatMap fun g => f (.guard g) :=
    fun x => List.flatMap_map ..
  rw [placedLayout, flatMap_weave hf]
  simp only [editsOf, List.map_map, Function.comp_def, hnew]

/-- Lines with records spliced in read as the layout with the guards of the records. -/
theorem reads_woven (hid : tag.IsIdentifier) (h : Applicable q tag lines placed) :
    Reads tag (weave lines 0 (editsOf (fun x => x.2.written tag) placed)) (placedLayout lines 0 placed) := by
  have hwritten : (placedLayout lines 0 placed).written tag =
      weave lines 0 (editsOf (fun x => x.2.written tag) placed) := flatMap_placedLayout (fun _ => rfl) lines placed
  rw [← hwritten]
  exact reads_written hid (h.fits 0)

/-- The stock of the spliced lines is what they were spliced into. -/
theorem stock_placedLayout (h : Applicable q tag lines placed) : (placedLayout lines 0 placed).stock = lines := by
  have hspaced := spaced_editsOf (fun x => x.2.guards.flatMap Guard.stock) h.placeable 0 (Nat.zero_le _)
    fun _ _ => Nat.zero_le _
  have hsame : ∀ e ∈ editsOf (fun x => x.2.guards.flatMap Guard.stock) placed,
      e.new = (lines.drop e.position).take e.extent := by
    intro e he
    obtain ⟨x, hx, rfl⟩ := List.mem_map.mp he
    obtain ⟨g, rest, hm⟩ := h.recorded x hx
    exact hm.flatMap_stock.trans (hm.take_drop (h.placeable.present x hx)).symm
  have hweave := weave_eq_drop hspaced hsame
  rw [List.drop_zero] at hweave
  exact (flatMap_placedLayout (fun _ => rfl) lines placed).trans hweave

end

/-! ## Sources -/

/-- Elements at consecutive places. -/
theorem map_range'_getElem? {α : Type} (xs : List α) :
    ∀ before behind : List α, (List.range' before.length xs.length).map ((before ++ (xs ++ behind))[·]?) =
      xs.map some := by
  induction xs with
  | nil => intros; rfl
  | cons x xs ih =>
    intro before behind
    have := ih (before ++ [x]) behind
    simp only [List.append_assoc, List.singleton_append, List.length_append, List.length_singleton] at this
    simp only [List.length_cons, List.range'_succ, List.map_cons, List.cons_append, this]
    simp

variable {r : Record} {g : Guard} {rest : List Guard}

/-- A record that takes out stock keeps the sources of that stock behind the comment that opens its guard. -/
theorem Record.MadeOf.renderedSources_eq {σ : Type} (h : r.MadeOf q tag g rest) (hk : r.kind = .deletion)
    {known : List (Option σ)} (hlen : known.length = r.extent) :
    ∃ before behind, r.renderedSources known (r.written tag).length = before ++ (known ++ behind) ∧
      before.length = (if g.style = .singleLine then 0 else 1) ∧
      (before ++ (known ++ behind)).length = (r.written tag).length := by
  have hstock : g.stock.length = g.lines.length := by
    simp [Guard.stock, h.deletion.mpr hk]
  have hheight : g.height ≤ (r.written tag).length := by
    rw [Record.written, h.guards, List.flatMap_cons, List.length_append, Guard.length_written,
      Guard.height_recommented]
    exact Nat.le_add_right _ _
  rw [h.extent_eq, hstock] at hlen
  unfold Guard.height at hheight
  simp only [Record.renderedSources, hk, h.style]
  cases hs : g.style with
  | block =>
    refine ⟨[none], none :: List.replicate _ none, by simp; rfl, rfl, ?_⟩
    simp [hs] at hheight ⊢
    omega
  | singleLine =>
    refine ⟨[], List.replicate _ none, by simp; rfl, rfl, ?_⟩
    simp [hs] at hheight ⊢
    omega
  | nextLine =>
    refine ⟨[none], List.replicate _ none, by simp; rfl, rfl, ?_⟩
    simp [hs] at hheight ⊢
    omega

/-- The sources of a record's lines lead to its stock. -/
theorem Record.MadeOf.picks {σ : Type} (h : r.MadeOf q tag g rest) {known : List (Option σ)}
    (hlen : known.length = r.extent) (before behind : List (Option σ)) :
    (Layout.sourcesFrom before.length (r.guards.map Piece.guard)).map
        ((before ++ (r.renderedSources known (r.written tag).length ++ behind))[·]?) = known.map some ∧
      (r.renderedSources known (r.written tag).length).length = (r.written tag).length := by
  have hrest := Layout.sourcesFrom_map_guard fun a ha => (h.replaces a ha).1
  have hfirst : g.recommented.sources before.length =
      List.range' (if g.style = .singleLine then before.length else before.length + 1) r.extent := by
    rw [Guard.sources, h.fits.1.stock_recommented, h.extent_eq]
    rfl
  rw [h.guards, List.map_cons, Layout.sourcesFrom, hrest, List.append_nil, Piece.sources, hfirst]
  cases hk : r.kind with
  | addition =>
    have hext : r.extent = 0 := by simp [Record.extent, hk]
    obtain rfl : known = [] := List.eq_nil_of_length_eq_zero (hlen.trans hext)
    simp [hext, Record.renderedSources, hk]
  | deletion =>
    obtain ⟨front, back, heq, hfront, hcount⟩ := h.renderedSources_eq hk hlen
    rw [heq]
    refine ⟨?_, hcount⟩
    have hstart : (if g.style = .singleLine then before.length else before.length + 1) =
        (before ++ front).length := by
      rw [List.length_append, hfront]
      split <;> omega
    have := map_range'_getElem? known (before ++ front) (back ++ behind)
    rw [hstart, ← hlen]
    simpa only [List.append_assoc] using this

/-- The sources of the spliced lines lead to the sources of the lines that the records were spliced into. -/
theorem picks_placedLayout {σ : Type} {lines : List Text} {sources : List (Option σ)}
    (hlen : sources.length = lines.length) {placed : List (Nat × Record)} :
    ∀ {cursor : Nat}, Applicable q tag lines placed → cursor ≤ lines.length → (∀ x ∈ placed.head?, cursor ≤ x.1) →
      ∀ before : List (Option σ),
        (Layout.sourcesFrom before.length (placedLayout lines cursor placed)).map
            ((before ++ weave sources cursor (editsOf (sourcesOf sources (Record.written tag)) placed))[·]?) =
          (sources.drop cursor).map some := by
  induction placed with
  | nil =>
    intro cursor h hc _ before
    have hcount : (lines.drop cursor).length = (sources.drop cursor).length := by simp [hlen]
    have := map_range'_getElem? (sources.drop cursor) before []
    simp only [List.append_nil] at this
    simpa only [placedLayout, weave_nil, editsOf, List.map_nil, ← List.map_drop, Layout.sourcesFrom_map_line, hcount]
      using this
  | cons x placed ih =>
    intro cursor h hc hx before
    obtain ⟨g, rest, hm⟩ := h.recorded x List.mem_cons_self
    have hpresent := h.placeable.present x List.mem_cons_self
    have hle := add_extent_le (h.placeable.inside x List.mem_cons_self) hpresent
    have hnext : ∀ y ∈ placed.head?, x.1 + x.2.extent ≤ y.1 := by
      intro y hy
      cases placed with
      | nil => cases hy
      | cons z placed =>
        obtain rfl : z = y := by simpa using hy
        exact (List.isChain_cons_cons.mp h.placeable.apart).1
    have hcount : ((lines.take x.1).drop cursor).length = ((sources.take x.1).drop cursor).length := by simp [hlen]
    have hknown : ((sources.drop x.1).take x.2.extent).length = x.2.extent := by
      rw [List.length_take, List.length_drop, hlen]
      omega
    have hheight : (Layout.height (x.2.guards.map Piece.guard)) = (x.2.written tag).length := by
      rw [← Layout.length_written tag, Layout.written, List.flatMap_map]
      rfl
    have hfirst := map_range'_getElem? ((sources.take x.1).drop cursor) before
      (sourcesOf sources (Record.written tag) x ++ weave sources (x.1 + x.2.extent)
        (editsOf (sourcesOf sources (Record.written tag)) placed))
    obtain ⟨hsecond, hrendered⟩ := hm.picks hknown (before ++ (sources.take x.1).drop cursor)
      (weave sources (x.1 + x.2.extent) (editsOf (sourcesOf sources (Record.written tag)) placed))
    have hthird := ih h.tail hle hnext
      (before ++ (sources.take x.1).drop cursor ++ sourcesOf sources (Record.written tag) x)
    have hlayout : placedLayout lines cursor (x :: placed) =
        ((lines.take x.1).drop cursor).map Piece.line ++ (x.2.guards.map Piece.guard ++
          placedLayout lines (x.1 + x.2.extent) placed) := by
      simp only [placedLayout, editsOf, List.map_cons, weave_cons, List.append_assoc, List.map_take, List.map_drop]
    have hweave : weave sources cursor (editsOf (sourcesOf sources (Record.written tag)) (x :: placed)) =
        (sources.take x.1).drop cursor ++ (sourcesOf sources (Record.written tag) x ++
          weave sources (x.1 + x.2.extent) (editsOf (sourcesOf sources (Record.written tag)) placed)) := by
      simp only [editsOf, List.map_cons, weave_cons, List.append_assoc]
    rw [hlayout, hweave, Layout.sourcesFrom_append, Layout.sourcesFrom_append, Layout.height_map_line,
      Layout.sourcesFrom_map_line, hheight, List.map_append, List.map_append, hcount, hfirst]
    have hsources : x.2.renderedSources ((sources.drop x.1).take x.2.extent) (x.2.written tag).length =
        sourcesOf sources (Record.written tag) x := rfl
    rw [hsources] at hsecond hrendered
    simp only [List.length_append, List.append_assoc] at hsecond hthird
    rw [← hrendered, hsecond, Nat.add_assoc, hthird, ← List.map_append, ← List.map_append,
      take_drop_append_drop (hx x rfl)]

/-! ## Clearing what was applied -/

section
variable {σ : Type} {lines : List Text} {sources : List (Option σ)} {placed : List (Nat × Record)}

theorem Applicable.applyVersion_eq (h : Applicable q tag lines placed) (hlen : sources.length = lines.length) :
    applyVersion tag ⟨lines, sources⟩ (placed.map fun x => ((x.1 : Int), x.2)) =
      .ok (woven lines sources (Record.written tag) placed) :=
  applyVersion_eq_woven hlen h.placeable fun _ hx => h.render_eq hx

theorem Applicable.clearLines_eq (hid : tag.IsIdentifier) (h : Applicable q tag lines placed) :
    clearLines tag (woven lines sources (Record.written tag) placed).lines =
      .ok ⟨lines, ((placedLayout lines 0 placed).sourcesFrom 0).map some⟩ := by
  rw [woven, clearLines_of_reads (reads_woven hid h), stock_placedLayout h]

theorem Applicable.picks (h : Applicable q tag lines placed) (hlen : sources.length = lines.length) :
    ((placedLayout lines 0 placed).sourcesFrom 0).map
      ((woven lines sources (Record.written tag) placed).sources[·]?) = sources.map some := by
  simpa [woven] using picks_placedLayout hlen h (Nat.zero_le _) (fun _ _ => Nat.zero_le _) []

/-- Line by line, the sources of the cleared lines lead to lines whose sources they are. -/
theorem Applicable.origins (h : Applicable q tag lines placed) :
    ((placedLayout lines 0 placed).sourcesFrom 0).length = lines.length ∧
      ∀ i j : Nat, ((placedLayout lines 0 placed).sourcesFrom 0)[i]? = some j →
        (woven lines ((List.range lines.length).map some) (Record.written tag) placed).sources[j]? =
          some (some i) := by
  have hlen : ((List.range lines.length).map some).length = lines.length := by simp
  have hpicks := h.picks hlen
  have hcount := congrArg List.length hpicks
  simp only [List.length_map, List.length_range] at hcount
  refine ⟨hcount, fun i j hj => ?_⟩
  have hi : i < lines.length := hcount ▸ (List.getElem?_eq_some_iff.mp hj).1
  have hget := congrArg (·[i]?) hpicks
  simpa [hj, List.getElem?_range hi] using hget

/-- Recorded changes that can be placed in lines without guards are applicable. -/
theorem applicable_of_recorded (hid : tag.IsIdentifier) (hq : ∀ c, q c → c ≠ char '\n')
    (hl : ∀ l ∈ lines, OneLine l) (hplain : Segment.parse tag lines = .ok [])
    (hr : ∀ x ∈ placed, Recorded q tag x.2) (hp : Placeable lines placed) : Applicable q tag lines placed :=
  ⟨fun l hmem => ⟨hl l hmem, plain_of_parse hid hl hplain l hmem⟩, fun x hx => exists_madeOf hid hq (hr x hx), hp⟩

end

/-- Recorded changes, spliced into lines without guards at places that are apart and where the deleted stock
stands, are cleared again: the lines are back, and the line that each comes from has it as its source. -/
theorem clearLines_applyVersion (hid : tag.IsIdentifier) {lines : List Text} (hl : ∀ l ∈ lines, OneLine l)
    (hplain : Segment.parse tag lines = .ok []) {placed : List (Nat × Record)}
    (hr : ∀ x ∈ placed, Recorded (fun c => c ≠ char '\n') tag x.2) (hp : Placeable lines placed) :
    ∃ (patched : Sourced Nat) (origins : List Nat),
      applyVersion tag ⟨lines, (List.range lines.length).map some⟩ (placed.map fun x => ((x.1 : Int), x.2)) =
        .ok patched ∧
      clearLines tag patched.lines = .ok ⟨lines, origins.map some⟩ ∧ origins.length = lines.length ∧
      ∀ i < lines.length, ∃ j, origins[i]? = some j ∧ patched.sources[j]? = some (some i) := by
  have h := applicable_of_recorded hid (fun _ hc => hc) hl hplain hr hp
  have hlen : ((List.range lines.length).map some).length = lines.length := by simp
  obtain ⟨hcount, hback⟩ := h.origins
  refine ⟨_, (placedLayout lines 0 placed).sourcesFrom 0, h.applyVersion_eq hlen, h.clearLines_eq hid, hcount, ?_⟩
  intro i hi
  have hj := List.getElem?_eq_getElem (hcount ▸ hi)
  exact ⟨_, hj, hback i _ hj⟩

end

/-! ## A file with two changes -/

/-- The tag of the sample. -/
def sampleTag : Tag := ⟨"Mod", by decide, by decide⟩

/-- A line that another one replaces, and a guarded line right behind it. -/
def sampleFile : List Text :=
  ["int a;", "  // Mod- old: Begin", "  //int b;", "  // Mod: End", "int x; // Mod", "// Mod: new", "int y;"]

/-- The lines of the sample without the changes. -/
def sampleStock : List Text := ["int a;", "  int b;"]

/-- The segments of the sample. -/
def sampleSegments : List Segment := ((Segment.parse sampleTag sampleFile).toOption).getD []

/-- The changes of the sample at their places. -/
def samplePlaced : List (Nat × Record) := [1, 2].zip (buildRecords sampleFile sampleSegments "a.c" 1)

theorem recorded_samplePlaced : ∀ x ∈ samplePlaced, Recorded (fun c => c ≠ char '\n') sampleTag x.2 := by
  intro x hx
  refine ⟨sampleFile, sampleSegments, "a.c", 1, x.2.order, by decide, by decide, x.2, ?_, rfl⟩
  exact (List.of_mem_zip hx).2

theorem clearLines_applyVersion_sample :
    sampleTag.IsIdentifier ∧ Segment.parse sampleTag sampleStock = .ok [] ∧ Placeable sampleStock samplePlaced ∧
      ∃ (patched : Sourced Nat) (origins : List Nat),
        applyVersion sampleTag ⟨sampleStock, (List.range sampleStock.length).map some⟩
          (samplePlaced.map fun x => ((x.1 : Int), x.2)) = .ok patched ∧
        clearLines sampleTag patched.lines = .ok ⟨sampleStock, origins.map some⟩ ∧
        origins.length = sampleStock.length ∧
        ∀ i < sampleStock.length, ∃ j, origins[i]? = some j ∧ patched.sources[j]? = some (some i) := by
  have hid : sampleTag.IsIdentifier := by unfold Tag.IsIdentifier; decide
  have hplain : Segment.parse sampleTag sampleStock = .ok [] := by decide
  have hl : ∀ l ∈ sampleStock, OneLine l := by unfold OneLine; decide
  have hp : Placeable sampleStock samplePlaced := ⟨by unfold Apart; decide, by decide, by decide⟩
  exact ⟨hid, hplain, hp, clearLines_applyVersion hid hl hplain recorded_samplePlaced hp⟩

end Regraft
