import Regraft.Conflict
import Regraft.Proofs.Splice.Sources
import Regraft.Proofs.Text.Boundaries
/-!
# The lines around a conflict

A record that finds no place is reported with the place that came closest, which counts the stock lines that were
searched. The report has the text of these lines and not the lines, and it splits the text at more boundaries than there
are line ends. The lines that it shows are those around the place exactly where the text splits into the stock lines.

* `Matching.position_le_of_place`: a near miss is a place of the lines that were searched;
* `Conflict.exists_stock`: where a conflict comes from, and what its text is;
* `Conflict.actualLines_window`: when the lines that are shown are those around the place;
* `Conflict.actualLines_shifted`: lines that are not, behind a form feed and in front of the file.
-/
namespace Regraft

/-! ## Near misses -/

section
variable {α : Type} [Scale α] {m : Matching α} {lines : List Text} {u : Unplaced α}

namespace Matching

theorem best_of_chainsFrom {rs : List Record} :
    ∀ {chains : List (Chain α)} {extent : Nat}, m.chainsFrom lines chains extent rs = .error u →
      u.best = (m.candidates lines u.record).head? := by
  induction rs with
  | nil =>
    intro chains extent h
    cases h
  | cons r rs ih =>
    intro chains extent h
    unfold chainsFrom at h
    split at h
    · obtain rfl := Except.error.inj h
      rfl
    · exact ih h

/-- The best candidate of a record that finds no place is one of all its candidates. -/
theorem best_of_place {v : Version} (h : m.place lines v = .error u) :
    u.best = (m.candidates lines u.record).head? := by
  have hchains : m.chains lines v.records = .error u :=
    (bind_eq_error.mp h).resolve_right fun ⟨_, _, hreturn⟩ => by cases hreturn
  unfold chains at hchains
  split at hchains
  · cases hchains
  · split at hchains
    · obtain rfl := Except.error.inj hchains
      rfl
    · exact best_of_chainsFrom hchains

/-- A near miss is a place of the lines that were searched. -/
theorem position_le_of_place {v : Version} (h : m.place lines v = .error u) {c : Candidate α} (hc : u.best = some c) :
    c.position ≤ lines.length := by
  have hmem := List.mem_of_mem_head? (best_of_place h ▸ hc)
  obtain ⟨p, hp, hcandidate⟩ := List.mem_filterMap.mp (List.mem_mergeSort.mp hmem)
  rw [(candidate?_eq_some.mp hcandidate).2.1]
  exact Nat.le_of_lt_succ (List.mem_range.mp hp)

/-- A record whose stock is nowhere has no candidates. -/
theorem candidatesInOrder_eq_nil {r : Record} (h : ∀ p ≤ lines.length, extentFits lines p r = false) :
    m.candidatesInOrder lines r = [] := by
  refine List.filterMap_eq_nil_iff.mpr fun p hp => ?_
  have hscore : m.score lines p r = none := by
    simp [score, h p (Nat.le_of_lt_succ (List.mem_range.mp hp))]
  simp [candidate?, hscore]

/-- A version whose first stock is nowhere has no place, and no near miss. -/
theorem place_of_absent {v : Version} {r : Record} {rest : List Record} (hr : v.records = r :: rest)
    (h : ∀ p ≤ lines.length, extentFits lines p r = false) : m.place lines v = .error ⟨r, none⟩ := by
  have hnone := candidatesInOrder_eq_nil (m := m) h
  simp [place, hr, chains, qualifying, candidates, hnone, bind, Except.bind]

end Matching

/-- A conflict is about a record that finds no place in the lines that were searched, and has the text it was given. -/
theorem Matching.exists_of_conflict {versions : VersionSet} {text : Text} {report : Conflict α}
    (h : m.select lines versions text = .error (.conflict report)) :
    report.targetText = text ∧ ∃ v u, m.place lines v = .error u ∧ report.nearMiss = u.best.map Candidate.nearMiss := by
  obtain ⟨v, -, u, -, hplace, rfl⟩ := unplaced_of_conflict h
  exact ⟨rfl, v, u, hplace, rfl⟩

end

/-! ## Windows -/

namespace Record

/-- The lines that a record reaches when it stands at a place, and so many more on either side. -/
def window (r : Record) (lines : List Text) (centre radius : Int) : List Text :=
  span lines (max (centre - r.preceding.length - radius) 0).toNat
    (min (centre + r.stock.length + r.following.length + radius) lines.length).toNat

/-- A window that is wide enough is all of the lines. -/
theorem window_eq_self (r : Record) {lines : List Text} {centre radius : Int} (hstart : centre ≤ radius)
    (hstop : lines.length ≤ centre + radius) : r.window lines centre radius = lines := by
  have hfirst : (max (centre - r.preceding.length - radius) 0).toNat = 0 := by omega
  have hlast : (min (centre + r.stock.length + r.following.length + radius) lines.length).toNat = lines.length := by
    omega
  rw [window, hfirst, hlast, span, List.take_length, List.drop_zero]

end Record

namespace Conflict

variable {α : Type}

/-- The place that a conflict among so many lines is about: the near miss, or else the recorded anchor. -/
def centre (c : Conflict α) (count : Nat) : Int :=
  match c.nearMiss with
  | some miss => miss.position
  | none => min c.record.anchor count

/-- The window does not end in front of the lines. -/
def Reaches (c : Conflict α) (count : Nat) (radius : Int) : Prop :=
  0 ≤ c.centre count + c.record.stock.length + c.record.following.length + radius

/-- The lines that are shown are a window in those of the text, unless it ends in front of them. -/
theorem actualLines_eq (c : Conflict α) {radius : Int} (h : c.Reaches (splitLines c.targetText).length radius) :
    c.actualLines radius =
      c.record.window (splitLines c.targetText) (c.centre (splitLines c.targetText).length) radius := by
  have hshown : c.actualLines radius = slice (splitLines c.targetText)
      (max (c.centre (splitLines c.targetText).length - c.record.preceding.length - radius) 0).toNat
      (min (c.centre (splitLines c.targetText).length + c.record.stock.length + c.record.following.length + radius)
        (splitLines c.targetText).length) := rfl
  unfold Reaches at h
  rw [hshown, slice, if_neg (by omega)]
  rfl

/-- What is shown at every radius is told by all that is shown. -/
theorem window_iff (c : Conflict α) (lines : List Text) :
    (∀ radius : Int, 0 ≤ radius → c.Reaches lines.length radius →
        c.actualLines radius = c.record.window lines (c.centre lines.length) radius) ↔
      splitLines c.targetText = lines := by
  constructor
  · intro h
    let wide : Int := (c.centre lines.length).natAbs + (c.centre (splitLines c.targetText).length).natAbs +
      lines.length + (splitLines c.targetText).length
    have hwide := h wide (by omega) (by unfold Reaches; omega)
    rwa [c.actualLines_eq (by unfold Reaches; omega), Record.window_eq_self _ (by omega) (by omega),
      Record.window_eq_self _ (by omega) (by omega)] at hwide
  · rintro rfl radius - hreaches
    exact c.actualLines_eq hreaches

/-- For every text to which versions are not applied for a conflict, the report is about the stock lines that were
searched, and a near miss is a place of them. At every radius, the lines that are shown are those around the near miss,
or around the recorded anchor if there is none, up to a window that ends in front of the file, if and only if no stock
line holds a boundary of plain text, and the last one is not a blank line of a text that ends without a line end. -/
theorem actualLines_window {tag : Tag} {m : Matching Float} {versions : VersionSet} {before : Text}
    {report : Conflict Float} (h : appliedContent tag m versions before = .error (.select (.conflict report))) :
    ∃ stock, clearLines tag (Buffer.ofText before).lines = .ok stock ∧
      m.select stock.lines versions report.targetText = .error (.conflict report) ∧
      (∀ miss, report.nearMiss = some miss → 0 ≤ miss.position ∧ miss.position ≤ stock.lines.length) ∧
      ((∀ radius : Int, 0 ≤ radius → report.Reaches stock.lines.length radius →
          report.actualLines radius = report.record.window stock.lines (report.centre stock.lines.length) radius) ↔
        (∀ l ∈ stock.lines, ∀ c ∈ l, isLineBreak c = false) ∧
          ((Buffer.ofText before).endsWithNewline = true ∨ stock.lines.getLast? ≠ some [])) := by
  obtain ⟨stock, target, hclear, htarget, hselect⟩ := select_of_appliedContent h
  obtain ⟨htext, v, u, hplace, hmiss⟩ := Matching.exists_of_conflict hselect
  have hwithin := (within_clearLines hclear).1
  rw [Buffer.lines, List.length_map] at hwithin
  obtain rfl := Except.ok.inj ((Buffer.withLines_eq hwithin.length hwithin.sources).symm.trans htarget)
  refine ⟨stock, hclear, htext ▸ hselect, fun miss hfound => ?_, ?_⟩
  · obtain ⟨c, hbest, rfl⟩ := Option.map_eq_some_iff.mp (hmiss.symm.trans hfound)
    have hle := Matching.position_le_of_place hplace hbest
    simp only [Candidate.nearMiss]
    omega
  · rw [window_iff, htext, Buffer.render, ← Buffer.shows_sourcedRows hwithin.length,
      ← splitLines_flatMap_render (Buffer.openAtEnd_sourcedRows _ _), Buffer.map_line_sourcedRows hwithin.length]

/-- A text whose one version takes out a line that is nowhere is reported without a near miss. -/
theorem appliedContent_of_absent {tag : Tag} {m : Matching Float} {path before : Text} {v : Version} {r : Record}
    {rest : List Record} {stock : Sourced Nat} {target : Buffer} (hr : v.records = r :: rest)
    (hclear : clearLines tag (Buffer.ofText before).lines = .ok stock)
    (htarget : (Buffer.ofText before).withLines stock.lines stock.sources = .ok target)
    (hscale : m.meetsOffScale stock.lines v.records = false)
    (habsent : ∀ p ≤ stock.lines.length, Matching.extentFits stock.lines p r = false) :
    appliedContent tag m ⟨path, [v]⟩ before =
      .error (.select (.conflict ⟨path, target.render, r, r.order, m.requiredScore, none⟩)) := by
  have hplace : m.place stock.lines v = .error ⟨r, none⟩ := Matching.place_of_absent hr habsent
  have hselect := Matching.select_of_unplaced path target.render hscale hplace
  simp only [appliedContent, hclear, htarget, hselect, Option.map_none, Except.mapError, bind, Except.bind]

/-- A line that is to be taken out at a recorded place. -/
def sampleRemoval (anchor : Int) : Record := { targetPath := "a.c", kind := .deletion, stock := ["gone;"], anchor }

/-- The one version that takes it out. -/
def sampleRemovals (anchor : Int) : VersionSet :=
  ⟨"a.c", [⟨1, ⟨2024, 5, 1, 12, 0, 0, 0, none⟩, [sampleRemoval anchor]⟩]⟩

/-- How it is looked for. -/
def sampleMatching : Matching Float := ⟨0.5, none, exactSimilarity⟩

/-- The report on a text in which it is nowhere. -/
def sampleReport (anchor : Int) (text : Text) : Conflict Float :=
  ⟨"a.c", text, sampleRemoval anchor, 0, sampleMatching.requiredScore, none⟩

theorem appliedContent_sampleRemovals {before target : Text} {anchor : Int} (stock : Sourced Nat)
    (hclear : clearLines sampleTag (Buffer.ofText before).lines = .ok stock)
    (htarget : ((Buffer.ofText before).withLines stock.lines stock.sources).map Buffer.render = .ok target)
    (hscale : sampleMatching.meetsOffScale stock.lines [sampleRemoval anchor] = false)
    (habsent : ∀ p ≤ stock.lines.length, Matching.extentFits stock.lines p (sampleRemoval anchor) = false) :
    appliedContent sampleTag sampleMatching (sampleRemovals anchor) before =
      .error (.select (.conflict (sampleReport anchor target))) := by
  cases hbuffer : (Buffer.ofText before).withLines stock.lines stock.sources with
  | error e =>
    rw [hbuffer] at htarget
    cases htarget
  | ok buffer =>
    rw [hbuffer] at htarget
    obtain rfl := Except.ok.inj htarget
    exact appliedContent_of_absent rfl hclear hbuffer hscale habsent

theorem actualLines_window_sample :
    let before : Text := "a;\nb; // Mod\nc;\n"
    let report := sampleReport 1 "a;\nc;\n"
    appliedContent sampleTag sampleMatching (sampleRemovals 1) before = .error (.select (.conflict report)) ∧
      ∀ radius : Int, 0 ≤ radius → report.actualLines radius = report.record.window ["a;", "c;"] 1 radius := by
  intro before report
  have hcleared : clearLines sampleTag (Buffer.ofText before).lines = .ok ⟨["a;", "c;"], [some 0, some 2]⟩ := by decide
  have h : appliedContent sampleTag sampleMatching (sampleRemovals 1) before = .error (.select (.conflict report)) :=
    appliedContent_sampleRemovals _ hcleared (by decide) (by decide) (by decide)
  obtain ⟨stock, hclear, -, -, hiff⟩ := actualLines_window h
  obtain rfl := Except.ok.inj (hcleared.symm.trans hclear)
  refine ⟨h, fun radius hradius => hiff.mpr ⟨by decide, .inl rfl⟩ radius hradius ?_⟩
  exact Int.add_nonneg (show (0 : Int) ≤ 2 by decide) hradius

/-- A form feed in a line shifts the lines behind it. And a recorded place in front of the file shows lines from the
start of the file, where the window is empty: the end of what is shown is counted from the end of the file. -/
theorem actualLines_shifted :
    let split : Text := "a;\x0cb;\nc;\n"
    let plain : Text := "a;\nb;\nc;\n"
    (appliedContent sampleTag sampleMatching (sampleRemovals 1) split =
        .error (.select (.conflict (sampleReport 1 split))) ∧
      clearLines sampleTag (Buffer.ofText split).lines = .ok ⟨["a;\x0cb;", "c;"], [some 0, some 1]⟩ ∧
      (sampleReport 1 split).actualLines 0 = ["b;"] ∧
      (sampleRemoval 1).window ["a;\x0cb;", "c;"] ((sampleReport 1 split).centre 2) 0 = ["c;"]) ∧
    appliedContent sampleTag sampleMatching (sampleRemovals (-2)) plain =
        .error (.select (.conflict (sampleReport (-2) plain))) ∧
      clearLines sampleTag (Buffer.ofText plain).lines = .ok ⟨["a;", "b;", "c;"], [some 0, some 1, some 2]⟩ ∧
      (sampleReport (-2) plain).actualLines 0 = ["a;", "b;"] ∧
      (sampleRemoval (-2)).window ["a;", "b;", "c;"] ((sampleReport (-2) plain).centre 3) 0 = [] := by
  intro split plain
  have hsplit : clearLines sampleTag (Buffer.ofText split).lines = .ok ⟨["a;\x0cb;", "c;"], [some 0, some 1]⟩ := by
    decide
  have hplain : clearLines sampleTag (Buffer.ofText plain).lines =
      .ok ⟨["a;", "b;", "c;"], [some 0, some 1, some 2]⟩ := by
    decide
  exact ⟨⟨appliedContent_sampleRemovals _ hsplit (by decide) (by decide) (by decide), hsplit, by decide, by decide⟩,
    appliedContent_sampleRemovals _ hplain (by decide) (by decide) (by decide), hplain, by decide, by decide⟩

end Conflict

end Regraft
