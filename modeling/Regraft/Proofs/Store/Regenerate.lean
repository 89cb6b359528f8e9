import Regraft.Proofs.Match.Choice
import Regraft.Proofs.Record.Anchors
import Regraft.Proofs.Splice.Clear
import Regraft.Proofs.Store.History
import Regraft.Proofs.Store.Numbering
import Regraft.Proofs.Text.Buffer
/-!
# Generating again

Generating stores nothing for a text whose changes are stored already. What a selection then takes for the stock lines
of the text scores 1, for these changes do, and it is the version with these changes unless a newer version scores as
much there (`Store.select_found`). Such a version may have other changes (`Store.select_newer`).

* `Store.generate_cases`: what generating comes to;
* `Numbered.generateAll`: a history of it keeps the numbers of all files;
* `Store.select_found`: what is selected when nothing had to be stored.
-/
namespace Regraft

/-! ## Texts -/

/-- A text is not so long that a reader of JSON would not take the number of a line. -/
def Text.IsCountable (t : Text) : Prop := t.length < 10 ^ longestInteger

theorem Text.IsCountable.isShort {t : Text} (h : t.IsCountable) {n : Nat} (hn : n ≤ (Buffer.ofText t).lines.length) :
    IsShort n := by
  have hrows := Buffer.length_rowsOf_le t
  rw [Buffer.lines, List.length_map] at hn
  have hlt : n < 10 ^ longestInteger := lt_of_le_of_lt (hn.trans hrows) h
  rw [IsShort, Int.natAbs_natCast, showNat, Text.ofChars, List.length_map]
  exact (Nat.length_toDigits_le_iff (by omega) (by decide)).mpr hlt

theorem hasShortNumbers_buildRecords {t : Text} (ht : t.IsCountable) {tag : Tag} {segments : List Segment}
    (h : Segment.parse tag (Buffer.ofText t).lines = .ok segments) (path : Text) (context : Nat) :
    ∀ r ∈ buildRecords (Buffer.ofText t).lines segments path context, r.HasShortNumbers := by
  intro r hr
  obtain ⟨⟨n, hn, hanchor⟩, hblanks⟩ := numbers_buildRecords h path context r hr
  refine ⟨fun i hi => ?_, ?_⟩
  · obtain ⟨k, hk, rfl⟩ := hblanks i hi
    exact ht.isShort hk
  · rw [hanchor]
    exact ht.isShort hn

/-- One call: what the clock shows, and what is generated from. -/
structure Generation where
  clock : Moment
  tag : Tag
  context : Int
  text : Text
  target : Text

/-- A call at a moment that can be written, for a text whose lines can be counted. -/
structure Generation.IsAdmissible (c : Generation) : Prop where
  clock : c.clock.IsUniversal
  text : c.text.IsCountable

namespace Store

variable {s : Store} {base : Location} {w w' : World} {tag : Tag} {context : Int} {text target : Text}

/-! ## One call -/

/-- A text has segments that can be recorded, next to the stored versions of its target. -/
structure Recordable (s : Store) (w : World) (tag : Tag) (context : Int) (text target key : Text)
    (segments : List Segment) (vs : VersionSet) : Prop where
  normalised : keyOf target = .ok key
  parsed : Segment.parse tag (Buffer.ofText text).lines = .ok segments
  guarded : segments ≠ []
  window : 0 ≤ context
  loaded : (s.load key).outcome w = (.ok vs, w)

/-- Generating changes nothing, or it comes to an append of the records of the text. If nothing is stored, but there
are records, a stored version has them. -/
theorem generate_cases {r : Except Fault Generated}
    (h : (s.generate tag context text target).outcome w = (r, w')) :
    (w' = w ∧ ∀ g, r = .ok g → g.records = [] ∨
        ∃ key segments vs found, s.Recordable w tag context text target key segments vs ∧
          vs.findIdentical? (buildRecords (Buffer.ofText text).lines segments key context.toNat) = some found ∧
            g = ⟨key, found.records, none⟩) ∨
      ∃ key segments vs result, s.Recordable w tag context text target key segments vs ∧
        (s.append key (buildRecords (Buffer.ofText text).lines segments key context.toNat)).outcome w = (result, w') ∧
          ∀ g, r = .ok g → g.stored.isSome := by
  unfold generate at h
  rcases Attempt.bind_ofExcept_cases h with ⟨e, -, rfl, rfl⟩ | ⟨key, hkey, h⟩
  · exact .inl ⟨rfl, by simp⟩
  rcases Attempt.bind_ofExcept_cases h with ⟨e, -, rfl, rfl⟩ | ⟨segments, hsegments, h⟩
  · exact .inl ⟨rfl, by simp⟩
  cases hempty : segments.isEmpty with
  | true =>
    simp only [hempty, if_true] at h
    obtain ⟨rfl, rfl⟩ := Prod.mk.inj h
    exact .inl ⟨rfl, fun g hg => .inl (Except.ok.inj hg ▸ rfl)⟩
  | false =>
    simp only [hempty, Bool.false_eq_true, if_false] at h
    rcases Attempt.bind_ofExcept_cases h with ⟨e, -, rfl, rfl⟩ | ⟨size, hcontext, h⟩
    · exact .inl ⟨rfl, by simp⟩
    obtain ⟨hwindow, rfl⟩ : 0 ≤ context ∧ context.toNat = size := by
      unfold checkContext at hcontext
      split at hcontext
      · cases hcontext
      · exact ⟨by omega, Except.ok.inj hcontext⟩
    rcases Attempt.bind_cases h with ⟨fault, hload, rfl⟩ | ⟨vs, w₁, hload, hrest⟩
    · exact .inl ⟨load_unchanged hload, by simp⟩
    obtain rfl := load_unchanged hload
    have hrecordable : s.Recordable w₁ tag context text target key segments vs :=
      ⟨hkey, hsegments, by simpa using hempty, hwindow, hload⟩
    cases hfound : vs.findIdentical? (buildRecords (Buffer.ofText text).lines segments key context.toNat) with
    | some found =>
      simp only [hfound] at hrest
      obtain ⟨rfl, rfl⟩ := Prod.mk.inj hrest
      exact .inl ⟨rfl, fun g hg => .inr ⟨key, segments, vs, found, hrecordable, hfound, (Except.ok.inj hg).symm⟩⟩
    | none =>
      simp only [hfound] at hrest
      rcases Attempt.bind_cases hrest with ⟨fault, happend, rfl⟩ | ⟨stored, w₂, happend, hend⟩
      · exact .inr ⟨key, segments, vs, _, hrecordable, happend, by simp⟩
      · obtain ⟨rfl, rfl⟩ := Prod.mk.inj hend
        exact .inr ⟨key, segments, vs, _, hrecordable, happend, fun g hg => Except.ok.inj hg ▸ rfl⟩

/-- Generating from guarded lines looks for a version with their records, and appends one if there is none. -/
theorem outcome_generate {key : Text} {segments : List Segment} (hkey : keyOf target = .ok key)
    (hparse : Segment.parse tag (Buffer.ofText text).lines = .ok segments) (hguarded : segments ≠ [])
    (hwindow : 0 ≤ context) (w : World) :
    (s.generate tag context text target).outcome w = Attempt.outcome (s.load key >>= fun vs =>
      match vs.findIdentical? (buildRecords (Buffer.ofText text).lines segments key context.toNat) with
      | some found => pure ⟨key, found.records, none⟩
      | none => s.append key (buildRecords (Buffer.ofText text).lines segments key context.toNat) >>= fun stored =>
        pure ⟨key, stored.version.records, some stored⟩) w := by
  have hcontext : checkContext context = .ok context.toNat := by
    rw [checkContext, if_neg (Int.not_lt.mpr hwindow)]
  have hsome : segments.isEmpty = false := by
    simpa using hguarded
  refine (Attempt.outcome_bind (Attempt.outcome_ofExcept .key hkey w) _).trans ?_
  refine (Attempt.outcome_bind (Attempt.outcome_ofExcept .malformed hparse w) _).trans ?_
  simp only [hsome, Bool.false_eq_true, if_false]
  exact Attempt.outcome_bind (Attempt.outcome_ofExcept .context hcontext w) _

/-- Nothing is stored for a text whose changes a version has. -/
theorem generate_found {key : Text} {segments : List Segment} {vs : VersionSet} {found : Version}
    (h : s.Recordable w tag context text target key segments vs)
    (hfind : vs.findIdentical? (buildRecords (Buffer.ofText text).lines segments key context.toNat) = some found) :
    (s.generate tag context text target).outcome w = (.ok ⟨key, found.records, none⟩, w) := by
  rw [outcome_generate h.normalised h.parsed h.guarded h.window, Attempt.outcome_bind h.loaded]
  simp only [hfind]
  rfl

/-- A text whose changes no version has is recorded in one that is appended. -/
theorem generate_new {key : Text} {segments : List Segment} {vs : VersionSet}
    (h : s.Recordable w tag context text target key segments vs)
    (hfind : vs.findIdentical? (buildRecords (Buffer.ofText text).lines segments key context.toNat) = none) :
    (s.generate tag context text target).outcome w =
      Attempt.outcome (s.append key (buildRecords (Buffer.ofText text).lines segments key context.toNat) >>= fun stored =>
        pure (⟨key, stored.version.records, some stored⟩ : Generated)) w := by
  rw [outcome_generate h.normalised h.parsed h.guarded h.window, Attempt.outcome_bind h.loaded]
  simp only [hfind]

/-! ## Histories -/

/-- The world behind calls, one after the other. A failed one does not stop the others. -/
def generateAll (s : Store) : List Generation → World → World
  | [], w => w
  | c :: cs, w => s.generateAll cs ((s.generate c.tag c.context c.text c.target).outcome { w with clock := c.clock }).2

theorem Vacant.numbered (h : s.Vacant base w) : s.Numbered base w := by
  refine ⟨h.root, by rw [h.empty]; exact List.nodup_nil, fun d hd _ names hnames => ?_⟩
  rw [List.filterMap_eq_nil_iff.mp h.empty d hd] at hnames
  cases hnames

theorem Numbered.setClock (h : s.Numbered base w) (clock : Moment) : s.Numbered base { w with clock } :=
  ⟨h.root, h.distinct, h.files⟩

/-- One call keeps the numbers of all files. -/
theorem Numbered.generate (h : s.Numbered base w) (hlive : s.sandbox.root = none) (hclock : w.clock.IsUniversal)
    (htext : text.IsCountable) {r : Except Fault Generated}
    (hout : (s.generate tag context text target).outcome w = (r, w')) : s.Numbered base w' := by
  rcases generate_cases hout with ⟨rfl, -⟩ | ⟨key, segments, vs, result, hrecordable, happend, -⟩
  · exact h
  · exact h.append hlive hclock (hasShortNumbers_buildRecords htext hrecordable.parsed key _) happend

/-- The whole history keeps them. -/
theorem Numbered.generateAll (hlive : s.sandbox.root = none) {calls : List Generation} :
    ∀ {w : World}, s.Numbered base w → (∀ c ∈ calls, c.IsAdmissible) → s.Numbered base (s.generateAll calls w) := by
  induction calls with
  | nil => exact fun h _ => h
  | cons c calls ih =>
    intro w h hcalls
    obtain ⟨hc, hothers⟩ := List.forall_mem_cons.mp hcalls
    exact ih ((h.setClock c.clock).generate hlive hc.clock hc.text rfl) hothers

end Store

/-! ## Selecting -/

/-- A version that is found is stored, and has the changes that were looked for. -/
theorem VersionSet.identical_of_find {vs : VersionSet} {records : List Record} {v : Version}
    (h : vs.findIdentical? records = some v) : v ∈ vs.versions ∧ v.identities = records.map Record.identity := by
  have hsame := List.find?_some h
  exact ⟨List.mem_of_find?_eq_some h, by simpa using hsame⟩

/-- The matching that is used unless another one is asked for, on exact numbers: half of the context may disagree, and
records may drift as far as they like. -/
def Matching.usual : Matching ℚ := ⟨1 / 2, none, exactSimilarity⟩

theorem Matching.admissible_usual : Matching.usual.Admissible :=
  ⟨measure_exact, by norm_num [Matching.usual], by simp [Matching.usual]⟩

/-- A version with the changes of a text scores 1 for its stock lines, so the selected one does. It is this version, if
the orders of all are different, or a newer one. -/
theorem Matching.select_identical {m : Matching ℚ} (hm : m.Admissible) (hline : m.lineTolerance = none) {tag : Tag}
    {lines : List Text} {segments : List Segment} (hparse : Segment.parse tag lines = .ok segments) {path : Text}
    {context : Nat} {vs : VersionSet} {found : Version} (hdistinct : (vs.versions.map Version.order).Nodup)
    (hfound : found ∈ vs.versions)
    (hsame : found.identities = (buildRecords lines segments path context).map Record.identity) (shown : Text) :
    ∃ best, m.select (stockLines lines segments) vs shown = .ok best ∧ best.score = 1 ∧
      (best.version = found ∨ found.order < best.version.order) ∧
      ∀ v ∈ vs.versions, ∀ pv, m.place (stockLines lines segments) v = .ok pv → pv.score = 1 →
        v.order ≤ best.version.order := by
  obtain ⟨hanchored, hapart⟩ := anchored_buildRecords (spread_of_parse hparse).1 path context
  obtain ⟨pv, hplace, hversion, hone⟩ := place_alike hm hline hanchored hapart hsame
  obtain ⟨best, hbest⟩ := exists_select_iff.mpr ⟨found, hfound, pv, hplace⟩
  obtain ⟨hmem, hplaced⟩ := place_of_select hbest
  have hle := mean_le_one hm.measure hplaced
  -- the version with the changes scores 1, so nothing less is selected
  have hfull : best.score = 1 ∧ found.order ≤ best.version.order := by
    rcases select_highest hbest hfound hplace with hlt | ⟨heq, horder⟩
    · rw [mean_eq_one hone] at hlt
      exact absurd hlt (not_lt.mpr hle)
    · exact ⟨heq.symm.trans (mean_eq_one hone), horder⟩
  refine ⟨best, hbest, hfull.1, ?_, fun v hv pv' hplace' hscore => ?_⟩
  · rcases lt_or_eq_of_le hfull.2 with hlt | heq
    · exact .inr hlt
    · exact .inl (List.inj_on_of_nodup_map hdistinct hmem hfound heq.symm)
  · rcases select_highest hbest hv hplace' with hlt | ⟨-, horder⟩
    · rw [hscore, hfull.1] at hlt
      exact absurd hlt (lt_irrefl _)
    · exact horder

namespace Store

/-- When a history of calls over an empty store ends with one that stores nothing, though its text has changes, then a
stored version has these changes, and a selection for the stock lines of the text takes a version that scores 1: this
one, or the newest of those newer ones that score 1 as well. -/
theorem select_found (s : Store) (hlive : s.sandbox.root = none) {base : Location} {w w' : World}
    (hvacant : s.Vacant base w) {calls : List Generation} (hcalls : ∀ c ∈ calls, c.IsAdmissible) (last : Generation)
    {g : Generated} (hrun : (s.generate last.tag last.context last.text last.target).outcome
      { s.generateAll calls w with clock := last.clock } = (.ok g, w'))
    (hnothing : g.stored = none) (hrecords : g.records ≠ []) (shown : Text) :
    ∃ key segments vs found best, keyOf last.target = .ok key ∧
      Segment.parse last.tag (Buffer.ofText last.text).lines = .ok segments ∧
      (s.load key).outcome w' = (.ok vs, w') ∧ found ∈ vs.versions ∧
      found.identities =
        (buildRecords (Buffer.ofText last.text).lines segments key last.context.toNat).map Record.identity ∧
      Matching.usual.select (stockLines (Buffer.ofText last.text).lines segments) vs shown = .ok best ∧
      best.score = 1 ∧ (best.version = found ∨ found.order < best.version.order) ∧
      ∀ v ∈ vs.versions, ∀ pv,
        Matching.usual.place (stockLines (Buffer.ofText last.text).lines segments) v = .ok pv → pv.score = 1 →
          v.order ≤ best.version.order := by
  have hnumbered := (Numbered.generateAll hlive hvacant.numbered hcalls).setClock last.clock
  rcases generate_cases hrun with ⟨rfl, hcases⟩ | ⟨key, segments, vs, result, -, -, hstored⟩
  · rcases hcases g rfl with hnil | ⟨key, segments, vs, found, hrecordable, hfind, -⟩
    · exact absurd hnil hrecords
    · obtain ⟨hfound, hsame⟩ := VersionSet.identical_of_find hfind
      obtain ⟨hdistinct, -⟩ := hnumbered.nodup_orders hlive hrecordable.loaded
      obtain ⟨best, hbest⟩ := Matching.select_identical Matching.admissible_usual rfl hrecordable.parsed hdistinct
        hfound hsame shown
      exact ⟨key, segments, vs, found, best, hrecordable.normalised, hrecordable.parsed, hrecordable.loaded, hfound,
        hsame, hbest⟩
  · have hsome := hstored g rfl
    rw [hnothing] at hsome
    cases hsome

/-! ## A sample -/

/-- A call for a text with a guarded line in it. -/
def sampleGeneration (line : Text) : Generation where
  clock := emptyWorld.clock
  tag := sampleTag
  context := 1
  text := "a\n// Mod: Begin\n" ++ line ++ "\n// Mod: End\nb\n"
  target := "a.c"

theorem isAdmissible_sampleGeneration {line : Text} (h : line.length ≤ 10) : (sampleGeneration line).IsAdmissible := by
  refine ⟨isUniversal_emptyWorld, ?_⟩
  have hlength : (sampleGeneration line).text.length < 10 ^ 2 := by
    have hend : ("\n// Mod: End\nb\n" : Text).length = 15 := by decide
    have hbegin : ("a\n// Mod: Begin\n" : Text).length = 16 := by decide
    simp only [sampleGeneration, List.length_append, hend, hbegin]
    omega
  exact hlength.trans_le (Nat.pow_le_pow_right (by omega) (by decide))

/-- The world behind the first text. -/
def onceWorld : World := sampleStore.generateAll [sampleGeneration "one"] emptyWorld

/-- The world behind two texts. -/
def twiceWorld : World := sampleStore.generateAll [sampleGeneration "one", sampleGeneration "two"] emptyWorld

/-- The segment of the sample. -/
def sampleSegment (line : Text) : Segment := .addition ⟨.block, 1, 4, [line], [], []⟩

/-- The version of a text of the sample. -/
def sampleVersionOf (order : Nat) (line : Text) : Version :=
  ⟨order, emptyWorld.clock, (buildRecords ["a", "// Mod: Begin", line, "// Mod: End", "b"] [sampleSegment line] "a.c"
    1).map (stamp "a.c" order)⟩

/-- The files with the versions of both texts. -/
def twiceFiles : List Text := ["a.c.0001.patch.json", "a.c.0002.patch.json"]

/-- Behind the first text it is generated again without being stored, and behind both texts the files of their versions
are read. -/
theorem outcomes_sampleGeneration :
    ((sampleStore.generate (sampleGeneration "one").tag 1 (sampleGeneration "one").text "a.c").outcome
        { onceWorld with clock := emptyWorld.clock }).1.toOption.map (fun g => (g.stored.isNone, g.records.isEmpty)) =
      some (true, false) ∧
    twiceWorld.tree.probe twiceWorld.cwd (sampleStore.directory "a.c") = .ok (some .directory) ∧
      twiceWorld.artifacts (sampleStore.directory "a.c") (Path.ofText "a.c").name = twiceFiles ∧
      (twiceFiles.mapM fun f => twiceWorld.version ((sampleStore.directory "a.c").child f)).toOption =
        some [sampleVersionOf 1 "one", sampleVersionOf 2 "two"] := by
  -- in one evaluation, since the artifacts of the first text are among those of both
  decide +kernel

theorem select_found_sample :
    sampleStore.Vacant [("patches" : Text)] emptyWorld ∧
      (∀ c ∈ [sampleGeneration "one"], c.IsAdmissible) ∧
      ∃ g w', (sampleStore.generate (sampleGeneration "one").tag 1 (sampleGeneration "one").text "a.c").outcome
          { onceWorld with clock := emptyWorld.clock } = (.ok g, w') ∧ g.stored = none ∧ g.records ≠ [] ∧
        ∃ key segments vs best, (sampleStore.load key).outcome w' = (.ok vs, w') ∧
          Matching.usual.select (stockLines (Buffer.ofText (sampleGeneration "one").text).lines segments) vs [] =
            .ok best ∧ best.score = 1 := by
  have hcalls : ∀ c ∈ [sampleGeneration "one"], c.IsAdmissible := by
    simpa using isAdmissible_sampleGeneration (by decide)
  obtain ⟨hresult, -⟩ := outcomes_sampleGeneration
  cases hrun : (sampleStore.generate (sampleGeneration "one").tag 1 (sampleGeneration "one").text "a.c").outcome
      { onceWorld with clock := emptyWorld.clock } with
  | mk result w' =>
    rw [hrun] at hresult
    cases result with
    | error fault => cases hresult
    | ok g =>
      obtain ⟨hnone, hempty⟩ := Prod.mk.inj (Option.some.inj hresult)
      have hnothing : g.stored = none := by simpa using hnone
      have hrecords : g.records ≠ [] := by simpa using hempty
      obtain ⟨key, segments, vs, found, best, -, -, hload, -, -, hselect, hscore, -⟩ :=
        select_found sampleStore rfl vacant_sampleStore hcalls (sampleGeneration "one") hrun hnothing hrecords []
      exact ⟨vacant_sampleStore, hcalls, g, w', rfl, hnothing, hrecords, key, segments, vs, best, hload, hselect, hscore⟩

theorem outcome_load_twiceWorld : (sampleStore.load "a.c").outcome twiceWorld =
    (.ok ⟨"a.c", [sampleVersionOf 1 "one", sampleVersionOf 2 "two"]⟩, twiceWorld) := by
  have hkey : keyOf "a.c" = .ok "a.c" := by decide
  obtain ⟨-, hprobe, hfiles, hversions⟩ := outcomes_sampleGeneration
  rw [Store.outcome_load rfl hkey, versionsAt, hprobe]
  simp only [if_true, World.versions, hfiles]
  rw [List.mergeSort_of_pairwise (by decide), eq_ok_of_toOption hversions]
  exact congrArg (fun vs => (Except.ok vs, twiceWorld)) (VersionSet.build_of_ascending (by decide))

/-- When a text comes back after another one was stored, nothing is stored again, but a selection takes the changes of
the other one, which score as much and are newer. -/
theorem select_newer :
    ∃ g segments vs best,
      (sampleStore.generate (sampleGeneration "one").tag 1 (sampleGeneration "one").text "a.c").outcome twiceWorld =
        (.ok g, twiceWorld) ∧ g.stored = none ∧ g.records ≠ [] ∧
      Segment.parse (sampleGeneration "one").tag (Buffer.ofText (sampleGeneration "one").text).lines = .ok segments ∧
      (sampleStore.load "a.c").outcome twiceWorld = (.ok vs, twiceWorld) ∧
      Matching.usual.select (stockLines (Buffer.ofText (sampleGeneration "one").text).lines segments) vs [] =
        .ok best ∧
      best.version.identities ≠ (buildRecords (Buffer.ofText (sampleGeneration "one").text).lines segments "a.c"
        1).map Record.identity := by
  have hparse : Segment.parse (sampleGeneration "one").tag (Buffer.ofText (sampleGeneration "one").text).lines =
      .ok [sampleSegment "one"] := by
    decide
  have hload := outcome_load_twiceWorld
  have hrecordable : sampleStore.Recordable twiceWorld (sampleGeneration "one").tag 1 (sampleGeneration "one").text "a.c"
      "a.c" [sampleSegment "one"] ⟨"a.c", [sampleVersionOf 1 "one", sampleVersionOf 2 "two"]⟩ :=
    ⟨by decide, hparse, by simp, by decide, hload⟩
  have hfind : (⟨"a.c", [sampleVersionOf 1 "one", sampleVersionOf 2 "two"]⟩ : VersionSet).findIdentical?
      (buildRecords (Buffer.ofText (sampleGeneration "one").text).lines [sampleSegment "one"] "a.c" 1) =
        some (sampleVersionOf 1 "one") := by
    decide
  obtain ⟨hfound, hsame⟩ := VersionSet.identical_of_find hfind
  obtain ⟨best, hselect, -, -, hnewest⟩ :=
    Matching.select_identical Matching.admissible_usual rfl hparse (by decide) hfound hsame []
  refine ⟨_, _, _, best, generate_found hrecordable hfind, rfl, by decide, hparse, hload, hselect, ?_⟩
  -- the version of the other text scores 1 as well, so the older one is not selected
  have hother : (Matching.usual.place (stockLines (Buffer.ofText (sampleGeneration "one").text).lines
      [sampleSegment "one"]) (sampleVersionOf 2 "two")).toOption.map PlacedVersion.score = some 1 := by
    with_unfolding_all decide
  obtain ⟨pv, hpv, hscore⟩ := Option.map_eq_some_iff.mp hother
  have horder := hnewest (sampleVersionOf 2 "two") (by simp) pv (eq_ok_of_toOption hpv) hscore
  rcases List.mem_cons.mp (Matching.place_of_select hselect).1 with hone | htwo
  · rw [hone] at horder
    exact absurd horder (by decide)
  · rw [List.mem_singleton.mp htwo]
    decide

end Store

end Regraft
