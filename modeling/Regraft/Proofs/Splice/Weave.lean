import Regraft.Splice.Apply
import Regraft.Proofs.Match.Feasible
/-!
# Splicing as weaving

The records of a version are spliced in one after the other, from the end of the file to its start.
`weave` says what this comes to in one pass from the start: the stock between the records and, for each record,
what stands in place of the stock that it takes out.

* `replaceSpan_weave`: one more splice in front is one more edit of the weave;
* `spliceOrder_eq`: records that are apart are spliced in from the last one to the first;
* `applyVersion_eq_woven`: all splices succeed, and give the weave of the lines and that of the sources.
-/
namespace Regraft

/-- A part of a list with what stands in its place. -/
structure Edit (α : Type) where
  position : Nat
  extent : Nat
  new : List α

section
variable {α β : Type}

/-- A list from the cursor on, with edits made. -/
def weave (xs : List α) : Nat → List (Edit α) → List α
  | cursor, [] => xs.drop cursor
  | cursor, e :: rest => (xs.take e.position).drop cursor ++ e.new ++ weave xs (e.position + e.extent) rest

theorem weave_nil (xs : List α) (cursor : Nat) : weave xs cursor [] = xs.drop cursor := rfl

theorem weave_cons (xs : List α) (cursor : Nat) (e : Edit α) (rest : List (Edit α)) :
    weave xs cursor (e :: rest) =
      (xs.take e.position).drop cursor ++ e.new ++ weave xs (e.position + e.extent) rest := rfl

/-- Edits in order from the cursor on, within so many elements. -/
def Spaced (count : Nat) : Nat → List (Edit α) → Prop
  | cursor, [] => cursor ≤ count
  | cursor, e :: rest => cursor ≤ e.position ∧ Spaced count (e.position + e.extent) rest

theorem Spaced.le {count : Nat} {edits : List (Edit α)} :
    ∀ {cursor : Nat}, Spaced count cursor edits → cursor ≤ count := by
  induction edits with
  | nil => intro cursor h; exact h
  | cons e rest ih =>
    intro cursor h
    have := ih h.2
    have := h.1
    omega

/-- The elements between two cursors stand before the weave. -/
theorem take_drop_append_weave {xs : List α} {edits : List (Edit α)} {c cursor : Nat} (hc : c ≤ cursor)
    (h : Spaced xs.length cursor edits) :
    (xs.take cursor).drop c ++ weave xs cursor edits = weave xs c edits := by
  have hsplit : ∀ p, cursor ≤ p → p ≤ xs.length →
      (xs.take cursor).drop c ++ (xs.take p).drop cursor = (xs.take p).drop c := by
    intro p hp hle
    have htake := List.take_append_drop cursor (xs.take p)
    rw [List.take_take, Nat.min_eq_left hp] at htake
    conv_rhs => rw [← htake, List.drop_append_of_le_length (by simp; omega)]
  cases edits with
  | nil =>
    have := hsplit xs.length h le_rfl
    simpa [weave_nil] using this
  | cons e rest =>
    have hle : e.position ≤ xs.length := by
      have := h.2.le
      omega
    simp only [weave_cons, ← List.append_assoc, hsplit e.position h.1 hle]

/-- A splice in front of the edits is one more edit. -/
theorem replaceSpan_weave {xs : List α} {edits : List (Edit α)} {e : Edit α}
    (h : Spaced xs.length (e.position + e.extent) edits) :
    replaceSpan (weave xs 0 edits) e.position e.extent e.new = weave xs 0 (e :: edits) := by
  have hle := h.le
  have hsplit := take_drop_append_weave (Nat.zero_le _) h
  rw [List.drop_zero] at hsplit
  have hlen : (xs.take (e.position + e.extent)).length = e.position + e.extent := by simp; omega
  rw [replaceSpan, ← hsplit, List.take_append_of_le_length (by omega), List.take_take,
    List.drop_append_of_le_length (by omega), List.drop_of_length_le (by omega)]
  simp [weave_cons]

/-- Before the edits, the weave is the list. -/
theorem take_drop_weave {xs : List α} {edits : List (Edit α)} {p k : Nat} (h : Spaced xs.length (p + k) edits) :
    ((weave xs 0 edits).drop p).take k = (xs.drop p).take k := by
  have hle := h.le
  have hsplit := take_drop_append_weave (Nat.zero_le _) h
  rw [List.drop_zero] at hsplit
  rw [← hsplit, List.drop_append_of_le_length (by simp; omega), List.take_append_of_le_length (by simp; omega),
    List.drop_take, List.take_take]
  simp

theorem le_length_weave {xs : List α} {edits : List (Edit α)} {p : Nat} (h : Spaced xs.length p edits) :
    p ≤ (weave xs 0 edits).length := by
  have hle := h.le
  rw [← take_drop_append_weave (Nat.zero_le _) h]
  simp
  omega

theorem take_drop_append_drop {xs : List α} {c p k : Nat} (hc : c ≤ p) :
    (xs.take p).drop c ++ ((xs.drop p).take k ++ xs.drop (p + k)) = xs.drop c :=
  calc (xs.take p).drop c ++ ((xs.drop p).take k ++ xs.drop (p + k))
      = (xs.take p).drop c ++ xs.drop p := by rw [← List.drop_drop, List.take_append_drop]
    _ = (xs.drop c).take (p - c) ++ (xs.drop c).drop (p - c) := by
        rw [List.drop_take, List.drop_drop, Nat.add_sub_cancel' hc]
    _ = xs.drop c := List.take_append_drop _ _

/-- Edits that put back what they take out change nothing. -/
theorem weave_eq_drop {xs : List α} {edits : List (Edit α)} :
    ∀ {cursor : Nat}, Spaced xs.length cursor edits →
      (∀ e ∈ edits, e.new = (xs.drop e.position).take e.extent) → weave xs cursor edits = xs.drop cursor := by
  induction edits with
  | nil => intros; rfl
  | cons e rest ih =>
    intro cursor h hsame
    have hcursor := h.1
    rw [weave_cons, ih h.2 fun e he => hsame e (List.mem_cons_of_mem _ he), hsame e List.mem_cons_self,
      List.append_assoc]
    exact take_drop_append_drop hcursor

theorem mem_weave {xs : List α} {edits : List (Edit α)} {x : α} :
    ∀ {cursor : Nat}, x ∈ weave xs cursor edits → x ∈ xs ∨ ∃ e ∈ edits, x ∈ e.new := by
  induction edits with
  | nil =>
    intro cursor h
    exact .inl (List.mem_of_mem_drop h)
  | cons e rest ih =>
    intro cursor h
    simp only [weave_cons, List.append_assoc, List.mem_append] at h
    rcases h with h | h | h
    · exact .inl (List.mem_of_mem_take (List.mem_of_mem_drop h))
    · exact .inr ⟨e, List.mem_cons_self, h⟩
    · rcases ih h with h | ⟨e', he, h⟩
      · exact .inl h
      · exact .inr ⟨e', List.mem_cons_of_mem _ he, h⟩

/-- A weave ends as the list ends, or as an edit does. -/
theorem mem_getLast?_weave {xs : List α} {edits : List (Edit α)} {x : α} (hne : ∀ e ∈ edits, e.new ≠ []) :
    ∀ {cursor : Nat}, x ∈ (weave xs cursor edits).getLast? → x ∈ xs.getLast? ∨ ∃ e ∈ edits, x ∈ e.new.getLast? := by
  induction edits with
  | nil =>
    intro cursor h
    rw [weave_nil, List.getLast?_drop] at h
    split at h
    · cases h
    · exact .inl h
  | cons e rest ih =>
    intro cursor h
    have hnew := hne e List.mem_cons_self
    rw [weave_cons, List.getLast?_append, List.getLast?_append_of_ne_nil _ hnew] at h
    cases hrest : (weave xs (e.position + e.extent) rest).getLast? with
    | none =>
      rw [hrest, Option.none_or] at h
      exact .inr ⟨e, List.mem_cons_self, h⟩
    | some last =>
      rw [hrest, Option.some_or] at h
      rcases ih (fun e he => hne e (List.mem_cons_of_mem _ he)) (hrest ▸ h) with h | ⟨e', he, h⟩
      · exact .inl h
      · exact .inr ⟨e', List.mem_cons_of_mem _ he, h⟩

/-- What an element becomes, a weave becomes. -/
theorem flatMap_weave {f : β → List α} {g : α → β} (hfg : ∀ x, f (g x) = [x]) (xs : List α)
    (edits : List (Edit β)) :
    ∀ cursor, (weave (xs.map g) cursor edits).flatMap f =
      weave xs cursor (edits.map fun e => ⟨e.position, e.extent, e.new.flatMap f⟩) := by
  have hmap : ∀ ys : List α, (ys.map g).flatMap f = ys := by
    intro ys
    simp [List.flatMap_map, hfg]
  induction edits with
  | nil =>
    intro cursor
    simp only [weave_nil, ← List.map_drop, hmap, List.map_nil]
  | cons e rest ih =>
    intro cursor
    simp only [weave_cons, List.flatMap_append, ← List.map_take, ← List.map_drop, hmap, List.map_cons, ih]

end

/-! ## Records in their places -/

/-- Records apart from each other at places of the lines, each where the stock that it takes out stands. -/
structure Placeable (lines : List Text) (placed : List (Nat × Record)) : Prop where
  apart : Apart placed
  inside : ∀ x ∈ placed, x.1 ≤ lines.length
  present : ∀ x ∈ placed, Matching.extentFits lines x.1 x.2 = true

/-- A feasible placement can be spliced in. -/
theorem Matching.Feasible.placeable {α : Type} [Scale α] {m : Matching α} {lines : List Text} {rs : List Record}
    {placed : List (Nat × Record)} (h : m.Feasible lines rs placed) : Placeable lines placed := by
  have hsuits : ∀ x ∈ placed, x.1 ≤ lines.length ∧ Matching.extentFits lines x.1 x.2 = true := by
    intro x hx
    obtain ⟨s, hs, -⟩ := (h.suits x hx).agrees
    exact Matching.score_eq_some hs
  exact ⟨h.apart, fun x hx => (hsuits x hx).1, fun x hx => (hsuits x hx).2⟩

/-- The edits that records make, each with its lines. -/
def editsOf {α : Type} (new : Nat × Record → List α) (placed : List (Nat × Record)) : List (Edit α) :=
  placed.map fun x => ⟨x.1, x.2.extent, new x⟩

/-- Weaves of lists of one length, with edits of the same lengths, have one length. -/
theorem length_weave_congr {α β : Type} {xs : List α} {ys : List β} (hlen : xs.length = ys.length)
    {new : Nat × Record → List α} {new' : Nat × Record → List β} {placed : List (Nat × Record)}
    (hnew : ∀ x ∈ placed, (new x).length = (new' x).length) :
    ∀ cursor, (weave xs cursor (editsOf new placed)).length = (weave ys cursor (editsOf new' placed)).length := by
  induction placed with
  | nil =>
    intro cursor
    simp [editsOf, weave_nil, hlen]
  | cons x placed ih =>
    intro cursor
    have hrest := ih (fun y hy => hnew y (List.mem_cons_of_mem _ hy)) (x.1 + x.2.extent)
    simp only [editsOf] at hrest
    simp [editsOf, weave_cons, hlen, hnew x List.mem_cons_self, hrest]

/-- The stock that a record takes out is there. -/
theorem take_drop_of_extentFits {lines : List Text} {p : Nat} {r : Record}
    (h : Matching.extentFits lines p r = true) (hne : r.extent ≠ 0) : (lines.drop p).take r.extent = r.stock := by
  unfold Matching.extentFits at h
  split at h
  · rename_i hk
    simp [Record.extent, hk] at hne
  · simpa using h

theorem add_extent_le {lines : List Text} {p : Nat} {r : Record} (hp : p ≤ lines.length)
    (h : Matching.extentFits lines p r = true) : p + r.extent ≤ lines.length := by
  by_cases hne : r.extent = 0
  · omega
  have htake := congrArg List.length (take_drop_of_extentFits h hne)
  have hlen : r.stock.length = r.extent := by
    unfold Record.extent at hne ⊢
    split at hne
    · exact absurd rfl hne
    · rfl
  rw [List.length_take, List.length_drop, hlen] at htake
  omega

theorem spaced_editsOf {α : Type} {lines : List Text} (new : Nat × Record → List α)
    {placed : List (Nat × Record)} (h : Placeable lines placed) :
    ∀ cursor, cursor ≤ lines.length → (∀ x ∈ placed.head?, cursor ≤ x.1) →
      Spaced lines.length cursor (editsOf new placed) := by
  induction placed with
  | nil => exact fun cursor hc _ => hc
  | cons x rest ih =>
    intro cursor _ hx
    have hrest : Placeable lines rest := ⟨h.apart.tail, fun y hy => h.inside y (List.mem_cons_of_mem _ hy),
      fun y hy => h.present y (List.mem_cons_of_mem _ hy)⟩
    refine ⟨hx x rfl, ih hrest _ ?_ ?_⟩
    · exact add_extent_le (h.inside x List.mem_cons_self) (h.present x List.mem_cons_self)
    · intro y hy
      cases rest with
      | nil => cases hy
      | cons z rest =>
        obtain rfl : z = y := by simpa using hy
        exact (List.isChain_cons_cons.mp h.apart).1

/-! ## The sequence of splices -/

/-- Placed records with their numbers in the version, the first of them with this one. -/
def numberFrom (k : Nat) (placed : List (Int × Record)) : List Numbered :=
  (placed.zipIdx k).map fun ((position, record), i) => ⟨i + 1, position, record⟩

theorem number_of_mem_numberFrom {k : Nat} {placed : List (Int × Record)} {n : Numbered}
    (h : n ∈ numberFrom k placed) : k < n.number ∧ placed[n.number - 1 - k]? = some (n.position, n.record) := by
  obtain ⟨⟨x, i⟩, hx, rfl⟩ := List.mem_map.mp h
  obtain ⟨hk, hget⟩ := List.mk_mem_zipIdx_iff_le_and_getElem?_sub.mp hx
  exact ⟨Nat.lt_succ_of_le hk, by simpa using hget⟩

/-- A record is spliced in no later than another one. -/
def Numbered.atLeast (a b : Numbered) : Bool :=
  if a.position = b.position then b.number ≤ a.number else b.position ≤ a.position

theorem Numbered.atLeast_iff {a b : Numbered} :
    a.atLeast b = true ↔ b.position < a.position ∨ b.position = a.position ∧ b.number ≤ a.number := by
  unfold Numbered.atLeast
  split
  · rename_i heq
    simp [heq]
  · rename_i hne
    simp only [decide_eq_true_eq]
    omega

theorem Numbered.atLeast_trans (a b c : Numbered) (hab : a.atLeast b = true) (hbc : b.atLeast c = true) :
    a.atLeast c = true := by
  rw [Numbered.atLeast_iff] at *
  omega

theorem Numbered.atLeast_total (a b : Numbered) : (a.atLeast b || b.atLeast a) = true := by
  rw [Bool.or_eq_true, Numbered.atLeast_iff, Numbered.atLeast_iff]
  omega

/-- Records in the order of the file are spliced in from the last one to the first. -/
theorem spliceOrder_eq {placed : List (Int × Record)} (h : placed.Pairwise fun a b => a.1 ≤ b.1) :
    spliceOrder placed = (numberFrom 0 placed).reverse := by
  have hsorted : ∀ k, (numberFrom k placed).Pairwise fun a b => b.atLeast a = true := by
    induction h with
    | nil => exact fun k => List.Pairwise.nil
    | @cons x rest hx _ ih =>
      intro k
      refine List.pairwise_cons.mpr ⟨fun n hn => ?_, ih (k + 1)⟩
      obtain ⟨hk, hget⟩ := number_of_mem_numberFrom hn
      have hle : x.1 ≤ n.position := hx _ (List.mem_of_getElem? hget)
      refine Numbered.atLeast_iff.mpr ?_
      show x.1 < n.position ∨ x.1 = n.position ∧ k + 1 ≤ n.number
      omega
  have hperm : (spliceOrder placed).Perm (numberFrom 0 placed) := List.mergeSort_perm _ _
  have hperm' : (spliceOrder placed).Perm (numberFrom 0 placed).reverse := hperm.trans (List.reverse_perm _).symm
  have hleft : (spliceOrder placed).Pairwise fun a b => a.atLeast b = true :=
    List.pairwise_mergeSort Numbered.atLeast_trans Numbered.atLeast_total _
  -- Equal numbers are the number of one record.
  have hanti : ∀ a b, a ∈ spliceOrder placed → b ∈ (numberFrom 0 placed).reverse →
      a.atLeast b = true → b.atLeast a = true → a = b := by
    intro a b ha hb hab hba
    obtain ⟨-, hga⟩ := number_of_mem_numberFrom (hperm.subset ha)
    obtain ⟨-, hgb⟩ := number_of_mem_numberFrom (List.mem_reverse.mp hb)
    have hnumber : a.number = b.number := by
      rcases Numbered.atLeast_iff.mp hab with h | h <;> rcases Numbered.atLeast_iff.mp hba with h' | h' <;> omega
    rw [hnumber, hgb, Option.some.injEq, Prod.mk.injEq] at hga
    obtain ⟨ap, an, ar⟩ := a
    obtain ⟨bp, bn, br⟩ := b
    simp_all
  exact List.Perm.eq_of_pairwise hanti hleft (List.pairwise_reverse.mpr (hsorted 0)) hperm'

/-! ## All splices -/

section
variable {σ : Type} {tag : Tag} {lines : List Text} {sources : List (Option σ)}

/-- The sources of the lines that a placed record brings in. -/
def sourcesOf (sources : List (Option σ)) (rendered : Record → List Text) (x : Nat × Record) : List (Option σ) :=
  x.2.renderedSources ((sources.drop x.1).take x.2.extent) (rendered x.2).length

/-- The lines and the sources with the records in their places. -/
def woven (lines : List Text) (sources : List (Option σ)) (rendered : Record → List Text)
    (placed : List (Nat × Record)) : Sourced σ :=
  ⟨weave lines 0 (editsOf (fun x => rendered x.2) placed),
    weave sources 0 (editsOf (sourcesOf sources rendered) placed)⟩

/-- One record is spliced in before the ones that are there already. -/
theorem splicePlaced_woven (hlen : sources.length = lines.length) {rendered : Record → List Text}
    {x : Nat × Record} {placed : List (Nat × Record)} (h : Placeable lines (x :: placed))
    (hr : x.2.render tag = .ok (rendered x.2)) :
    splicePlaced tag (woven lines sources rendered placed) (x.1 : Int) x.2 =
      .ok (woven lines sources rendered (x :: placed)) := by
  have hlines : Spaced lines.length (x.1 + x.2.extent) (editsOf (fun x => rendered x.2) placed) :=
    (spaced_editsOf (fun x => rendered x.2) h 0 (Nat.zero_le _) fun _ _ => Nat.zero_le _).2
  have hsources : Spaced sources.length (x.1 + x.2.extent) (editsOf (sourcesOf sources rendered) placed) := by
    rw [hlen]
    exact (spaced_editsOf (sourcesOf sources rendered) h 0 (Nat.zero_le _) fun _ _ => Nat.zero_le _).2
  have hplace : placeIn (woven lines sources rendered placed).lines (x.1 : Int) = .ok x.1 := by
    have hle : x.1 ≤ (woven lines sources rendered placed).lines.length := by
      have := le_length_weave hlines
      show x.1 ≤ (weave lines 0 (editsOf (fun x => rendered x.2) placed)).length
      omega
    unfold placeIn
    rw [if_neg (by omega)]
    rfl
  have hstock : ¬ (x.2.extent ≠ 0 ∧
      ((woven lines sources rendered placed).lines.drop x.1).take x.2.extent ≠ x.2.stock) := by
    intro hx
    obtain ⟨hne, habsent⟩ := hx
    refine habsent ((take_drop_weave hlines).trans ?_)
    exact take_drop_of_extentFits (h.present x List.mem_cons_self) hne
  have hwoven : (woven lines sources rendered placed).sources =
      weave sources 0 (editsOf (sourcesOf sources rendered) placed) := rfl
  simp only [splicePlaced, hplace, spliceRecord, hr, bind, Except.bind, pure, Except.pure]
  rw [if_neg hstock, hwoven, take_drop_weave hsources]
  exact congrArg Except.ok (congrArg₂ Sourced.mk
    (replaceSpan_weave (e := ⟨x.1, x.2.extent, rendered x.2⟩) hlines)
    (replaceSpan_weave (e := ⟨x.1, x.2.extent, sourcesOf sources rendered x⟩) hsources))

theorem foldlM_splices (hlen : sources.length = lines.length) {rendered : Record → List Text}
    {placed : List (Nat × Record)} (h : Placeable lines placed)
    (hr : ∀ x ∈ placed, x.2.render tag = .ok (rendered x.2)) :
    ∀ k, (numberFrom k (placed.map fun x => ((x.1 : Int), x.2))).reverse.foldlM (fun b n =>
      (splicePlaced tag b n.position n.record).mapError
        (SpliceFault.atSegment n.number n.record.targetPath n.position)) (⟨lines, sources⟩ : Sourced σ) =
      .ok (woven lines sources rendered placed) := by
  induction placed with
  | nil => intro k; rfl
  | cons x placed ih =>
    intro k
    have hrest : Placeable lines placed := ⟨h.apart.tail, fun y hy => h.inside y (List.mem_cons_of_mem _ hy),
      fun y hy => h.present y (List.mem_cons_of_mem _ hy)⟩
    have hcons : numberFrom k ((x :: placed).map fun x => ((x.1 : Int), x.2)) =
        ⟨k + 1, x.1, x.2⟩ :: numberFrom (k + 1) (placed.map fun x => ((x.1 : Int), x.2)) := rfl
    rw [hcons, List.reverse_cons, List.foldlM_append, ih hrest (fun y hy => hr y (List.mem_cons_of_mem _ hy))]
    show (splicePlaced tag (woven lines sources rendered placed) (x.1 : Int) x.2).mapError _ >>= pure = _
    rw [splicePlaced_woven hlen h (hr x List.mem_cons_self)]
    rfl

theorem Apart.positions_le {placed : List (Nat × Record)} (h : Apart placed) :
    (placed.map fun x => ((x.1 : Int), x.2)).Pairwise fun a b => a.1 ≤ b.1 := by
  have hchain : placed.IsChain fun a b => a.1 ≤ b.1 :=
    List.IsChain.imp (fun a b hab => (Nat.le_add_right _ _).trans hab) h
  refine List.pairwise_map.mpr ((List.isChain_iff_pairwise.mp hchain).imp fun {a b} hab => ?_)
  exact Int.ofNat_le.mpr hab

/-- Records that can be placed are all spliced in. -/
theorem applyVersion_eq_woven (hlen : sources.length = lines.length) {rendered : Record → List Text}
    {placed : List (Nat × Record)} (h : Placeable lines placed)
    (hr : ∀ x ∈ placed, x.2.render tag = .ok (rendered x.2)) :
    applyVersion tag ⟨lines, sources⟩ (placed.map fun x => ((x.1 : Int), x.2)) =
      .ok (woven lines sources rendered placed) := by
  rw [applyVersion, spliceOrder_eq h.apart.positions_le]
  exact foldlM_splices hlen h hr 0

end

end Regraft
