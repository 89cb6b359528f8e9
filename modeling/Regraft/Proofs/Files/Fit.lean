import Regraft.Proofs.Files.Effect
import Regraft.Proofs.Files.Path
import Regraft.Proofs.Json.Whole
import Regraft.Proofs.Number.Digits
import Regraft.Proofs.Text.Slug
/-!
# Paths that a system can be asked about

A path is fit if all its characters may stand in the names of files (`Path.IsFit`). What goes wrong with a fit path and a
whole text is a refusal of the system, which a run takes for a fault of one file; the system is not asked about other
paths, nor given other texts.

* `Path.unfit?_eq_none`: the paths that are asked about are the fit ones;
* `Tree.bySystem_of_write`: a write to a fit path is done or refused;
* `Sandbox.yields_readText`, `Sandbox.yields_writeText`: so is what goes through a sandbox.
-/
namespace Regraft

/-! ## Fit paths -/

/-- A text that may stand in a path that a system is asked about. -/
def Text.FitsPath (t : Text) : Prop := ∀ c ∈ t, c.hasBytes = true ∧ c ≠ char '\x00'

/-- A path that a system can be asked about. -/
def Path.IsFit (p : Path) : Prop := ∀ name ∈ p.names, name.FitsPath

/-- A whole text fits if it has no character that ends texts. -/
theorem Text.IsWhole.fitsPath {t : Text} (h : t.IsWhole) (hnul : char '\x00' ∉ t) : t.FitsPath := by
  intro c hc
  refine ⟨?_, fun heq => hnul (heq ▸ hc)⟩
  simp [CodePoint.hasBytes, h c hc]

theorem Text.FitsPath.append {s t : Text} (hs : s.FitsPath) (ht : t.FitsPath) : Text.FitsPath (s ++ t) :=
  List.forall_mem_append.mpr ⟨hs, ht⟩

theorem Text.FitsPath.of_sublist {s t : Text} (h : t.FitsPath) (hs : s.Sublist t) : s.FitsPath :=
  fun c hc => h c (hs.subset hc)

theorem Text.fitsPath_joinWith {names : List Text} :
    Text.FitsPath (joinWith [char '/'] names) ↔ ∀ name ∈ names, name.FitsPath := by
  constructor
  · exact fun h name hname c hc => h c (mem_joinWith hc hname)
  · intro h c hc
    rcases exists_of_mem_joinWith hc with hc | ⟨name, hname, hc⟩
    · exact List.mem_singleton.mp hc ▸ by decide
    · exact h name hname c hc

namespace Path

variable {p q : Path}

theorem fitsPath_toText : p.toText.FitsPath ↔ p.IsFit := by
  have hslash : (char '/').hasBytes = true ∧ char '/' ≠ char '\x00' := by decide
  have hcons : ∀ t : Text, Text.FitsPath (char '/' :: t) ↔ t.FitsPath := fun t =>
    List.forall_mem_cons.trans (and_iff_right hslash)
  rw [IsFit, ← Text.fitsPath_joinWith]
  unfold toText
  cases p.root with
  | relative =>
    simp only [List.isEmpty_iff]
    split
    · rename_i hnil
      rw [hnil]
      exact iff_of_true (List.forall_mem_singleton.mpr (by decide)) fun _ hc => absurd hc List.not_mem_nil
    · exact Iff.rfl
  | slash => exact hcons _
  | doubleSlash => exact (hcons _).trans (hcons _)

/-- A system is asked about the fit paths. -/
theorem unfit?_eq_none : p.unfit? = none ↔ p.IsFit := by
  rw [← fitsPath_toText]
  unfold unfit? Text.FitsPath
  by_cases hbytes : p.toText.all CodePoint.hasBytes = true
  · by_cases hnul : p.toText.contains (char '\x00') = true
    · simp only [hbytes, hnul, Bool.not_true, Bool.false_eq_true, if_true, if_false, reduceCtorEq, false_iff]
      exact fun h => (h _ (List.contains_iff_mem.mp hnul)).2 rfl
    · simp only [hbytes, hnul, Bool.not_true, Bool.false_eq_true, if_false, true_iff]
      exact fun c hc => ⟨List.all_eq_true.mp hbytes c hc, fun heq => hnul (List.contains_iff_mem.mpr (heq ▸ hc))⟩
  · simp only [hbytes, Bool.not_false, if_true, reduceCtorEq, false_iff]
    exact fun h => hbytes (List.all_eq_true.mpr fun c hc => (h c hc).1)

theorem IsFit.join (hp : p.IsFit) (hq : q.IsFit) : (p.join q).IsFit := by
  unfold Path.join
  split
  · exact hq
  · exact List.forall_mem_append.mpr ⟨hp, hq⟩

theorem IsFit.child {name : Text} (hp : p.IsFit) (hname : name.FitsPath) : (p.child name).IsFit :=
  List.forall_mem_append.mpr ⟨hp, List.forall_mem_singleton.mpr hname⟩

theorem IsFit.parent (hp : p.IsFit) : p.parent.IsFit := fun name hname => hp name (List.dropLast_subset _ hname)

theorem isFit_ofText {t : Text} (h : t.FitsPath) : (ofText t).IsFit := by
  have hfields : ∀ name ∈ fields (char '/') t, name.FitsPath := by
    induction t with
    | nil => exact List.forall_mem_singleton.mpr (by simp [Text.FitsPath])
    | cons c t ih =>
      obtain ⟨hc, ht⟩ := List.forall_mem_cons.mp h
      obtain ⟨first, rest, hsplit⟩ := List.exists_cons_of_ne_nil (fields_ne_nil (char '/') t)
      have hrest := ih ht
      rw [hsplit] at hrest
      rw [fields_cons hsplit]
      split
      · exact List.forall_mem_cons.mpr ⟨by simp [Text.FitsPath], hrest⟩
      · obtain ⟨hfirst, hrest⟩ := List.forall_mem_cons.mp hrest
        exact List.forall_mem_cons.mpr ⟨List.forall_mem_cons.mpr ⟨hc, hfirst⟩, hrest⟩
  exact fun name hname => hfields name (List.mem_of_mem_filter hname)

/-- Taking steps up leaves no names but those that there were. -/
theorem mem_of_mem_takeStepsUp {names : List Text} {name : Text} (h : name ∈ takeStepsUp names) : name ∈ names := by
  induction names using List.reverseRecOn with
  | nil => cases h
  | append_singleton names last ih =>
    rw [takeStepsUp, List.foldl_append, List.foldl_cons, List.foldl_nil] at h
    split at h
    · exact List.mem_append_left _ (ih (List.dropLast_subset _ h))
    · exact (List.mem_append.mp h).elim (fun h => List.mem_append_left _ (ih h)) fun h => List.mem_append_right _ h

theorem IsFit.absolute {cwd : Location} (hp : p.IsFit) (hcwd : ∀ name ∈ cwd, name.FitsPath) :
    ∃ q, p.absolute cwd = .ok q ∧ q.IsFit := by
  refine ⟨_, by rw [Path.absolute, unfit?_eq_none.mpr hp], fun name hname => ?_⟩
  have hmem := mem_of_mem_takeStepsUp hname
  split at hmem
  · exact hp name hmem
  · exact (List.mem_append.mp hmem).elim (hcwd name) (hp name)

end Path

/-! ## Names that are made -/

theorem fitsPath_showPadded (width : Nat) (n : Int) : (showPadded width n).FitsPath := by
  refine (isWhole_showPadded width n).fitsPath fun hmem => ?_
  simp only [showPadded, List.mem_append] at hmem
  rcases hmem with (hsign | hzero) | hdigit
  · split at hsign
    · exact absurd (List.mem_singleton.mp hsign) (by decide)
    · cases hsign
  · exact absurd (List.eq_of_mem_replicate hzero) (by decide)
  · exact absurd (isDigit_of_mem_showNat hdigit) (by decide)

theorem fitsPath_hexBytes (bytes : List UInt8) : (hexBytes bytes).FitsPath := by
  have hnul : '\x00' ∉ "0123456789abcdef".toList := by simp
  intro c hc
  obtain ⟨d, hd, rfl⟩ := mem_hexBytes hc
  exact ⟨rfl, fun heq => hnul (CodePoint.char.inj heq ▸ hd)⟩

/-- The characters of a slug may stand in the name of a file. -/
theorem fitsPath_slug (style : SlugStyle) (hfallback : style.fallback.FitsPath) (t : Text) : (slug style t).FitsPath := by
  have hkept : ∀ c, isSlugChar style.small c = true → c.hasBytes = true ∧ c ≠ char '\x00' := by
    intro c hc
    cases c with
    | half place => cases hc
    | char c =>
      refine ⟨rfl, fun heq => ?_⟩
      rw [heq] at hc
      cases hsmall : style.small <;> rw [hsmall] at hc <;> exact absurd hc (by decide)
  have hhyphen : (char '-').hasBytes = true ∧ char '-' ≠ char '\x00' := by decide
  have hflat : ∀ source, (trimWhile (fun c => c == char '-' || c == char '.')
      (hyphenate (isSlugChar style.small) source)).FitsPath := by
    refine fun source => Text.FitsPath.of_sublist (fun c hc => ?_) (trimWhile_sublist _ _)
    rcases mem_hyphenate hc with hc | rfl
    · exact hkept c hc
    · exact hhyphen
  have hwhole : (wholeSlug style t).FitsPath := iteInduction (fun _ => hfallback) fun _ => hflat _
  unfold slug
  simp only
  split
  · exact hwhole
  · refine Text.FitsPath.append ?_ (List.forall_mem_cons.mpr ⟨hhyphen, fitsPath_hexBytes _⟩)
    exact hwhole.of_sublist ((dropEndWhile_sublist _ _).trans (List.take_sublist _ _))

/-! ## Refusals -/

namespace Tree

variable {t t' : Tree} {cwd : Location} {p : Path} {fault : FileFault}

theorem bySystem_of_follow {path : Text} {names : List Text} :
    ∀ {start : Location}, t.follow path start names = .error fault → fault.bySystem = true := by
  induction names with
  | nil =>
    intro start h
    cases h
  | cons name names ih =>
    intro start h
    rw [follow] at h
    split at h
    · cases h
      rfl
    · cases h
      rfl
    · split at h
      · cases h
        rfl
      · exact ih h

theorem bySystem_of_locate (hfit : p.IsFit) (h : t.locate cwd p = .error fault) : fault.bySystem = true := by
  rw [locate, Path.unfit?_eq_none.mpr hfit] at h
  simp only at h
  split at h
  · cases h
    rfl
  · exact bySystem_of_follow h

/-- What follows the way along a fit path is refused, if it is, or the way is. -/
theorem bySystem_of_locate_bind {α : Type} {next : Location → Except FileFault α} (hfit : p.IsFit)
    (h : (t.locate cwd p >>= next) = .error fault) (hnext : ∀ here, next here = .error fault → fault.bySystem = true) :
    fault.bySystem = true := by
  cases hlocate : t.locate cwd p with
  | error e =>
    rw [hlocate] at h
    obtain rfl : e = fault := Except.error.inj h
    exact bySystem_of_locate hfit hlocate
  | ok here =>
    rw [hlocate] at h
    exact hnext here h

theorem isFit_of_locate {here : Location} (h : t.locate cwd p = .ok here) : p.IsFit :=
  Path.unfit?_eq_none.mp (locate_eq_ok.mp h).1

theorem bySystem_of_probe (h : t.probe cwd p = .error fault) : fault.bySystem = true := by
  unfold probe at h
  split at h
  · cases h
    rfl
  · cases h
  · cases h

theorem bySystem_of_read (hfit : p.IsFit) (h : t.read cwd p = .error fault) : fault.bySystem = true := by
  refine bySystem_of_locate_bind hfit h fun here h => ?_
  split at h <;> cases h <;> rfl

theorem bySystem_of_makeDir (hfit : p.IsFit) (h : t.makeDir cwd p = .error fault) : fault.bySystem = true := by
  refine bySystem_of_locate_bind hfit h fun here h => ?_
  split at h <;> cases h
  rfl

theorem bySystem_of_makeDirsFrom {start : PathRoot} {names : List Text} (hfit : ∀ name ∈ names, name.FitsPath) :
    ∀ {t : Tree}, (makeDirsFrom cwd start names t).2 = some fault → fault.bySystem = true := by
  induction names with
  | nil =>
    intro t h
    rw [makeDirsFrom] at h
    split at h
    · cases h
    · rename_i hmake
      obtain rfl := Option.some.inj h
      exact bySystem_of_makeDir (fun _ hname => absurd hname List.not_mem_nil) hmake
  | cons name names ih =>
    intro t h
    have hp : Path.IsFit ⟨start, (name :: names).reverse⟩ := fun n hn => hfit n (List.mem_reverse.mp hn)
    simp only [makeDirsFrom] at h
    -- Made at once, tried again behind its parent, or refused.
    split at h
    · cases h
    · split at h
      · rename_i hdirs
        exact ih (fun n hn => hfit n (List.mem_cons_of_mem _ hn)) (hdirs ▸ h)
      · split at h
        · cases h
        · rename_i hmake
          obtain rfl := Option.some.inj h
          exact bySystem_of_makeDir hp hmake
    · rename_i hmake
      obtain rfl := Option.some.inj h
      exact bySystem_of_makeDir hp hmake

theorem bySystem_of_makeDirs (hfit : p.IsFit) (h : (t.makeDirs cwd p).2 = some fault) : fault.bySystem = true :=
  bySystem_of_makeDirsFrom (fun name hname => hfit name (List.mem_reverse.mp hname)) h

theorem bySystem_of_replaceFile {text : Text} (hfit : p.IsFit) (htext : text.IsWhole)
    (h : t.replaceFile cwd p text = .error fault) : fault.bySystem = true := by
  obtain ⟨chars, hchars⟩ := htext.exists_chars
  refine bySystem_of_locate_bind hfit h fun here h => ?_
  simp only [hchars, bind, Except.bind] at h
  split at h
  · cases h
    rfl
  · split at h
    · cases h
      rfl
    · split at h
      · cases h
        rfl
      · cases h

/-- A whole text is written to a fit path, or the system refuses. -/
theorem bySystem_of_write {text : Text} (hfit : p.IsFit) (htext : text.IsWhole)
    (h : (t.write cwd p text).2 = some fault) : fault.bySystem = true := by
  unfold write at h
  split at h
  · rename_i hdirs
    exact bySystem_of_makeDirs hfit.parent ((congrArg Prod.snd hdirs).trans h)
  · split at h
    · cases h
    · rename_i hreplace
      obtain rfl := Option.some.inj h
      exact bySystem_of_replaceFile hfit htext hreplace

end Tree

/-! ## Faults of one file -/

/-- A fault that becomes the outcome of the file that is being worked on. -/
def Fault.OfJob (fault : Fault) : Prop := fault.conflict?.isSome = true ∨ fault.concernsFile = true

theorem Fault.ofJob_of_bySystem {fault : Fault} (h : fault.bySystem = true) : fault.OfJob := by
  cases fault with
  | file fault => exact .inr h
  | missing what path => exact .inr rfl
  | _ => cases h

/-! ## Asking -/

namespace Attempt

variable (p : Path) (w : World)

theorem yields_probe :
    (probe p).Yields w (fun kind => kind.isSome = true → p.IsFit) fun fault => fault.bySystem = true := by
  unfold Yields Ends
  cases hprobe : w.tree.probe w.cwd p with
  | error fault =>
    rw [outcome_probe_error hprobe]
    exact Tree.bySystem_of_probe hprobe
  | ok kind =>
    rw [outcome_probe hprobe]
    intro hsome
    unfold Tree.probe at hprobe
    split at hprobe
    · cases hprobe
    · cases hprobe
      cases hsome
    · rename_i hlocate
      exact Tree.isFit_of_locate hlocate

theorem yields_isFile : (isFile p).Yields w (fun found => found = true → p.IsFit) fun fault => fault.bySystem = true := by
  refine (yields_probe p w).bind fun kind _ hkind => ends_pure fun hfound => hkind ?_
  rw [of_decide_eq_true hfound]
  rfl

theorem yields_readText {p : Path} (hfit : p.IsFit) :
    (readText p).Yields w (fun text => text.IsWhole) Fault.OfJob := by
  have hcontent : (readContent p).Yields w (fun _ => True) Fault.OfJob := by
    refine (looks_read p).yields_bind (R := fun answer => ∀ fault, answer = .error fault → fault.bySystem = true)
      (fun fault h => Tree.bySystem_of_read hfit h) fun answer _ hanswer => ?_
    cases answer with
    | ok content => exact ends_pure trivial
    | error fault => exact ends_throw (.inr (hanswer fault rfl))
  refine hcontent.bind fun content _ _ => ?_
  cases content with
  | text chars => exact ends_pure (Text.isWhole_ofChars chars)
  | bytes b => exact ends_throw (.inr rfl)

theorem yields_writeText {p : Path} {text : Text} (hfit : p.IsFit) (htext : text.IsWhole) :
    (writeText p text).Yields w (fun _ => True) fun fault => fault.bySystem = true := by
  refine Yields.bind (R := fun answer => ∀ fault, answer = some fault → fault.bySystem = true)
    (fun fault h => Tree.bySystem_of_write hfit htext h) fun answer _ hanswer => ?_
  cases answer with
  | none => exact ends_pure trivial
  | some fault => exact ends_throw (hanswer fault rfl)

end Attempt

/-! ## Sandboxes -/

namespace Sandbox

variable {s : Sandbox} {p : Path} (w : World)

/-- The places of a sandbox are fit. -/
structure IsFit (s : Sandbox) : Prop where
  root : ∀ root ∈ s.root, root.IsFit
  cwd : ∀ name ∈ s.cwd, name.FitsPath

theorem IsFit.resolve (hs : s.IsFit) (hp : p.IsFit) : ∃ q, s.resolve p = .ok q ∧ q.IsFit := by
  unfold Sandbox.resolve
  cases hroot : s.root with
  | none => exact ⟨p, rfl, hp⟩
  | some root =>
    obtain ⟨q, hq, hfit⟩ := hp.absolute hs.cwd
    simp only [hq]
    exact ⟨_, rfl, List.forall_mem_append.mpr ⟨hs.root root hroot, hfit⟩⟩

/-- In a sandbox, a path can be asked about if it can be written to; in place, every path is looked for. -/
theorem IsFit.searchRoots (hs : s.IsFit) (hp : s.isDry = true → p.IsFit) :
    ∃ places, s.searchRoots p = .ok places ∧ (places = [p] ∨ p.IsFit) := by
  unfold Sandbox.searchRoots
  cases hroot : s.root with
  | none => exact ⟨[p], rfl, .inl rfl⟩
  | some root =>
    have hfit := hp (by rw [isDry, hroot]; rfl)
    obtain ⟨q, hq, -⟩ := hs.resolve hfit
    simp only [hq]
    exact ⟨_, rfl, .inr hfit⟩

theorem yields_isThereIn : ∀ places : List Path,
    (isThereIn places).Yields w (fun _ => True) fun fault => fault.bySystem = true
  | [] => Attempt.ends_pure trivial
  | p :: rest => by
    have hthere : (Attempt.isThere p).Yields w (fun _ => True) fun fault => fault.bySystem = true :=
      (Attempt.yields_probe p w).bind fun _ _ _ => Attempt.ends_pure trivial
    refine (Attempt.looks_isThere p).yields_bind hthere fun found _ _ => ?_
    cases found with
    | true => exact Attempt.ends_pure trivial
    | false => exact yields_isThereIn rest

/-- Whether something is at a path is answered, or the system refuses. -/
theorem yields_isThere (hs : s.IsFit) (hp : s.isDry = true → p.IsFit) :
    (s.isThere p).Yields w (fun _ => True) Fault.OfJob := by
  obtain ⟨places, hplaces, -⟩ := hs.searchRoots hp
  unfold isThere
  rw [hplaces]
  exact (yields_isThereIn w places).mono (fun _ h => h) fun _ => Fault.ofJob_of_bySystem

theorem yields_readIn (asked : Path) : ∀ places : List Path,
    (readIn asked places).Yields w (fun text => text.IsWhole ∧ ∃ p ∈ places, p.IsFit) Fault.OfJob
  | [] => Attempt.ends_throw (.inr rfl)
  | p :: rest => by
    have hfile := (Attempt.yields_isFile p w).mono (fun _ h => h) fun _ => Fault.ofJob_of_bySystem
    refine (Attempt.looks_isFile p).yields_bind hfile fun found _ hfound => ?_
    cases found with
    | true =>
      have hfit := hfound rfl
      exact (Attempt.yields_readText w hfit).mono (fun _ h => ⟨h, p, List.mem_cons_self, hfit⟩) fun _ h => h
    | false =>
      exact (yields_readIn asked rest).mono
        (fun _ ⟨h, q, hq, hfit⟩ => ⟨h, q, List.mem_cons_of_mem _ hq, hfit⟩) fun _ h => h

/-- What is read is a whole text from a fit path. -/
theorem yields_readText (hs : s.IsFit) (hp : s.isDry = true → p.IsFit) :
    (s.readText p).Yields w (fun text => text.IsWhole ∧ p.IsFit) Fault.OfJob := by
  obtain ⟨places, hplaces, honly⟩ := hs.searchRoots hp
  unfold readText
  rw [hplaces]
  refine (yields_readIn w p places).mono (fun text ⟨hwhole, q, hq, hfit⟩ => ⟨hwhole, ?_⟩) fun _ h => h
  rcases honly with rfl | hp
  · exact List.mem_singleton.mp hq ▸ hfit
  · exact hp

/-- A whole text is written for a fit path, or the system refuses. -/
theorem yields_writeText {text : Text} (hs : s.IsFit) (hp : p.IsFit) (htext : text.IsWhole) :
    (s.writeText p text).Yields w (fun _ => True) fun fault => fault.bySystem = true := by
  obtain ⟨q, hq, hfit⟩ := hs.resolve hp
  unfold writeText
  rw [hq]
  exact (Attempt.yields_writeText w hfit htext).bind fun _ _ _ => Attempt.ends_pure trivial

end Sandbox

end Regraft
