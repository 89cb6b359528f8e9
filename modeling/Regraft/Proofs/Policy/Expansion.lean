import Regraft.Policy.Config
import Regraft.Proofs.Policy.References
import Regraft.Proofs.Table
import Mathlib.Data.List.Duplicate
/-!
# Expanding references

What a text expands to is said without a bound (`Variables.Expands`), and how far its references lead, by the names on the
way (`Variables.Chain`). A text is expanded piece by piece (`expandFrom_written`, `expandFrom_cons`), which succeeds where
every chain is short enough and leads to variables only (`Variables.Shallow`).

* `Variables.shallow_iff`: one reference less to follow;
* `Variables.expandFrom_eq_ok_iff`, `Variables.exists_of_expandFrom_eq_error`: expanding with a given bound;
* `Variables.Chain.exists_longer`: a name that comes again makes chains of any length;
* `Variables.expand_spec`: which texts expand, to what, and what is wrong with the others.
-/
namespace Regraft

/-! ## Pieces of a text -/

theorem partsOf_written {name : Text} (h : char '}' ∉ name) (rest : Text) :
    partsOf (written name rest) = .reference name :: partsOf rest := by
  have hlength : (written name rest).length = name.length + rest.length + 2 + 1 := by
    simp only [written, List.length_append, List.length_cons]
    omega
  rw [partsOf, hlength, partsFrom_written h, partsFrom_eq (by omega)]

theorem partsOf_cons {c : CodePoint} {t : Text} (h : ¬OpensReference (c :: t)) :
    partsOf (c :: t) = .char c :: partsOf t := by
  rw [partsOf, List.length_cons, partsFrom_cons h, partsFrom_eq (Nat.le_refl _)]

namespace Variables

variable {vars : Variables} {whole t u value name : Text} {names : List Text} {left : Nat}

/-! ## What a text expands to -/

/-- A text with every reference replaced by what the value of its variable expands to, and all else as it is. -/
inductive Expands (vars : Variables) : Text → Text → Prop
  | nil : Expands vars [] []
  | reference {name value rest u v : Text} (closed : char '}' ∉ name) (found : Table.get? name vars = some value)
      (inner : Expands vars value u) (more : Expands vars rest v) : Expands vars (written name rest) (u ++ v)
  | character {c : CodePoint} {t u : Text} (plain : ¬OpensReference (c :: t)) (more : Expands vars t u) :
      Expands vars (c :: t) (c :: u)

/-- A chain of references that starts in a text: the first name is referred to by the text, and each other one by the
value of the variable before it. -/
inductive Chain (vars : Variables) : Text → List Text → Prop
  | nil (t : Text) : Chain vars t []
  | last {t name : Text} (refers : name ∈ referencesIn t) : Chain vars t [name]
  | step {t name value : Text} {names : List Text} (refers : name ∈ referencesIn t)
      (found : Table.get? name vars = some value) (more : Chain vars value names) : Chain vars t (name :: names)

/-- Every chain of references from a text leads to variables only and is no longer than a bound. -/
def Shallow (vars : Variables) (bound : Nat) (t : Text) : Prop :=
  ∀ names, Chain vars t names → (∀ name ∈ names, Table.has name vars = true) ∧ names.length ≤ bound

/-! ## Chains -/

theorem chain_cons_iff : Chain vars t (name :: names) ↔
    name ∈ referencesIn t ∧ (names = [] ∨ ∃ value, Table.get? name vars = some value ∧ Chain vars value names) := by
  constructor
  · intro h
    cases h with
    | last hrefers => exact ⟨hrefers, .inl rfl⟩
    | step hrefers hfound hmore => exact ⟨hrefers, .inr ⟨_, hfound, hmore⟩⟩
  · rintro ⟨hrefers, rfl | ⟨value, hfound, hmore⟩⟩
    · exact .last hrefers
    · exact .step hrefers hfound hmore

/-- What is behind a name in a chain is a chain from the value of the variable. -/
theorem Chain.exists_value {front : List Text} (h : Chain vars t (front ++ name :: names)) (hne : names ≠ []) :
    ∃ value, Table.get? name vars = some value ∧ Chain vars value names := by
  induction front generalizing t with
  | nil => exact (chain_cons_iff.mp h).2.resolve_left hne
  | cons first front ih =>
    obtain ⟨value, -, hmore⟩ := (chain_cons_iff.mp h).2.resolve_left (by simp)
    exact ih hmore

/-- A chain may go on in another way behind a name in it. -/
theorem Chain.goOn {front others : List Text} (h : Chain vars t (front ++ name :: names))
    (hfound : Table.get? name vars = some value) (hmore : Chain vars value others) :
    Chain vars t (front ++ name :: others) := by
  induction front generalizing t with
  | nil => exact .step (chain_cons_iff.mp h).1 hfound hmore
  | cons first front ih =>
    obtain ⟨hrefers, hrest⟩ := chain_cons_iff.mp h
    obtain ⟨value, hfirst, hrest⟩ := hrest.resolve_left (by simp)
    exact .step hrefers hfirst (ih hrest)

theorem exists_eq_of_duplicate (h : List.Duplicate name names) :
    ∃ front between back, names = front ++ name :: (between ++ name :: back) := by
  induction h with
  | cons_mem hmem =>
    obtain ⟨between, back, rfl⟩ := List.append_of_mem hmem
    exact ⟨[], between, back, rfl⟩
  | cons_duplicate _ ih =>
    obtain ⟨front, between, back, rfl⟩ := ih
    exact ⟨_ :: front, between, back, rfl⟩

/-- Where a name comes again, references go round and round. -/
theorem Chain.exists_longer (h : Chain vars t names) (hagain : ¬names.Nodup) (bound : Nat) :
    ∃ longer, Chain vars t longer ∧ bound < longer.length := by
  obtain ⟨name, hname⟩ := List.exists_duplicate_iff_not_nodup.mpr hagain
  obtain ⟨front, between, back, rfl⟩ := exists_eq_of_duplicate hname
  obtain ⟨value, hfound, hloop⟩ := h.exists_value (by simp)
  have hround : ∀ bound, ∃ longer, Chain vars value longer ∧ bound ≤ longer.length := by
    intro bound
    induction bound with
    | zero => exact ⟨[], .nil value, Nat.zero_le _⟩
    | succ bound ih =>
      obtain ⟨longer, hlonger, hlength⟩ := ih
      refine ⟨between ++ name :: longer, hloop.goOn hfound hlonger, ?_⟩
      rw [List.length_append, List.length_cons]
      omega
  obtain ⟨longer, hlonger, hlength⟩ := hround bound
  refine ⟨front ++ name :: longer, h.goOn hfound hlonger, ?_⟩
  rw [List.length_append, List.length_cons]
  omega

/-- The references of a text are followed one by one. -/
theorem shallow_iff : Shallow vars left t ↔ ∀ name ∈ referencesIn t, ∃ value bound,
    Table.get? name vars = some value ∧ left = bound + 1 ∧ Shallow vars bound value := by
  constructor
  · intro h name hname
    obtain ⟨hdeclared, hlength⟩ := h [name] (.last hname)
    obtain ⟨value, hvalue⟩ := Option.isSome_iff_exists.mp (hdeclared name List.mem_cons_self)
    obtain ⟨bound, rfl⟩ : ∃ bound, left = bound + 1 := ⟨left - 1, by rw [List.length_singleton] at hlength; omega⟩
    refine ⟨value, bound, hvalue, rfl, fun names hnames => ?_⟩
    obtain ⟨hdeclared, hlength⟩ := h (name :: names) (.step hname hvalue hnames)
    exact ⟨fun other hother => hdeclared other (List.mem_cons_of_mem name hother), Nat.le_of_succ_le_succ hlength⟩
  · intro h names hnames
    cases hnames with
    | nil => exact ⟨fun _ hname => absurd hname List.not_mem_nil, Nat.zero_le _⟩
    | last hrefers =>
      obtain ⟨value, bound, hvalue, rfl, -⟩ := h _ hrefers
      exact ⟨fun _ hname => List.mem_singleton.mp hname ▸ Option.isSome_of_eq_some hvalue, by simp⟩
    | step hrefers hfound hmore =>
      obtain ⟨value, bound, hvalue, rfl, hshallow⟩ := h _ hrefers
      obtain rfl := Option.some.inj (hfound.symm.trans hvalue)
      obtain ⟨hdeclared, hlength⟩ := hshallow _ hmore
      refine ⟨fun other hother => ?_, Nat.succ_le_succ hlength⟩
      rcases List.mem_cons.mp hother with rfl | hother
      · exact Option.isSome_of_eq_some hvalue
      · exact hdeclared other hother

theorem shallow_written {rest : Text} (h : char '}' ∉ name) : Shallow vars left (written name rest) ↔
    (∃ value bound, Table.get? name vars = some value ∧ left = bound + 1 ∧ Shallow vars bound value) ∧
      Shallow vars left rest := by
  rw [shallow_iff, referencesIn_written h, List.forall_mem_cons, ← shallow_iff]

theorem shallow_cons {c : CodePoint} (h : ¬OpensReference (c :: t)) :
    Shallow vars left (c :: t) ↔ Shallow vars left t := by
  rw [shallow_iff, referencesIn_cons h, ← shallow_iff]

/-! ## Expanding piece by piece -/

/-- The value of a variable, expanded. -/
def expandName (vars : Variables) (whole : Text) (left : Nat) (name : Text) : Except ExpandFault Text :=
  match Table.get? name vars with
  | none => .error (.undefined name)
  | some value => vars.expandFrom whole left value

/-- A piece of a text, expanded. -/
def expandPart (vars : Variables) (whole : Text) (left : Nat) : TextPart → Except ExpandFault Text
  | .char c => .ok [c]
  | .reference name => vars.expandName whole left name

theorem expandFrom_succ : vars.expandFrom whole (left + 1) t = do
    let pieces ← (partsOf t).mapM (vars.expandPart whole left)
    return pieces.flatten := by
  rw [expandFrom]
  congr 2

theorem expandFrom_written {rest : Text} (h : char '}' ∉ name) : vars.expandFrom whole (left + 1) (written name rest) = do
    let u ← vars.expandName whole left name
    let v ← vars.expandFrom whole (left + 1) rest
    return u ++ v := by
  rw [expandFrom_succ, expandFrom_succ, partsOf_written h, List.mapM_cons]
  cases hname : vars.expandName whole left name <;>
    cases hrest : (partsOf rest).mapM (vars.expandPart whole left) <;> simp [expandPart, hname, bind, Except.bind]
  rfl

theorem expandFrom_cons {c : CodePoint} (h : ¬OpensReference (c :: t)) : vars.expandFrom whole (left + 1) (c :: t) = do
    let u ← vars.expandFrom whole (left + 1) t
    return c :: u := by
  rw [expandFrom_succ, expandFrom_succ, partsOf_cons h, List.mapM_cons]
  cases hrest : (partsOf t).mapM (vars.expandPart whole left) <;> simp [expandPart, bind, Except.bind]
  rfl

/-! ## Which texts expand -/

theorem expandFrom_of_expands (h : Expands vars t u) (hshallow : Shallow vars left t) :
    vars.expandFrom whole (left + 1) t = .ok u := by
  induction h generalizing left with
  | nil => rfl
  | reference hclosed hfound _ _ hinner hmore =>
    obtain ⟨⟨value, bound, hvalue, rfl, hbound⟩, hrest⟩ := (shallow_written hclosed).mp hshallow
    obtain rfl := Option.some.inj (hfound.symm.trans hvalue)
    rw [expandFrom_written hclosed, hmore hrest, expandName, hfound]
    dsimp only
    rw [hinner hbound]
    rfl
  | character hplain _ hmore =>
    rw [expandFrom_cons hplain, hmore ((shallow_cons hplain).mp hshallow)]
    rfl

theorem expands_of_expandFrom (h : vars.expandFrom whole left t = .ok u) :
    ∃ bound, left = bound + 1 ∧ Expands vars t u ∧ Shallow vars bound t := by
  induction left generalizing t u with
  | zero => cases h
  | succ left ih =>
    refine ⟨left, rfl, ?_⟩
    induction t using reference_induction generalizing u with
    | nil =>
      obtain rfl := Except.ok.inj h
      exact ⟨.nil, shallow_iff.mpr fun name hname => absurd hname List.not_mem_nil⟩
    | reference name rest hclosed hrest =>
      rw [expandFrom_written hclosed] at h
      obtain ⟨inner, hinner, h⟩ := bind_eq_ok.mp h
      obtain ⟨more, hmore, h⟩ := bind_eq_ok.mp h
      obtain rfl := Except.ok.inj h
      obtain ⟨hexpands, hshallow⟩ := hrest hmore
      unfold expandName at hinner
      split at hinner
      · cases hinner
      · rename_i value hvalue
        obtain ⟨bound, rfl, hvalueExpands, hbound⟩ := ih hinner
        exact ⟨.reference hclosed hvalue hvalueExpands hexpands,
          (shallow_written hclosed).mpr ⟨⟨value, bound, hvalue, rfl, hbound⟩, hshallow⟩⟩
    | character c t hplain hrest =>
      rw [expandFrom_cons hplain] at h
      obtain ⟨more, hmore, h⟩ := bind_eq_ok.mp h
      obtain rfl := Except.ok.inj h
      obtain ⟨hexpands, hshallow⟩ := hrest hmore
      exact ⟨.character hplain hexpands, (shallow_cons hplain).mpr hshallow⟩

theorem expandFrom_eq_ok_iff :
    vars.expandFrom whole (left + 1) t = .ok u ↔ Expands vars t u ∧ Shallow vars left t := by
  refine ⟨fun h => ?_, fun h => expandFrom_of_expands h.1 h.2⟩
  obtain ⟨bound, heq, h⟩ := expands_of_expandFrom h
  obtain rfl := Nat.succ.inj heq
  exact h

/-- Where expanding fails, a chain of references leads to a name that no variable has, or further than allowed. -/
theorem exists_of_expandFrom_eq_error {fault : ExpandFault} (h : vars.expandFrom whole left t = .error fault) :
    (∃ names name, Chain vars t (names ++ [name]) ∧ Table.has name vars = false ∧ fault = .undefined name) ∨
      ∃ names, Chain vars t names ∧ names.length = left ∧ fault = .tooDeep whole := by
  induction left generalizing t with
  | zero => exact .inr ⟨[], .nil t, rfl, (Except.error.inj h).symm⟩
  | succ left ih =>
    rw [expandFrom_succ] at h
    rcases bind_eq_error.mp h with h | ⟨_, -, h⟩
    · obtain ⟨part, hpart, h⟩ := exists_of_mapM_eq_error h
      cases part with
      | char c => cases h
      | reference name =>
        have hrefers : name ∈ referencesIn t := List.mem_filterMap.mpr ⟨_, hpart, rfl⟩
        change vars.expandName whole left name = .error fault at h
        unfold expandName at h
        split at h
        · rename_i hnone
          exact .inl ⟨[], name, .last hrefers, by rw [Table.has, hnone]; rfl, (Except.error.inj h).symm⟩
        · rename_i value hvalue
          rcases ih h with ⟨names, last, hchain, hundefined, hfault⟩ | ⟨names, hchain, hlength, hfault⟩
          · exact .inl ⟨name :: names, last, .step hrefers hvalue hchain, hundefined, hfault⟩
          · exact .inr ⟨name :: names, .step hrefers hvalue hchain, congrArg Nat.succ hlength, hfault⟩
    · cases h

/-- A text expands exactly if every chain of references from it leads to variables only and is at most sixteen long; it
expands to itself with every reference replaced by what the value of the variable expands to. A name that comes again in a
chain keeps it from expanding. A text that does not expand is a fault of the rules: a chain leads to an undefined variable,
or is too long. -/
theorem expand_spec (vars : Variables) (t : Text) :
    ((∃ u, vars.expand t = .ok u) ↔ Shallow vars 16 t) ∧
    (∀ u, vars.expand t = .ok u ↔ Expands vars t u ∧ Shallow vars 16 t) ∧
    ((∃ names, Chain vars t names ∧ ¬names.Nodup) → ∃ fault, vars.expand t = .error fault) ∧
    ∀ fault, vars.expand t = .error fault →
      (∃ names name, Chain vars t (names ++ [name]) ∧ Table.has name vars = false ∧
        fault.config = { cause := .undefinedVariable name }) ∨
      ∃ names, Chain vars t names ∧ 16 < names.length ∧ fault.config = { cause := .expansionTooDeep t } := by
  have hok : ∀ u, vars.expand t = .ok u ↔ Expands vars t u ∧ Shallow vars 16 t := fun u => expandFrom_eq_ok_iff
  have hfails : ∀ fault, vars.expand t = .error fault → ¬Shallow vars 16 t := by
    intro fault h hshallow
    rcases exists_of_expandFrom_eq_error h with ⟨names, name, hchain, hundefined, -⟩ | ⟨names, hchain, hlength, -⟩
    · have hdefined := (hshallow _ hchain).1 name (by simp)
      rw [hundefined] at hdefined
      cases hdefined
    · have hbound := (hshallow _ hchain).2
      rw [hlength] at hbound
      exact absurd hbound (by decide)
  refine ⟨⟨fun ⟨u, h⟩ => ((hok u).mp h).2, fun h => ?_⟩, hok, fun ⟨names, hchain, hagain⟩ => ?_, fun fault h => ?_⟩
  · cases hexpand : vars.expand t with
    | ok u => exact ⟨u, rfl⟩
    | error fault => exact absurd h (hfails fault hexpand)
  · cases hexpand : vars.expand t with
    | error fault => exact ⟨fault, rfl⟩
    | ok u =>
      obtain ⟨longer, hlonger, hlength⟩ := hchain.exists_longer hagain 16
      exact absurd (((hok u).mp hexpand).2 longer hlonger).2 (Nat.not_le.mpr hlength)
  · rcases exists_of_expandFrom_eq_error h with ⟨names, name, hchain, hundefined, rfl⟩ | ⟨names, hchain, hlength, rfl⟩
    · exact .inl ⟨names, name, hchain, hundefined, rfl⟩
    · exact .inr ⟨names, hchain, by rw [hlength]; decide, rfl⟩

end Variables

end Regraft
