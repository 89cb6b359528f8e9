import Regraft.Change
import Regraft.Settings.Build
import Regraft.Store.Basic
import Regraft.Conflict
/-!
# Sessions

A session is what one run works with: the settings, the rules of the plugin, and the sandbox that its writes
go through.
-/
namespace Regraft

/-- What one run works with. -/
structure Session where
  settings : Settings
  rules : RuleSet
  sandbox : Sandbox
  matching : Matching Float

/-- The names of the rule files; what is said in a later one counts more. -/
def configNames : List Text := ["Crysknife.ini", "CrysknifeLocal.ini"]

/-- The rule files of a store. -/
def configPaths (patchRoot : Path) : List Path := configNames.map patchRoot.child

/-- Reads a rule file into a draft, if it is there. -/
def readConfig (d : Draft) (p : Path) : Attempt Draft := do
  if !(← Attempt.isFile p) then return d
  match ← Attempt.request (.read p) with
  | .ok (.text chars) =>
    Attempt.ofExcept .config (d.readText (universalNewlines (Text.ofChars chars)) p.toText)
  | .ok (.bytes _) => throw .undecodable
  | .error fault => throw (.config { cause := .unreadable fault, source := p.toText })

/-- The rule set of rule files. -/
def loadRules (paths : List Path) (defines : Table Text) : Attempt RuleSet := do
  Attempt.ofExcept .config (RuleSet.ofDraft (← paths.foldlM readConfig {}) defines)

namespace Session

/-- The sandbox that settings ask for. -/
def openSandbox (cwd : Location) (s : Settings) : Attempt Sandbox := do
  if !s.dryRun then return .live cwd
  match s.sandboxRoot with
  | some root => Attempt.ofExcept .file (Sandbox.below cwd root)
  | none => Attempt.ofExcept .file (Sandbox.below cwd (← Attempt.request .scratch))

/-- The session for settings. -/
def start (cwd : Location) (settings : Settings) : Attempt Session := do
  let rules ← loadRules (configPaths settings.patchRoot) settings.defines
  let sandbox ← openSandbox cwd settings
  return { settings, rules, sandbox, matching := ← Attempt.ofExcept .matching settings.matching }

/-- The store of the session. -/
def store (s : Session) : Store := ⟨s.settings.patchRoot, s.sandbox⟩

/-- Whether the target tree has something at a path. -/
def lookUp (root : Path) (operand : Text) : Script (Except FileFault Bool) := do
  match ← Script.request (.probe (root.join (Path.ofText (trimWhile (· == '/') operand)))) with
  | .ok kind => return .ok kind.isSome
  | .error fault => return .error fault

/-- The facts about a target tree, as far as rules may ask for them. -/
def surveyFacts (rules : RuleSet) (root : Path) (defines : Table Text) : Attempt Facts := do
  let known ← rules.existenceOperands.mapM fun operand => do
    return (operand, ← ExceptT.lift (lookUp root operand))
  return { existence := fun operand => (Table.get? operand known).getD (.ok false), defines }

/-- What the rules say about a path. -/
def resolve (s : Session) (facts : Facts) (path : Text) : Attempt Resolution :=
  Attempt.ofExcept Fault.ofRule (s.rules.evaluate path facts)

end Session

end Regraft
