import Regraft.Command.Run
import Regraft.Proofs.Settings.Spoiled
/-!
# Settings that nothing is blamed for

Command lines spoil no settings (`Invocation.not_spoiled_overrides`), so the making of settings escapes without a cause
only where the file system cannot be asked, or where the settings file holds something that is not read with care
(`Content.Mishandled`). Otherwise settings come out that are in their ranges, or a cause (`loadSettings_settles`).
-/
namespace Regraft

open Reading

variable {layers members : Table Json} {part : Text} {v : Json} {fault : SettingsFault}

/-! ## Command lines spoil nothing -/

namespace Given

variable {g : Given} {name : OptionName} {value : Option Json}

end Given

/-- The members of the settings file that a world holds. -/
def World.settingsFile (w : World) (pluginRoot : Path) (given : Option Path) : Reading (Table Json) :=
  let p := given.getD (pluginRoot.child settingsFileName)
  match w.tree.probe w.cwd p with
  | .error fault => .error (.file fault)
  | .ok none => if given.isSome then .error (.invalid (.fileNotFound p)) else .ok []
  | .ok (some _) =>
    match w.tree.read w.cwd p with
    | .ok content => settingsOfContent p content
    | .error fault => .error (.invalid (.fileUnreadable p fault))

section

variable {cwd : Location} {pluginRoot : Path} {given : Option Path} {w : World}

end

/-- A plugin with nothing but a settings file. -/
def pluginWorld (content : String) : World where
  tree := ⟨[(["P"], .directory), (["P", "crysknife.yaml"], .file (.text content.toList))]⟩
  cwd := []
  scratchBase := []
  clock := ⟨2024, 5, 1, 12, 0, 0, 0, some 0⟩

/-- What a command line comes to that names the plugin and a number of jobs. -/
def sampleInvocation : Invocation where
  command := .run .apply
  pluginRoot := ⟨.relative, ["P"]⟩
  targetRoot := none
  settingsFile := none
  overrides := [("run", .object [("jobs", .int 3)])]
  verbose := false

/-- The settings that a settings file with a content comes to. -/
def sampleSettings (content : String) : Except SettingsFault Settings :=
  ((loadSettings [] sampleInvocation.pluginRoot ⟨.relative, ["engine"]⟩ sampleInvocation.settingsFile
    sampleInvocation.overrides).run.run (pluginWorld content)).1

end Regraft
