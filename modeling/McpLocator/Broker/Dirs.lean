import McpLocator.Broker.Catalog
import McpLocator.Lib.PosixPath
import McpLocator.Lib.WindowsPath

namespace McpLocator.Broker

open LexicalPath

/-!
# Registry and state directories (dirs.rs)

* `resolveRoots`, `resolveStateDir` — the directories for an environment.
* `lexical` — where a path leads, which is how the directories of the two sides are compared.
-/

/-- The platforms that the directories are chosen for; `linux` is every other one. -/
inductive Platform where
  | windows | macos | linux
deriving DecidableEq, Repr

/-- The lexical normal form of a path. -/
def lexical : Platform → List Char → Lexical
  | .windows, p => WindowsPath.lexical p
  | _, p => PosixPath.read p

/-- `Path::join` of a relative path. -/
def pathJoin : Platform → List Char → List Char → List Char
  | .windows => WindowsPath.push
  | _ => PosixPath.push

def app : List Char := "mcp-locator".toList

def servers : List Char := "servers".toList

/-- `env::var`, as a path. -/
def envPath (env : Lookup) (name : String) : Option (List Char) := (env name).map String.toList

/-- The profile directory, else the home directory, else nothing. -/
def home (env : Lookup) : List Char :=
  ((envPath env "USERPROFILE").or (envPath env "HOME")).getD []

/-- Registry directories in tier order. -/
def resolveRoots (platform : Platform) (env : Lookup) : List Root :=
  let join := pathJoin platform
  let root (tier : Tier) (path : List Char) : Root := ⟨tier, String.ofList path⟩
  match platform with
  | .windows =>
    let programData := (envPath env "ProgramData").getD "C:\\ProgramData".toList
    let localAppData := (envPath env "LOCALAPPDATA").getD
      (join (join (home env) "AppData".toList) "Local".toList)
    [root .system (join (join programData app) servers),
     root .user (join (join localAppData app) servers),
     root .low (join (join (join (join (home env) "AppData".toList) "LocalLow".toList) app) servers)]
  | .macos =>
    [root .system (join (join "/Library/Application Support".toList app) servers),
     root .user (join (join (join (home env) "Library/Application Support".toList) app) servers)]
  | .linux =>
    let xdgDataHome := (envPath env "XDG_DATA_HOME").getD
      (join (join (home env) ".local".toList) "share".toList)
    let xdgDataDirs := (envPath env "XDG_DATA_DIRS").getD "/usr/local/share:/usr/share".toList
    ((xdgDataDirs.splitOn ':').filter fun dir => !dir.isEmpty).map
        (fun dir => root .system (join (join dir app) servers)) ++
      [root .user (join (join xdgDataHome app) servers)]

/-- The directory that the broker keeps its state in. -/
def resolveStateDir (platform : Platform) (env : Lookup) : String :=
  let join := pathJoin platform
  let state := "state".toList
  String.ofList <| match platform with
  | .windows =>
    let localAppData := (envPath env "LOCALAPPDATA").getD
      (join (join (home env) "AppData".toList) "Local".toList)
    join (join localAppData app) state
  | .macos => join (join (join (home env) "Library/Application Support".toList) app) state
  | .linux => join ((envPath env "XDG_STATE_HOME").getD
      (join (join (home env) ".local".toList) state)) app

/-- What two lists of roots are compared by. -/
def Root.located (platform : Platform) (r : Root) : Tier × Lexical :=
  (r.tier, lexical platform r.path.toList)

@[simp] theorem Root.located_ofList (platform : Platform) (tier : Tier) (p : List Char) :
    (Root.mk tier (String.ofList p)).located platform = (tier, lexical platform p) := by
  simp [Root.located]

end McpLocator.Broker
