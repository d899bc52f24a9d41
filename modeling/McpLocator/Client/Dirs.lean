import McpLocator.Broker.Dirs
import McpLocator.Lib.WindowsJoin

namespace McpLocator.Client

open LexicalPath Broker

/-!
# Registry and state directories (dirs.ts)

* `resolveRoots`, `resolveStateDir` — the directories for an environment.
* `dirs_agree_iff` — exactly when both sides look in the same places.  The broker prefers
  `USERPROFILE` where the client prefers `HOME`; `dirs_differ` is an environment with both.
-/

/-- `path.win32.join` or `path.posix.join`. -/
def joinerFor : Platform → List (List Char) → List Char
  | .windows => WindowsPath.join
  | _ => PosixPath.join

/-- The home directory, else the profile directory, else what the system says. -/
def home (env : Lookup) (homedir : String) : List Char :=
  ((envPath env "HOME").or (envPath env "USERPROFILE")).getD homedir.toList

/-- Registry directories in tier order. -/
def resolveRoots (platform : Platform) (env : Lookup) (homedir : String) : List Root :=
  let join := joinerFor platform
  let home := home env homedir
  let root (tier : Tier) (path : List Char) : Root := ⟨tier, String.ofList path⟩
  match platform with
  | .windows =>
    let programData := (envPath env "ProgramData").getD "C:\\ProgramData".toList
    let localAppData := (envPath env "LOCALAPPDATA").getD
      (join [home, "AppData".toList, "Local".toList])
    let localLow := join [home, "AppData".toList, "LocalLow".toList]
    [root .system (join [programData, app, servers]),
     root .user (join [localAppData, app, servers]),
     root .low (join [localLow, app, servers])]
  | .macos =>
    [root .system (join ["/Library".toList, "Application Support".toList, app, servers]),
     root .user (join [home, "Library".toList, "Application Support".toList, app, servers])]
  | .linux =>
    let xdgDataHome := (envPath env "XDG_DATA_HOME").getD
      (join [home, ".local".toList, "share".toList])
    let xdgDataDirs := (((envPath env "XDG_DATA_DIRS").getD
      "/usr/local/share:/usr/share".toList).splitOn ':').filter fun dir => !dir.isEmpty
    xdgDataDirs.map (fun dir => root .system (join [dir, app, servers])) ++
      [root .user (join [xdgDataHome, app, servers])]

/-- The directory that the broker keeps its state in. -/
def resolveStateDir (platform : Platform) (env : Lookup) (homedir : String) : String :=
  let join := joinerFor platform
  let home := home env homedir
  let state := "state".toList
  String.ofList <| match platform with
  | .windows =>
    let localAppData := (envPath env "LOCALAPPDATA").getD
      (join [home, "AppData".toList, "Local".toList])
    join [localAppData, app, state]
  | .macos => join [home, "Library".toList, "Application Support".toList, app, state]
  | .linux => join [(envPath env "XDG_STATE_HOME").getD (join [home, ".local".toList, state]), app]

/-! ### Where the directories are -/

/-- The names of directories that either side puts below others. -/
def dirNames : List (List Char) :=
  [app, servers, "AppData".toList, "Local".toList, "LocalLow".toList, "Library".toList,
    "Application Support".toList, ".local".toList, "share".toList, "state".toList]

theorem app_eq : app = ['m', 'c', 'p', '-', 'l', 'o', 'c', 'a', 't', 'o', 'r'] :=
  String.toList_ofList

theorem servers_eq : servers = ['s', 'e', 'r', 'v', 'e', 'r', 's'] := String.toList_ofList


section Posix

open PosixPath

variable {name next : Segment} {names : List Segment}

theorem posix_names (h : names ≠ [] ∧ names ⊆ dirNames) : IsNames isSep names := by
  have hall : IsNames isSep dirNames := by
    rw [dirNames, app_eq, servers_eq]
    simp only [String.reduceToList]
    decide
  exact ⟨h.1, fun seg hseg => hall.2 seg (h.2 hseg)⟩

theorem posix_join (h : names ≠ [] ∧ names ⊆ dirNames) (base : List Char) :
    read (join (base :: names)) = (read base).append names :=
  read_join (posix_names h) base

theorem posix_push (p : List Char) (h : name ∈ dirNames) :
    read (push p name) = (read p).append [name] := by
  have := read_push (@posix_names [name] ⟨by simp, by simpa using h⟩) p
  rwa [joinWith, List.intercalate_singleton] at this

/-- The directories below `base` on either side. -/
theorem posix_dirs (base : List Char) :
    read (push (push base app) servers) = (read base).append [app, servers] ∧
    read (join [base, app, servers]) = (read base).append [app, servers] := by
  rw [posix_push _ (by simp [dirNames]), posix_push _ (by simp [dirNames]), Lexical.append_append]
  exact ⟨rfl, posix_join (by simp [dirNames]) base⟩

theorem posix_pushed (base : List Char) (hname : name ∈ dirNames) (hnext : next ∈ dirNames) :
    read (push (push base name) next) = (read base).append [name, next] := by
  rw [posix_push _ hnext, posix_push _ hname, Lexical.append_append]
  rfl

end Posix

section Windows

open WindowsPath

variable {name next : Segment} {names : List Segment}

theorem plain_names (h : names ≠ [] ∧ names ⊆ dirNames) : IsPlain names := by
  have hall : IsPlain dirNames := by
    rw [dirNames, app_eq, servers_eq]
    simp only [String.reduceToList]
    decide
  exact ⟨⟨h.1, fun seg hseg => hall.1.2 seg (h.2 hseg)⟩, fun seg hseg => hall.2 seg (h.2 hseg)⟩

theorem windows_push (p : List Char) (h : name ∈ dirNames) :
    read (push p name) = (read p).append [name] := by
  have := read_push (@plain_names [name] ⟨by simp, by simpa using h⟩) p
  rwa [joinWith, List.intercalate_singleton] at this

theorem windows_pushed (base : List Char) (hname : name ∈ dirNames) (hnext : next ∈ dirNames) :
    read (push (push base name) next) = (read base).append [name, next] := by
  rw [windows_push _ hnext, windows_push _ hname, Base.append_append]
  rfl

theorem windows_join (base : List Char) (hname : name ∈ dirNames) (hnext : next ∈ dirNames) :
    joinBase (join [base, name, next]) = (joinBase base).append [name, next] :=
  joinBase_join (plain_names ⟨by simp, by simp [hname, hnext]⟩) base

/-- Two directories below `base` for the broker and `base'` for the client are the same if the bases
    are. -/
theorem windows_dirs {base base' : List Char} (hname : name ∈ dirNames) (hnext : next ∈ dirNames) :
    lexical .windows (push (push base name) next) = lexical .windows (join [base', name, next]) ↔
      read base = joinBase base' := by
  show (read (push (push base name) next)).close = (read (join [base', name, next])).close ↔ _
  have hnames : IsPlain [name, next] := plain_names ⟨by simp, by simp [hname, hnext]⟩
  rw [windows_pushed base hname hnext, read_join hnames]
  exact Base.close_append_inj

end Windows

/-! ### When they are the same -/

/-- Both sides start from the same directory: the broker from `r`, the client from `t`. -/
def SameBase : Platform → List Char → List Char → Prop
  | .windows, r, t => WindowsPath.read r = WindowsPath.joinBase t
  | _, r, t => PosixPath.read r = PosixPath.read t

/-- What the broker takes for the home directory and what the client takes for it are the same. -/
def SameHome (platform : Platform) (env : Lookup) : Prop :=
  ∀ r t, (envPath env "USERPROFILE").or (envPath env "HOME") = some r →
    (envPath env "HOME").or (envPath env "USERPROFILE") = some t → SameBase platform r t

/-- The environments in which both sides look in the same places. -/
def DirsAgree (env : Lookup) : Platform → Prop
  | .windows => SameHome .windows env ∧ ∀ name ∈ ["ProgramData", "LOCALAPPDATA"], ∀ p,
      envPath env name = some p → WindowsPath.Joinable p
  | .macos => SameHome .macos env
  | .linux => SameHome .linux env ∨
      (envPath env "XDG_DATA_HOME").isSome = true ∧ (envPath env "XDG_STATE_HOME").isSome = true

/-- The same roots, up to lexical normalization. -/
def SameRoots (platform : Platform) (env : Lookup) (homedir : String) : Prop :=
  (Broker.resolveRoots platform env).map (Broker.Root.located platform) =
    (resolveRoots platform env homedir).map (Broker.Root.located platform)

/-- The same state directory, up to lexical normalization. -/
def SameStateDir (platform : Platform) (env : Lookup) (homedir : String) : Prop :=
  lexical platform (Broker.resolveStateDir platform env).toList =
    lexical platform (resolveStateDir platform env homedir).toList

section Homes

variable {env : Lookup} (h : (env "HOME").isSome = true ∨ (env "USERPROFILE").isSome = true)

include h

/-- Both sides find a home directory. -/
theorem exists_homes (homedir : String) : ∃ r t, Broker.home env = r ∧ home env homedir = t ∧
    ∀ platform, SameHome platform env ↔ SameBase platform r t := by
  have hhome : (envPath env "HOME").isSome = (env "HOME").isSome := Option.isSome_map
  have hprofile : (envPath env "USERPROFILE").isSome = (env "USERPROFILE").isSome :=
    Option.isSome_map
  rw [← hhome, ← hprofile] at h
  unfold Broker.home home SameHome
  cases hh : envPath env "HOME" with
  | none =>
    cases hp : envPath env "USERPROFILE" with
    | none => rw [hh, hp] at h; simp at h
    | some p => exact ⟨p, p, rfl, rfl, fun platform => by simp⟩
  | some q =>
    cases hp : envPath env "USERPROFILE" with
    | none => exact ⟨q, q, rfl, rfl, fun platform => by simp⟩
    | some p => exact ⟨p, q, rfl, rfl, fun platform => by simp⟩

end Homes

theorem linux_iff {env : Lookup}
    (h : (env "HOME").isSome = true ∨ (env "USERPROFILE").isSome = true) (homedir : String) :
    SameRoots .linux env homedir ∧ SameStateDir .linux env homedir ↔ DirsAgree env .linux := by
  obtain ⟨r, t, hr, ht, hsame⟩ := exists_homes h homedir
  have hsame : SameHome .linux env ↔ PosixPath.read r = PosixPath.read t := hsame .linux
  have hroots : SameRoots .linux env homedir ↔
      PosixPath.read r = PosixPath.read t ∨ (envPath env "XDG_DATA_HOME").isSome = true := by
    simp only [SameRoots, Broker.resolveRoots, resolveRoots, List.map_append, List.map_map,
      List.map_cons, List.map_nil, Function.comp_def, Broker.Root.located_ofList, lexical, pathJoin,
      joinerFor, posix_dirs, List.append_cancel_left_eq, List.cons.injEq, Prod.mk.injEq, true_and,
      and_true, Lexical.append_right_cancel, hr, ht]
    cases envPath env "XDG_DATA_HOME" with
    | none =>
      rw [Option.getD_none, Option.getD_none,
        posix_pushed _ (by simp [dirNames]) (by simp [dirNames]), posix_join (by simp [dirNames]),
        Lexical.append_right_cancel]
      simp
    | some x => simp
  have hstate : SameStateDir .linux env homedir ↔
      PosixPath.read r = PosixPath.read t ∨ (envPath env "XDG_STATE_HOME").isSome = true := by
    simp only [SameStateDir, Broker.resolveStateDir, resolveStateDir, String.toList_ofList, lexical,
      pathJoin, joinerFor, hr, ht]
    rw [posix_push _ (by simp [dirNames]), posix_join (by simp [dirNames]),
      Lexical.append_right_cancel]
    cases envPath env "XDG_STATE_HOME" with
    | none =>
      rw [Option.getD_none, Option.getD_none,
        posix_pushed _ (by simp [dirNames]) (by simp [dirNames]), posix_join (by simp [dirNames]),
        Lexical.append_right_cancel]
      simp
    | some x => simp
  rw [hroots, hstate, DirsAgree, hsame]
  exact or_and_left.symm

theorem macos_iff {env : Lookup}
    (h : (env "HOME").isSome = true ∨ (env "USERPROFILE").isSome = true) (homedir : String) :
    SameRoots .macos env homedir ∧ SameStateDir .macos env homedir ↔ DirsAgree env .macos := by
  obtain ⟨r, t, hr, ht, hsame⟩ := exists_homes h homedir
  have hsame : SameHome .macos env ↔ PosixPath.read r = PosixPath.read t := hsame .macos
  -- the broker pushes the two names of the support directory as one path
  have hnames : IsNames PosixPath.isSep ["Library".toList, "Application Support".toList] :=
    posix_names (by simp [dirNames])
  have hsupport : PosixPath.read (PosixPath.push r "Library/Application Support".toList) =
      (PosixPath.read r).append ["Library".toList, "Application Support".toList] :=
    PosixPath.read_push hnames r
  have hsystem : PosixPath.read (PosixPath.join ["/Library".toList, "Application Support".toList,
      app, servers]) =
      (PosixPath.read "/Library/Application Support".toList).append [app, servers] := by
    rw [posix_join (by simp [dirNames])]
    simp only [String.reduceToList]
    rfl
  have hroots : SameRoots .macos env homedir ↔ PosixPath.read r = PosixPath.read t := by
    simp only [SameRoots, Broker.resolveRoots, resolveRoots, List.map_cons, List.map_nil,
      Broker.Root.located_ofList, lexical, pathJoin, joinerFor, posix_dirs, hsystem, hsupport, hr,
      ht, List.cons.injEq, Prod.mk.injEq, true_and, and_true]
    rw [posix_join (by simp [dirNames]), Lexical.append_append]
    exact Lexical.append_right_cancel
  have hstate : SameStateDir .macos env homedir ↔ PosixPath.read r = PosixPath.read t := by
    simp only [SameStateDir, Broker.resolveStateDir, resolveStateDir, String.toList_ofList, lexical,
      pathJoin, joinerFor, hr, ht]
    rw [posix_pushed _ (by simp [dirNames]) (by simp [dirNames]), hsupport,
      posix_join (by simp [dirNames]), Lexical.append_append]
    exact Lexical.append_right_cancel
  rw [hroots, hstate, DirsAgree, hsame]
  exact and_self_iff

theorem windows_iff {env : Lookup}
    (h : (env "HOME").isSome = true ∨ (env "USERPROFILE").isSome = true) (homedir : String) :
    SameRoots .windows env homedir ∧ SameStateDir .windows env homedir ↔
      DirsAgree env .windows := by
  obtain ⟨r, t, hr, ht, hsame⟩ := exists_homes h homedir
  have hsame : SameHome .windows env ↔ WindowsPath.read r = WindowsPath.joinBase t := hsame .windows
  -- where `LOCALAPPDATA` is not set, its place is below the home directory
  have hlocal : WindowsPath.read ((envPath env "LOCALAPPDATA").getD (WindowsPath.push
        (WindowsPath.push r "AppData".toList) "Local".toList)) =
      WindowsPath.joinBase ((envPath env "LOCALAPPDATA").getD
        (WindowsPath.join [t, "AppData".toList, "Local".toList])) ↔
      (envPath env "LOCALAPPDATA" = none → SameHome .windows env) ∧
        ∀ p, envPath env "LOCALAPPDATA" = some p → WindowsPath.Joinable p := by
    cases envPath env "LOCALAPPDATA" with
    | none =>
      rw [Option.getD_none, Option.getD_none,
        windows_pushed _ (by simp [dirNames]) (by simp [dirNames]),
        windows_join _ (by simp [dirNames]) (by simp [dirNames]),
        WindowsPath.Base.append_right_cancel, hsame]
      simp
    | some p => simp [WindowsPath.read_eq_joinBase_iff]
  have hdata : WindowsPath.read ((envPath env "ProgramData").getD "C:\\ProgramData".toList) =
      WindowsPath.joinBase ((envPath env "ProgramData").getD "C:\\ProgramData".toList) ↔
      ∀ p, envPath env "ProgramData" = some p → WindowsPath.Joinable p := by
    cases envPath env "ProgramData" with
    | none => exact iff_of_true rfl nofun
    | some p => simp [WindowsPath.read_eq_joinBase_iff]
  have hlow : WindowsPath.read (WindowsPath.push (WindowsPath.push r "AppData".toList)
        "LocalLow".toList) = WindowsPath.joinBase (WindowsPath.join
        [t, "AppData".toList, "LocalLow".toList]) ↔ SameHome .windows env := by
    rw [windows_pushed _ (by simp [dirNames]) (by simp [dirNames]),
      windows_join _ (by simp [dirNames]) (by simp [dirNames]),
      WindowsPath.Base.append_right_cancel, hsame]
  have hroots : SameRoots .windows env homedir ↔ (∀ p, envPath env "ProgramData" = some p →
      WindowsPath.Joinable p) ∧ ((envPath env "LOCALAPPDATA" = none → SameHome .windows env) ∧
        ∀ p, envPath env "LOCALAPPDATA" = some p → WindowsPath.Joinable p) ∧
      SameHome .windows env := by
    rw [← hdata, ← hlocal, ← hlow]
    simp only [SameRoots, Broker.resolveRoots, resolveRoots, List.map_cons, List.map_nil,
      Broker.Root.located_ofList, pathJoin, joinerFor, hr, ht, List.cons.injEq, Prod.mk.injEq,
      true_and, and_true]
    rw [windows_dirs (by simp [dirNames]) (by simp [dirNames]),
      windows_dirs (by simp [dirNames]) (by simp [dirNames]),
      windows_dirs (by simp [dirNames]) (by simp [dirNames])]
  have hstate : SameStateDir .windows env homedir ↔
      (envPath env "LOCALAPPDATA" = none → SameHome .windows env) ∧
        ∀ p, envPath env "LOCALAPPDATA" = some p → WindowsPath.Joinable p := by
    rw [← hlocal]
    simp only [SameStateDir, Broker.resolveStateDir, resolveStateDir, String.toList_ofList,
      pathJoin, joinerFor, hr, ht]
    exact windows_dirs (by simp [dirNames]) (by simp [dirNames])
  rw [hroots, hstate, DirsAgree]
  constructor
  · rintro ⟨⟨hp, ⟨-, hl⟩, hh⟩, -⟩
    refine ⟨hh, fun name hname => ?_⟩
    rcases List.mem_pair.mp hname with rfl | rfl
    · exact hp
    · exact hl
  · rintro ⟨hh, hall⟩
    have hl := hall "LOCALAPPDATA" (by simp)
    exact ⟨⟨hall "ProgramData" (by simp), ⟨fun _ => hh, hl⟩, hh⟩, fun _ => hh, hl⟩

/-- **When both sides look in the same places.** -/
theorem dirs_agree_iff (platform : Platform) (env : Lookup)
    (h : (env "HOME").isSome = true ∨ (env "USERPROFILE").isSome = true) (homedir : String) :
    SameRoots platform env homedir ∧ SameStateDir platform env homedir ↔
      DirsAgree env platform := by
  cases platform with
  | windows => exact windows_iff h homedir
  | macos => exact macos_iff h homedir
  | linux => exact linux_iff h homedir

/-- An environment with a home directory and nothing else. -/
def onlyHome (name : String) : Option String := if name = "HOME" then some "/home/me" else none

theorem dirs_agree_onlyHome : SameRoots .linux onlyHome "" ∧ SameStateDir .linux onlyHome "" := by
  refine (dirs_agree_iff .linux onlyHome (.inl rfl) "").mpr (.inl fun r t hr ht => ?_)
  obtain rfl := Option.some.inj hr
  obtain rfl := Option.some.inj ht
  rfl

/-- Windows with a shell that sets `HOME` to a directory of its own. -/
def shellHome (name : String) : Option String :=
  if name = "HOME" then some "C:\\msys64\\home\\me"
  else if name = "USERPROFILE" then some "C:\\Users\\me"
  else if name = "LOCALAPPDATA" then some "C:\\Users\\me\\AppData\\Local"
  else if name = "ProgramData" then some "C:\\ProgramData"
  else none

/-- The low tier is in another place for the client. -/
theorem dirs_differ : (shellHome "HOME").isSome = true ∧ ∀ homedir,
    ¬(SameRoots .windows shellHome homedir ∧ SameStateDir .windows shellHome homedir) := by
  refine ⟨rfl, fun homedir h => ?_⟩
  have hroots : (Broker.resolveRoots .windows shellHome).map (Broker.Root.located .windows) ≠
      (resolveRoots .windows shellHome "").map (Broker.Root.located .windows) := by decide +kernel
  exact hroots h.1

end McpLocator.Client
