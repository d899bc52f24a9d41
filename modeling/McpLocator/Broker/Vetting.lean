import McpLocator.Broker.LaunchBinding
import McpLocator.Lib.PosixPath

namespace McpLocator.Broker

open McpLocator.Json McpLocator.Proto

/-!
# The program that is vetted and the program that runs

`resolve_command` looks for a program from the broker's directory and along the broker's `PATH`.  The
system looks for it from the directory and along the `PATH` of the process that is started.

* `Unix` — a file system, with the directory of the broker.
* `Unix.run` — the file that a command runs; `Unix.vetted` — the file that `resolve_command` returned.
* `programVetted_of_plain` — they are one file where the card changes nothing about the search.
* `programVetted_iff` — when they are one file.
-/

/-- A Unix system.  Directories are files, too. -/
structure Unix (File : Type) where
  /-- What a path leads to from a directory. -/
  find : File → String → Option File
  /-- The working directory of the broker. -/
  workDir : File
  isDirectory : File → Bool
  /-- A file that can be executed. -/
  isExecutable : File → Bool
  /-- Where a name is looked up when there is no `PATH`. -/
  defaultPath : List String
  /-- A path from the root leads to the same file from everywhere. -/
  find_rooted : ∀ dir dir' path, path.toList.head? = some '/' → find dir path = find dir' path

/-- `Path::join` -/
def joinPath (dir name : String) : String := String.ofList (PosixPath.push dir.toList name.toList)

/-- A command with a separator is a path. -/
def isPath (program : String) : Bool := program.toList.contains '/'

namespace Unix

variable {File : Type}

/-! ### The program that runs -/

/-- The directory of a process. -/
def childDir (unix : Unix File) (cwd : Option String) : Option File :=
  match cwd with
  | none => some unix.workDir
  | some path => (unix.find unix.workDir path).filter unix.isDirectory

/-- The `PATH` of a process: the card's, or the broker's. -/
def childPath (lookup : Lookup) (env : List (String × String)) : Option String :=
  (env.lookup "PATH").orElse fun _ => lookup "PATH"

/-- The directories that a `PATH` names, empty entries among them. -/
def searchDirs (unix : Unix File) (path : Option String) : List String :=
  match path with
  | none => unix.defaultPath
  | some path => (path.toList.splitOn ':').map String.ofList

/-- A name in a directory of a `PATH`; an empty entry is the working directory. -/
def candidate (dir name : String) : String := if dir = "" then name else joinPath dir name

/-- The file at a path, if it can be executed. -/
def executableAt (unix : Unix File) (dir : File) (path : String) : Option File :=
  (unix.find dir path).filter unix.isExecutable

/-- The file that the system runs for a program, from a directory and along a `PATH`. -/
def exec (unix : Unix File) (dir : File) (path : Option String) (program : String) : Option File :=
  if isPath program then unix.executableAt dir program
  else if program = "" then none
  else (unix.searchDirs path).findSome? fun entry => unix.executableAt dir (candidate entry program)

/-- The file that a command runs, when it is spawned. -/
def run (unix : Unix File) (lookup : Lookup) (command : Command) : Option File :=
  (unix.childDir command.currentDir).bind fun dir =>
    unix.exec dir (childPath lookup command.env) command.program

/-! ### The program that is vetted -/

/-- The machine of a catalog, with the paths of this system. -/
def host (unix : Unix File) (rest : Host) : Host :=
  { rest with windows := false, join := joinPath,
              pathExists := fun path => (unix.find unix.workDir path).isSome }

/-- The file that `resolve_command` returned. -/
def vetted (unix : Unix File) (rest : Host) (lookup : Lookup) (program : String) : Option File :=
  (resolveCommand (unix.host rest) program lookup).bind (unix.find unix.workDir)

/-- **What is started is what was vetted.** -/
def ProgramVetted (unix : Unix File) (rest : Host) (lookup : Lookup) (entry : Entry) : Prop :=
  ∀ piped command file, spawnCommand entry piped = .ok command → unix.run lookup command = some file →
    unix.vetted rest lookup command.program = some file

variable {unix : Unix File} {rest : Host} {lookup : Lookup} {program : String}

/-- The `PATH` that `resolve_command` searches. -/
def brokerPath (lookup : Lookup) : String :=
  ((lookup "PATH").orElse fun _ => lookup "Path").getD ""

theorem vetted_of_path (h : isPath program = true) :
    unix.vetted rest lookup program = unix.find unix.workDir program := by
  have hresolve : resolveCommand (unix.host rest) program lookup =
      if (unix.find unix.workDir program).isSome then some program else none := by
    unfold resolveCommand
    unfold isPath at h
    simp only [h, Bool.true_or, if_true]
    rfl
  rw [vetted, hresolve]
  cases hfile : unix.find unix.workDir program with
  | none => rfl
  | some file => simpa using hfile

/-- The first path that exists leads to the first file there is. -/
theorem findSome?_exists {α β γ : Type} (g : α → β) (f : β → Option γ) (xs : List α) :
    (xs.findSome? fun x => if (f (g x)).isSome then some (g x) else none).bind f =
      xs.findSome? fun x => f (g x) := by
  induction xs with
  | nil => rfl
  | cons x xs ih =>
    rw [List.findSome?_cons, List.findSome?_cons]
    cases hfile : f (g x) with
    | none => simpa [hfile] using ih
    | some file => simp [hfile]

theorem vetted_of_name (h : isPath program = false) : unix.vetted rest lookup program =
    (nonEmptyParts ':' (brokerPath lookup)).findSome? fun dir =>
      unix.find unix.workDir (joinPath dir program) := by
  rw [← findSome?_exists (fun dir => joinPath dir program) (unix.find unix.workDir), vetted]
  congr 1
  unfold isPath at h
  unfold resolveCommand
  have hwindows : (unix.host rest).windows = false := rfl
  simp only [h, hwindows, Bool.false_and, Bool.or_false, Bool.false_eq_true, if_false]
  refine congrArg (fun f => List.findSome? f _) (funext fun dir => ?_)
  -- there is one extension, the empty one
  rw [List.findSome?_cons, List.findSome?_nil, String.append_empty]
  have hexists : (unix.host rest).pathExists ((unix.host rest).join dir program) =
      (unix.find unix.workDir (joinPath dir program)).isSome := rfl
  rw [hexists]
  cases (unix.find unix.workDir (joinPath dir program)).isSome <;> rfl

/-! ### When the two are one file -/

section Agreement

variable {entry : Entry} {launch : Launch}

/-- The first file of a name that can be executed, along a `PATH` and from a directory. -/
def FirstExecutable (unix : Unix File) (dir : File) (path : Option String) (name : String) (file : File) :
    Prop :=
  ∃ before entry after, unix.searchDirs path = before ++ entry :: after ∧
    unix.executableAt dir (candidate entry name) = some file ∧
      ∀ x ∈ before, unix.executableAt dir (candidate x name) = none

/-- The first file of a name along the `PATH` of the broker, empty entries left out. -/
def FirstFile (unix : Unix File) (lookup : Lookup) (name : String) (file : File) : Prop :=
  ∃ before entry after, nonEmptyParts ':' (brokerPath lookup) = before ++ entry :: after ∧
    unix.find unix.workDir (joinPath entry name) = some file ∧
      ∀ x ∈ before, unix.find unix.workDir (joinPath x name) = none

/-- The process is started for what the launch stanza says. -/
theorem programVetted_iff_exec (hlaunch : entry.card.launch = some launch) :
    unix.ProgramVetted rest lookup entry ↔ ∀ dir, unix.childDir launch.cwd = some dir → ∀ file,
      unix.exec dir (childPath lookup (launchEnv entry.expanded.1)) launch.command = some file →
        unix.vetted rest lookup launch.command = some file := by
  have hbuilt : ∀ piped, spawnCommand entry piped = .ok
      { program := launch.command, args := launch.args.getD [], currentDir := launch.cwd,
        env := launchEnv entry.expanded.1, piped } := by
    intro piped
    rw [spawnCommand, hlaunch]
  constructor
  · intro h dir hdir file hfile
    refine h true _ file (hbuilt true) ?_
    rw [run, hdir]
    exact hfile
  · intro h piped command file hcommand hfile
    obtain rfl := Except.ok.inj ((hbuilt piped).symm.trans hcommand)
    obtain ⟨dir, hdir, hexec⟩ := Option.bind_eq_some_iff.mp hfile
    exact h dir hdir file hexec

/-- **What is started is what was vetted, exactly if a path leads to one file from both directories, or
    the first executable file along the one `PATH` is the first file along the other.** -/
theorem programVetted_iff (hlaunch : entry.card.launch = some launch) :
    unix.ProgramVetted rest lookup entry ↔ ∀ dir, unix.childDir launch.cwd = some dir →
      (isPath launch.command = true → launch.cwd = none ∨ launch.command.toList.head? = some '/' ∨
        ∀ file, unix.executableAt dir launch.command = some file →
          unix.find unix.workDir launch.command = some file) ∧
      (isPath launch.command = false → launch.command ≠ "" → ∀ file,
        unix.FirstExecutable dir (childPath lookup (launchEnv entry.expanded.1)) launch.command file →
          unix.FirstFile lookup launch.command file) := by
  rw [programVetted_iff_exec hlaunch]
  refine forall_congr' fun dir => forall_congr' fun hdir => ?_
  cases hpath : isPath launch.command with
  | true =>
    simp only [exec, hpath, if_true, vetted_of_path hpath, true_imp_iff, Bool.true_eq_false, false_imp_iff,
      and_true]
    constructor
    · exact fun h => .inr (.inr h)
    · rintro (hcwd | hrooted | h) file hfile
      · -- the directory is the broker's
        rw [hcwd] at hdir
        obtain rfl : unix.workDir = dir := Option.some.inj hdir
        exact (Option.filter_eq_some_iff.mp hfile).1
      · rw [unix.find_rooted unix.workDir dir launch.command hrooted]
        exact (Option.filter_eq_some_iff.mp hfile).1
      · exact h file hfile
  | false =>
    simp only [exec, hpath, vetted_of_name hpath, Bool.false_eq_true, if_false, false_imp_iff, true_and,
      true_imp_iff]
    -- a name that is empty is not found
    by_cases hempty : launch.command = ""
    · simp [hempty]
    · rw [forall_prop_of_true hempty]
      refine forall_congr' fun file => ?_
      rw [if_neg hempty]
      exact imp_congr List.findSome?_eq_some_iff List.findSome?_eq_some_iff

/-- A `PATH` without empty entries names the directories that are searched for the check. -/
theorem searchDirs_eq_nonEmptyParts {path : String} (h : [] ∉ path.toList.splitOn ':') :
    unix.searchDirs (some path) = nonEmptyParts ':' path := by
  refine (List.filter_eq_self.mpr fun part hpart => ?_).symm
  obtain ⟨chars, hchars, rfl⟩ := List.mem_map.mp hpart
  have hne : String.ofList chars ≠ "" := by
    intro hempty
    have hnil : chars = [] := by simpa using hempty
    exact h (hnil ▸ hchars)
  simpa using hne

/-- A card that gives no directory and no `PATH`, where every file of its name can be executed and the
    broker's `PATH` has no empty entries, runs what was vetted. -/
theorem programVetted_of_plain {path : String} (hlaunch : entry.card.launch = some launch)
    (hcwd : launch.cwd = none) (henv : (launchEnv entry.expanded.1).lookup "PATH" = none)
    (hpath : lookup "PATH" = some path) (hentries : [] ∉ path.toList.splitOn ':')
    (hexecutable : ∀ dir ∈ nonEmptyParts ':' path, ∀ file,
      unix.find unix.workDir (joinPath dir launch.command) = some file → unix.isExecutable file = true) :
    unix.ProgramVetted rest lookup entry := by
  have hchild : childPath lookup (launchEnv entry.expanded.1) = some path := by
    rw [childPath, henv, hpath]
    rfl
  have hbroker : brokerPath lookup = path := by
    rw [brokerPath, hpath]
    rfl
  rw [programVetted_iff hlaunch]
  refine fun dir hdir => ⟨fun _ => .inl hcwd, fun _ _ file hfile => ?_⟩
  rw [hcwd] at hdir
  obtain rfl : unix.workDir = dir := Option.some.inj hdir
  obtain ⟨before, part, after, hsplit, hpart, hbefore⟩ := hfile
  rw [hchild, searchDirs_eq_nonEmptyParts hentries] at hsplit
  -- a file that is there can be executed
  have hsame : ∀ x ∈ nonEmptyParts ':' path, unix.executableAt unix.workDir (candidate x launch.command) =
      unix.find unix.workDir (joinPath x launch.command) := by
    intro x hx
    have hne : x ≠ "" := by simpa using (List.mem_filter.mp hx).2
    rw [candidate, if_neg hne, executableAt]
    cases hfile : unix.find unix.workDir (joinPath x launch.command) with
    | none => rfl
    | some file => rw [Option.filter_some, if_pos (hexecutable x hx file hfile)]
  refine ⟨before, part, after, hbroker.symm ▸ hsplit, ?_, fun x hx => ?_⟩
  · rw [← hsame part (by simp [hsplit])]
    exact hpart
  · rw [← hsame x (by simp [hsplit, hx])]
    exact hbefore x hx

end Agreement

end Unix

/-! ### A program that was not vetted -/

/-- A card that looks for a program along a `PATH` of its own. -/
def searchCard (program path : String) : JsonValue :=
  ⟨.object [("description", .string "Notes"),
    ("local", .object [("launch", .object [("command", .string program),
      ("env", .object [("PATH", .string path)]), ("type", .string "stdio")])]),
    ("name", .string "com.example.notes"), ("version", .string "1.0.0")], by
      have houter : ["description", "local", "name", "version"].Pairwise (· < ·) := by decide
      have hinner : ["command", "env", "type"].Pairwise (· < ·) := by decide
      simp only [Value.wf_object, List.map_cons, List.map_nil, houter, hinner, List.forall_mem_cons,
        true_and]
      simp [Value.wf]⟩

/-- Its entry on a system. -/
def searchEntry {File : Type} (unix : Unix File) (program path : String) : Entry :=
  let card : Card :=
    { name := "com.example.notes", version := "1.0.0", description := "Notes", title := none,
      localBlock := some { launch := some { launchType := .stdio, command := program, args := none,
                                            cwd := none, shared := none },
                           endpoint := none, liveness := none, lifetime := none, consent := none },
      remotes := none }
  { name := "com.example.notes", card, expanded := searchCard program path, version := "1.0.0",
    tier := .user, path := "com.example.notes.card.json",
    orphaned := isOrphaned (unix.host (hostWith (searchCard program path))) card oneRoot.lookup,
    shadowed := [], launchHash := launchHash String.ofList (searchCard program path).1 }

theorem mem_searchEntry {File : Type} (unix : Unix File) (program path : String)
    (hexpand : expand (searchCard program path) oneRoot.lookup = searchCard program path) :
    searchEntry unix program path ∈
      (enumerate (unix.host (hostWith (searchCard program path))) String.ofList oneRoot).entries := by
  have hvalid : validate (searchCard program path).1 = .ok (searchEntry unix program path).card := rfl
  have hexpanded : validate (expand (searchCard program path) oneRoot.lookup).1 =
      .ok (searchEntry unix program path).card := by
    rw [hexpand, hvalid]
  have hparse : parseCardFile (unix.host (hostWith (searchCard program path)))
      "com.example.notes.card.json" oneRoot.lookup =
        .ok ((searchEntry unix program path).card, expand (searchCard program path) oneRoot.lookup) :=
    parse_hostWith oneRoot.lookup hvalid rfl hexpanded
  have hfiles : orderedFiles (unix.host (hostWith (searchCard program path))) oneRoot.roots =
      [(⟨.user, "servers"⟩, "com.example.notes.card.json")] :=
    orderedFiles_hostWith (searchCard program path)
  rw [entries_of_single hfiles hparse rfl, hexpand]
  exact List.mem_singleton.mpr rfl

/-- A system with two programs of one name, each file called by its path. -/
def twoPrograms : Unix String :=
  { find := fun _ path => if path ∈ ["/", "/usr/bin/notes", "/opt/notes/notes"] then some path else none
    workDir := "/", isDirectory := fun file => file == "/", isExecutable := fun file => file != "/"
    defaultPath := ["/bin", "/usr/bin"]
    find_rooted := fun _ _ _ _ => rfl }

theorem not_programVetted : ¬ ∀ (File : Type) (unix : Unix File) (rest : Host)
    (sha256 : List Char → String) (options : EnumerateOptions) (entry : Entry),
      entry ∈ (enumerate (unix.host rest) sha256 options).entries → entry.orphaned = false →
        entry.card.launch.isSome = true → unix.ProgramVetted rest options.lookup entry := by
  intro h
  have hvetted := h String twoPrograms _ String.ofList oneRoot (searchEntry twoPrograms "notes" "/opt/notes")
    (mem_searchEntry twoPrograms "notes" "/opt/notes" rfl) (by decide +kernel) rfl
  have hother := hvetted true _ "/opt/notes/notes" rfl (by decide +kernel)
  revert hother
  decide +kernel

theorem programVetted_notes :
    twoPrograms.ProgramVetted (hostWith (searchCard "/usr/bin/notes" "/opt/notes")) oneRoot.lookup
      (searchEntry twoPrograms "/usr/bin/notes" "/opt/notes") := by
  have hlaunch : (searchEntry twoPrograms "/usr/bin/notes" "/opt/notes").card.launch =
      some { launchType := .stdio, command := "/usr/bin/notes", args := none, cwd := none, shared := none } :=
    rfl
  refine (Unix.programVetted_iff hlaunch).mpr fun dir _ => ⟨fun _ => .inl rfl, fun hname => ?_⟩
  exact absurd hname (by decide)

end McpLocator.Broker
