import McpLocator.ConsentUi.Request

namespace McpLocator.ConsentUi

/-!
# The consent dialog (main.rs of consent-ui)

* `config` — what the task dialog is told to show.
* `showDialog`, `prompt`, `main` — from a button to the exit code, which is the whole answer.
* `main_eq_allow` — which button an approval comes from.
-/

/-! ### Exit codes -/

def allow : Int := 10
def deny : Int := 20
/-- No decision. -/
def dismissed : Int := 30
def usage : Int := 2
/-- There is no prompt on this platform. -/
def unsupported : Int := 3

/-! ### The task dialog -/

def idAllow : Int := 101
def idDeny : Int := 102

inductive Icon where
  | shield | warning
deriving DecidableEq

/-- What is filled in of `TASKDIALOGCONFIG`.  There is a button for cancelling besides. -/
structure TaskDialogConfig where
  windowTitle : String
  mainIcon : Icon
  mainInstruction : String
  content : String
  buttons : List (Int × String)
  defaultButton : Int
  expandedInformation : String
  expandedControlText : String
  footer : Option String
deriving DecidableEq

def config (req : Request) : TaskDialogConfig where
  windowTitle := "mcp-locator"
  mainIcon := if req.stale then .warning else .shield
  mainInstruction := req.instruction
  content := req.content
  buttons :=
    [(idAllow, if req.stale then
        "Allow it anyway\nUse the new program. Only do this if you expected it to change."
      else "Allow\nThe server may be started by any AI client on this machine."),
     (idDeny, if req.stale then
        "Do not allow\nThe server stays blocked until you approve the change."
      else "Do not allow\nAI clients will not be able to start this server.")]
  -- a stray Enter does not approve
  defaultButton := idDeny
  expandedInformation := req.expanded
  expandedControlText := "Details"
  footer := if req.footer = "" then none else some req.footer

/-- `TaskDialogIndirect`: the button that was pressed, or the error. -/
abbrev TaskDialog := TaskDialogConfig → Except Int Int

/-- `dialog::show`. -/
def showDialog (taskDialog : TaskDialog) (req : Request) : Except Int Int :=
  match taskDialog (config req) with
  | .error code => .error code
  | .ok pressed =>
    .ok (if pressed = idAllow then allow else if pressed = idDeny then deny else dismissed)

/-- There is a task dialog on Windows only. -/
def prompt (taskDialog : Option TaskDialog) (req : Request) : Int :=
  match taskDialog with
  | none => unsupported
  | some taskDialog =>
    match showDialog taskDialog req with
    | .ok code => code
    -- a dialog that cannot be shown must never read as approval
    | .error _ => dismissed

/-- The exit code. -/
def main (taskDialog : Option TaskDialog) (args : List String) : Int :=
  match Request.parse args with
  | .error _ => usage
  | .ok req => prompt taskDialog req

/-! ### What a code means -/

/-- The user has pressed a button of the dialog that shows the request. -/
def Presses (taskDialog : Option TaskDialog) (req : Request) (button : Int) : Prop :=
  ∃ dialog, taskDialog = some dialog ∧ dialog (config req) = .ok button

section Codes

variable {taskDialog : Option TaskDialog} {req : Request} {args : List String}

theorem prompt_eq_allow : prompt taskDialog req = allow ↔ Presses taskDialog req idAllow := by
  unfold prompt Presses showDialog
  cases taskDialog with
  | none => simp [unsupported, allow]
  | some dialog =>
    cases hpressed : dialog (config req) with
    | error code => simp [hpressed, dismissed, allow]
    | ok pressed =>
      simp only [hpressed, Option.some.injEq, exists_eq_left', Except.ok.injEq]
      split
      · simp_all
      · split <;> simp_all [allow, deny, dismissed]

/-- **Only the button approves.** -/
theorem main_eq_allow : main taskDialog args = allow ↔
    ∃ req, Request.parse args = .ok req ∧ Presses taskDialog req idAllow := by
  unfold main
  cases Request.parse args with
  | error message => simp [usage, allow]
  | ok req => simp [prompt_eq_allow]

end Codes

end McpLocator.ConsentUi
