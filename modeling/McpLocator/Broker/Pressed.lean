import McpLocator.Broker.Audit
import McpLocator.Broker.Prompt
import McpLocator.ConsentUi.Dialog

namespace McpLocator.Broker

open McpLocator.Json McpLocator.Proto
open McpLocator.ConsentUi (Presses idAllow TaskDialog)

/-!
# Nothing runs that nobody allowed

The broker, its prompter (prompt.rs) and the dialog (main.rs of consent-ui), each as it is modelled by
itself.

* `Desktop` — what a question meets; `Desktop.ask_eq_allow`: an approval is a button that was pressed.
* `Prompted` — a run whose answers come from the dialog; `Prompted.press`: a grant that is written is a
  press at the prompt that is answered (`Press`).
* `launched_by_press` — what is started was allowed by the last such answer, under its name and its hash.
-/

/-! ### The desktop -/

/-- What becomes of the helper's process. -/
inductive Fate where
  | notSpawned | timedOut | killed | finished
deriving DecidableEq

/-- The machine at the time of a question; `describe` is what the signature of a file is said to be. -/
structure Desktop where
  host : Host
  lookup : Lookup
  describe : String → String
  lowIntegrity : Nat → Bool
  describeClient : Nat → Option String
  fate : Fate
  taskDialog : Option TaskDialog

namespace Desktop

def publisher (desktop : Desktop) (entry : Entry) : String :=
  publisherOf desktop.host desktop.lookup desktop.describe entry

/-- The helper is run. -/
def run (desktop : Desktop) (args : List String) : DialogEnd :=
  match desktop.fate with
  | .notSpawned => .notSpawned
  | .timedOut => .timedOut
  | .killed => .exited none
  | .finished => .exited (some (ConsentUi.main desktop.taskDialog args))

def ask (desktop : Desktop) (prompter : Prompter) (entry : Entry) (record : ConsentRecord)
    (clientPid : Option Nat) : Decision :=
  prompter.ask desktop.lowIntegrity desktop.describeClient (fun _ => desktop.run)
    (desktop.publisher entry) entry record clientPid

/-- A server without a name is not asked for. -/
theorem parse_askArgs_of_eq {entry : Entry} (h : entry.name = "") (record : ConsentRecord)
    (publisher : String) (client : Option String) :
    ConsentUi.Request.parse (askArgs entry record publisher client) = .error "--name is required" := by
  simp only [ConsentUi.Request.parse, parseFlags_askArgs, bind, Except.bind]
  exact if_pos h

variable {desktop : Desktop} {prompter : Prompter} {entry : Entry} {record : ConsentRecord}
  {clientPid : Option Nat}

/-- **An approval is a press of the button** in the dialog that the helper shows for the broker's
    request. -/
theorem ask_eq_allow (h : desktop.ask prompter entry record clientPid = .allow) :
    prompter.available = true ∧ desktop.fate = .finished ∧
      Presses desktop.taskDialog (asked entry record (desktop.publisher entry)
        (clientPid.bind desktop.describeClient)) idAllow := by
  obtain ⟨helper, hhelper, -, hrun⟩ := Prompter.ask_eq_allow h
  have havailable : prompter.available = true := by rw [Prompter.available, hhelper]; rfl
  unfold run at hrun
  split at hrun
  · exact absurd hrun (by simp)
  · exact absurd hrun (by simp)
  · exact absurd hrun (by simp)
  · rename_i hfate
    refine ⟨havailable, hfate, ?_⟩
    have hcode : ConsentUi.main desktop.taskDialog _ = ConsentUi.allow :=
      Option.some.inj (DialogEnd.exited.inj hrun)
    obtain ⟨req, hparse, hpresses⟩ := ConsentUi.main_eq_allow.mp hcode
    by_cases hname : entry.name = ""
    · rw [parse_askArgs_of_eq hname] at hparse
      exact absurd hparse (by simp)
    · rw [parse_askArgs_of_ne hname] at hparse
      obtain rfl := Except.ok.inj hparse
      exact hpresses

end Desktop

/-! ### Runs with a desktop -/

/-- An answer is the one that the desktop gave. -/
def Desktop.gives (desktop : Desktop) (prompter : Prompter) (broker : Broker) : Event → Bool
  | .answer c decision _ _ =>
    match broker.tasks c with
    | .prompt _ entry record => decision = desktop.ask prompter entry record (broker.clientPid c)
    | _ => true
  | _ => true

/-- The answer is a press: a connection waits at the prompt for an entry, the helper shows the dialog for
    it until a button is pressed, and the button is the one that allows. -/
inductive Press (prompter : Prompter) (broker : Broker) (desktop : Desktop) : Event → Decided → Prop where
  | allow {c : Nat} {id : JsonValue} {entry : Entry} {record : ConsentRecord} {now : String}
      {outcome : WriteOutcome} (waits : broker.tasks c = .prompt id entry record)
      (helper : prompter.available = true) (shown : desktop.fate = .finished)
      (pressed : Presses desktop.taskDialog (asked entry record (desktop.publisher entry)
        ((broker.clientPid c).bind desktop.describeClient)) idAllow) :
    Press prompter broker desktop (.answer c .allow now outcome)
      ⟨now, entry.name, .grant entry.launchHash (launchSummary entry) .user⟩

/-- An answer decides one thing at most. -/
theorem eq_of_decisions_decide {now name : String} {action : ConsentAction} {outcome : WriteOutcome}
    {earlier more : List Decided} {d : Decided}
    (h : decisions [.decide now name action outcome] = earlier ++ d :: more) :
    earlier = [] ∧ more = [] ∧ d = ⟨now, name, action⟩ := by
  cases outcome with
  | failed step => simp [decisions, writes, Operation.write, WriteOutcome.identity] at h
  | written identity readBack =>
    have hlength := congrArg List.length h
    simp [decisions, writes, Operation.write, WriteOutcome.identity] at hlength
    have hearlier : earlier = [] := List.eq_nil_of_length_eq_zero (by omega)
    have hmore : more = [] := List.eq_nil_of_length_eq_zero (by omega)
    subst hearlier hmore
    exact ⟨rfl, rfl, (List.cons.inj h).1.symm⟩

section Runs

variable {sha256 : List Char → String} {prompter : Prompter}

/-- A run of the broker whose answers come from the dialog. -/
def Prompted (sha256 : List Char → String) (prompter : Prompter) :
    Recorded → List (Event × Desktop) → Recorded → Prop :=
  Transition.Run fun r label r' =>
    r.step sha256 label.1 = some r' ∧ label.2.gives prompter r.broker label.1 = true

theorem Prompted.reached {init r : Recorded} {labels : List (Event × Desktop)}
    (h : Prompted sha256 prompter init labels r) :
    Recorded.Reached sha256 init (labels.map Prod.fst) r := by
  induction h with
  | start => exact .start
  | snoc _ hs ih =>
    rw [List.map_append]
    exact .snoc ih hs.1

/-- **A grant that an event writes is a press.** -/
theorem press_of_decisions {broker : Broker} {event : Event} {desktop : Desktop}
    (hgives : desktop.gives prompter broker event = true) (halone : Alone (broker.operations event))
    {earlier more : List Decided} {d : Decided}
    (h : decisions (broker.operations event) = earlier ++ d :: more) (hgrant : d.isGrant = true) :
    earlier = [] ∧ more = [] ∧ Press prompter broker desktop event d := by
  by_cases hevent : ∃ c decision now outcome, event = .answer c decision now outcome
  · obtain ⟨c, decision, now, outcome, rfl⟩ := hevent
    unfold Broker.operations at h
    unfold Desktop.gives at hgives
    dsimp only at h hgives
    split at h
    · rename_i id entry record htask
      simp only [htask, decide_eq_true_eq] at hgives
      cases decision with
      | allow =>
        obtain ⟨havailable, hfate, hpresses⟩ := Desktop.ask_eq_allow hgives.symm
        obtain ⟨hearlier, hmore, rfl⟩ := eq_of_decisions_decide h
        exact ⟨hearlier, hmore, .allow htask havailable hfate hpresses⟩
      | deny =>
        obtain ⟨-, -, rfl⟩ := eq_of_decisions_decide h
        exact absurd hgrant (by simp [Decided.isGrant])
      | unanswered => exact absurd h (by simp [Broker.answerOperations, decisions, writes])
    · exact absurd h (by simp [decisions, writes])
  · rw [decisions_eq_nil halone (decide_not_mem_operations fun c decision now outcome heq =>
      hevent ⟨c, decision, now, outcome, heq⟩)] at h
    exact absurd h (by simp)

/-- **Every grant in the file is a press**, at the step of the run that wrote it. -/
theorem Prompted.press {init r : Recorded} {labels : List (Event × Desktop)}
    (h : Prompted sha256 prompter init labels r) (hinit : init.operations = [])
    (halone : Alone r.operations) {earlier more : List Decided} {d : Decided}
    (hsplit : decisions r.operations = earlier ++ d :: more) (hgrant : d.isGrant = true) :
    ∃ before event desktop after asking, labels = before ++ (event, desktop) :: after ∧
      Prompted sha256 prompter init before asking ∧ decisions asking.operations = earlier ∧
      Press prompter asking.broker desktop event d := by
  induction h generalizing more with
  | start =>
    rw [hinit] at hsplit
    exact absurd hsplit (by simp [decisions, writes])
  | @snoc labels r r' label hrun hs ih =>
    obtain ⟨broker, -, rfl⟩ := Recorded.step_eq_some.mp hs.1
    obtain ⟨hbefore, hthen⟩ := halone.of_append
    rw [decisions_append] at hsplit
    rcases List.append_eq_append_iff.mp hsplit with ⟨new, hearlier, hnew⟩ | ⟨old, hold, hrest⟩
    · -- written at this step
      obtain ⟨rfl, -, hpress⟩ := press_of_decisions hs.2 hthen hnew hgrant
      rw [List.append_nil] at hearlier
      exact ⟨labels, label.1, label.2, [], r, rfl, hrun, hearlier.symm, hpress⟩
    · cases old with
      | nil =>
        rw [List.append_nil] at hold
        have hnew : decisions (r.broker.operations label.1) = [] ++ d :: more := hrest.symm
        obtain ⟨-, -, hpress⟩ := press_of_decisions hs.2 hthen hnew hgrant
        exact ⟨labels, label.1, label.2, [], r, rfl, hrun, hold, hpress⟩
      | cons first old =>
        obtain ⟨rfl, -⟩ := List.cons.inj hrest
        obtain ⟨before, event, desktop, after, asking, rfl, hfound⟩ := ih hbefore hold
        exact ⟨before, event, desktop, after ++ [label], asking, by simp, hfound⟩

end Runs

/-- The last decision about a server, among the others. -/
theorem split_of_lastDecision {decisions : List Decided} {name : String} {d : Decided}
    (h : lastDecision decisions name = some d) : ∃ earlier more, decisions = earlier ++ d :: more ∧
      ∀ d' ∈ more, d'.name ≠ name := by
  obtain ⟨-, more, earlier, hsplit, hmore⟩ := List.find?_eq_some_iff_append.mp h
  refine ⟨earlier.reverse, more.reverse, ?_, fun d' hd' => ?_⟩
  · rw [← List.reverse_reverse decisions, hsplit]
    simp
  · simpa using hmore d' (List.mem_reverse.mp hd')

/-- Why a server may run. -/
inductive Cleared (sha256 : List Char → String) (prompter : Prompter) (disk : Disk) (init : Recorded)
    (labels : List (Event × Desktop)) (operations : List Operation) (entry : Entry) : Prop where
  /-- At some step of the run a prompt about it was answered by a press, for the hash that the entry
      has; nobody has decided about it since. -/
  | pressed {before after : List (Event × Desktop)} {event : Event} {desktop : Desktop}
      {asking : Recorded} {d : Decided} {launchCommand : String} {more : List Decided}
      (labels_eq : labels = before ++ (event, desktop) :: after)
      (reached : Prompted sha256 prompter init before asking)
      (press : Press prompter asking.broker desktop event d) (name : d.name = entry.name)
      (action : d.action = .grant entry.launchHash launchCommand .user)
      (written : decisions operations = decisions asking.operations ++ d :: more)
      (last : ∀ d' ∈ more, d'.name ≠ entry.name)
  /-- Nobody has decided about it, and it was approved in the file. -/
  | before {record : ConsentRecord} (last : lastDecision (decisions operations) entry.name = none)
      (found : disk.records[entry.name]? = some record) (granted : record.state = .granted)
      (bound : record.launchHash = some entry.launchHash)

/-- **Nothing runs that nobody allowed.**  Whenever a process is started from an entry, the last
    decision about its server was written at the answer to a prompt, where the button was pressed in a
    dialog that showed its name and the hash that it still has; a server that nobody has decided about
    was approved in the file that the broker started with. -/
theorem launched_by_press {sha256 : List Char → String} {prompter : Prompter} {disk : Disk}
    {now brokerPid nextGrant : Nat} {available : Bool} {clientPid : Nat → Option Nat}
    {labels : List (Event × Desktop)} {r r' : Recorded} {event : Event}
    (h : Prompted sha256 prompter (.new disk now brokerPid nextGrant available clientPid) labels r)
    (halone : Alone r.operations) (hfresh : FreshWrites disk r.operations)
    (hstep : r.step sha256 event = some r') {i : Nat} {entry : Entry} {command : Command}
    (hnew : r.broker.engine.origins.length ≤ i)
    (hi : r'.broker.engine.origins[i]? = some (entry, command)) :
    Cleared sha256 prompter disk (.new disk now brokerPid nextGrant available clientPid) labels
      r.operations entry := by
  obtain ⟨broker, hbroker, rfl⟩ := Recorded.step_eq_some.mp hstep
  obtain ⟨-, hgranted⟩ := Broker.launch_event hbroker hnew hi
  have htracked := Engine.tracked_of_run (Recorded.engine_run h.reached) hfresh
  obtain ⟨record, hrecord, hstate, hhash⟩ := htracked.approved hgranted
  rw [htracked.records, getElem?_settle] at hrecord
  cases hlast : lastDecision (decisions r.operations) entry.name with
  | none =>
    rw [hlast] at hrecord
    exact .before hlast hrecord hstate hhash
  | some d =>
    rw [hlast] at hrecord
    obtain ⟨launchHash, launchCommand, scope, haction, hhash'⟩ := d.grant_of_record hrecord hstate
    obtain rfl := Option.some.inj (hhash'.symm.trans hhash)
    obtain ⟨earlier, more, hsplit, hmore⟩ := split_of_lastDecision hlast
    have hgrant : d.isGrant = true := by rw [Decided.isGrant, haction]
    obtain ⟨before, event, desktop, after, asking, hlabels, hasking, rfl, hpress⟩ :=
      h.press rfl halone hsplit hgrant
    have hname := name_of_lastDecision hlast
    obtain rfl : scope = .user := by
      cases hpress with
      | allow => exact (ConsentAction.grant.inj haction).2.2.symm
    exact .pressed hlabels hasking hpress hname haction hsplit hmore

/-! ### A press -/

/-- The dialog is shown and the button pressed. -/
def pressing : Desktop where
  host := (viewerRegistry "/usr/bin/viewer").host
  lookup _ := none
  describe _ := "unsigned"
  lowIntegrity _ := false
  describeClient _ := none
  fate := .finished
  taskDialog := some fun _ => .ok idAllow

def beside : Prompter := ⟨some "/opt/mcp-locator/mcp-locator-consent"⟩

/-- The user is asked about the viewer. -/
def pressedSession : List (Event × Desktop) := viewerSession.map (·, pressing)

def viewerPressed : Recorded :=
  (Transition.replay (fun r label => if label.2.gives beside r.broker label.1 = true then
    r.step String.ofList label.1 else none) freshBroker pressedSession).get (by decide +kernel)

theorem prompted_viewerPressed :
    Prompted String.ofList beside freshBroker pressedSession viewerPressed :=
  Transition.run_of_checked (Option.some_get _).symm

def viewerRuns : Recorded :=
  (viewerPressed.step String.ofList (.proceed 1 tableOrder working)).get (by decide +kernel)

theorem launched_by_press_viewer : ∃ entry, entry.name = "com.example.viewer" ∧
    Cleared String.ofList beside ⟨none, none⟩ freshBroker pressedSession viewerPressed.operations
      entry := by
  have hstep : viewerPressed.step String.ofList (.proceed 1 tableOrder working) = some viewerRuns :=
    (Option.some_get _).symm
  have hnew : viewerPressed.broker.engine.origins.length ≤ 0 := by decide +kernel
  have hname : (viewerRuns.broker.engine.origins[0]?).map (·.1.name) = some "com.example.viewer" := by
    decide +kernel
  obtain ⟨⟨entry, command⟩, hi, hentry⟩ := Option.map_eq_some_iff.mp hname
  have halone : Alone viewerPressed.operations := by decide +kernel
  have hfresh : FreshWrites ⟨none, none⟩ viewerPressed.operations := by decide +kernel
  exact ⟨entry, hentry, launched_by_press prompted_viewerPressed halone hfresh hstep hnew hi⟩

end McpLocator.Broker
