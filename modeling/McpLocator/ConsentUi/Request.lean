import Mathlib.Data.List.Basic

namespace McpLocator.ConsentUi

/-!
# The consent dialog's request

* `Request.parse` — the scan over the command line: `--stale` stands alone, every other flag takes the
  argument after it, whatever that is.
* `Request.instruction`, `content`, `expanded`, `footer` — the texts of the dialog.
* `parseFlags_pairs` — flags and their values are read back in order; no value is taken for a flag.
-/

/-- Everything the dialog shows. -/
structure Request where
  name : String
  title : String
  summary : String
  command : String
  tier : String
  publisher : String
  client : String
  card : String
  hash : String
  stale : Bool
  previous : String
deriving DecidableEq, Repr

namespace Request

/-- `Request::default()`. -/
def default : Request :=
  { name := "", title := "", summary := "", command := "", tier := "", publisher := "", client := "",
    card := "", hash := "", stale := false, previous := "" }

/-! ### Parsing -/

/-- The field that a flag with a value sets. -/
def setField (req : Request) (value : String) : String → Option Request
  | "--name" => some { req with name := value }
  | "--title" => some { req with title := value }
  | "--summary" => some { req with summary := value }
  | "--command" => some { req with command := value }
  | "--tier" => some { req with tier := value }
  | "--publisher" => some { req with publisher := value }
  | "--client" => some { req with client := value }
  | "--card" => some { req with card := value }
  | "--hash" => some { req with hash := value }
  | "--previous" => some { req with previous := value }
  | _ => none

/-- The loop over the arguments. -/
def parseFlags (req : Request) : List String → Except String Request
  | [] => .ok req
  | flag :: rest =>
    if flag = "--stale" then parseFlags { req with stale := true } rest
    else match rest with
      | [] => .error s!"{flag} needs a value"
      | value :: rest =>
        match setField req value flag with
        | some req => parseFlags req rest
        | none => .error s!"unknown flag {flag}"

/-- `Request::parse`. -/
def parse (args : List String) : Except String Request := do
  let req ← parseFlags default args
  if req.name = "" then .error "--name is required"
  else if req.title = "" then return { req with title := req.name }
  else return req

/-! ### The texts -/

/-- The heading.  A stale record is a different question from a first approval. -/
def instruction (req : Request) : String :=
  if req.stale then s!"\"{req.title}\" has changed since you allowed it"
  else s!"Allow AI clients to use \"{req.title}\"?"

/-- What the dialog says first of a changed program. -/
def changed : String :=
  "The program it starts is not the one you approved. That can mean an update, " ++
    "or that something replaced it.\n\n"

/-- What the dialog says last. -/
def applies : String := "Allowing this applies to every AI client on this machine until you revoke it."

def content (req : Request) : String :=
  (if req.stale then
    changed ++ (if req.previous = "" then "" else s!"Was:  {req.previous}\n") ++
      s!"Now:  {req.command}\n\n"
  else "") ++
  (if req.summary = "" then "" else req.summary ++ "\n\n") ++
  (if req.client = "" then "" else s!"Requested by {req.client}.\n") ++ applies

/-- The detail behind the expander. -/
def expanded (req : Request) : String :=
  (if req.stale ∨ req.command = "" then "" else s!"Starts:  {req.command}\n") ++
  (if req.card = "" then "" else s!"Registered by:  {req.card}\n") ++
  (if req.tier = "" then "" else s!"Trust tier:  {req.tier}\n") ++
  (if req.publisher = "" then "" else s!"Publisher:  {req.publisher}\n") ++
  (if req.hash = "" then "" else s!"Bound to:  {req.hash}\n") ++ s!"Identifier:  {req.name}"

def footer (req : Request) : String :=
  match req.tier with
  | "system" => ""
  | "package" => ""
  | "low" => "Registered by a sandboxed program, the least trusted source."
  | _ => "Any program running as you can register a server here."

/-! ### Reading flags back -/

/-- A flag and its value, as they stand on the command line. -/
def args (pairs : List (String × String)) : List String := pairs.flatMap fun p => [p.1, p.2]

@[simp] theorem setField_stale (req : Request) (value : String) : setField req value "--stale" = none :=
  rfl

/-- **A value is never read as a flag.** -/
theorem parseFlags_pairs {pairs : List (String × String)} {req req' : Request} (rest : List String)
    (h : pairs.foldlM (fun req p => setField req p.2 p.1) req = some req') :
    parseFlags req (args pairs ++ rest) = parseFlags req' rest := by
  induction pairs generalizing req with
  | nil =>
    obtain rfl := Option.some.inj h
    rfl
  | cons p pairs ih =>
    obtain ⟨flag, value⟩ := p
    rw [List.foldlM_cons] at h
    obtain ⟨req₁, hset, h⟩ := Option.bind_eq_some_iff.mp h
    have hflag : flag ≠ "--stale" := by
      rintro rfl
      simp at hset
    have hset : setField req value flag = some req₁ := hset
    show parseFlags req (flag :: value :: (args pairs ++ rest)) = _
    rw [parseFlags, if_neg hflag]
    simp only [hset]
    exact ih h

end Request

end McpLocator.ConsentUi
