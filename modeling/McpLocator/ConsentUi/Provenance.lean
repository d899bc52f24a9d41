import McpLocator.ConsentUi.Request
import McpLocator.Lib.Split

namespace McpLocator.ConsentUi

/-!
# Who says what in the dialog

The broker vouches for some rows of the dialog, the card supplies the rest of its texts.

* `rows` — the lines of a text that start with a label.
* `HonestRows` — under each label the broker vouches for stands its own row and no other.
* `honestRows_iff` — that is so unless a text of the card has such a line of its own.
-/

/-! ### Lines -/

def lines (s : String) : List (List Char) := s.toList.splitOn '\n'

/-- The lines of a text that start with a label. -/
def rows (label s : String) : List (List Char) := (lines s).filter fun l => label.toList.isPrefixOf l

section Lines

variable {label s t : String}

/-- The lines before a break and those after it. -/
theorem rows_append_newline (label s t : String) :
    rows label (s ++ "\n" ++ t) = rows label s ++ rows label t := by
  have hlines : lines (s ++ "\n" ++ t) = lines s ++ lines t := by
    have htext : (s ++ "\n" ++ t).toList = s.toList ++ '\n' :: t.toList := by simp
    rw [lines, htext, List.splitOn_append_cons_self]
    rfl
  rw [rows, hlines, List.filter_append]
  rfl

/-- A block that ends with a break, or is left out. -/
theorem rows_block {p : Prop} [Decidable p] (label s t : String) :
    rows label ((if p then "" else s ++ "\n") ++ t) = (if p then [] else rows label s) ++ rows label t := by
  split
  · simp
  · exact rows_append_newline label s t

/-- A single line. -/
theorem rows_line (h : '\n' ∉ s.toList) :
    rows label s = if label.toList.isPrefixOf s.toList then [s.toList] else [] := by
  rw [rows, lines, List.splitOn_eq_singleton h, List.filter_singleton, Bool.cond_eq_ite]

/-- The lines of a text after the first that start with a label. -/
def forged (label s : String) : List (List Char) :=
  (lines s).tail.filter fun l => label.toList.isPrefixOf l

/-- A text of any lines after a front that is not the label. -/
theorem rows_front {front : String} (hfront : '\n' ∉ front.toList)
    (hlabel : ∀ l, label.toList.isPrefixOf (front.toList ++ l) = false) :
    rows label (front ++ s) = forged label s := by
  rw [rows, lines, String.toList_append, Split.splitOn_append_of_not_mem hfront]
  unfold forged lines
  cases s.toList.splitOn '\n' with
  | nil => rfl
  | cons first rest => simp [hlabel]

@[simp] theorem forged_empty (label : String) : forged label "" = [] := rfl

/-- A value without a break after a front; `b` is whether the front starts with the label. -/
theorem rows_value {front : String} {b : Bool} (hfront : '\n' ∉ front.toList)
    (hlabel : ∀ l, label.toList.isPrefixOf (front.toList ++ l) = b) (hs : '\n' ∉ s.toList) :
    rows label (front ++ s) = if b then [(front ++ s).toList] else [] := by
  rw [rows_line (by simp [hfront, hs]), String.toList_append, hlabel]

end Lines

/-! ### The rows the broker vouches for -/

/-- The row that is shown for a value, if it is not empty. -/
def ownRow (value text : String) : List (List Char) := if value = "" then [] else [text.toList]

/-- The labels in `expanded`. -/
def provenanceLabels : List String := ["Publisher:", "Trust tier:", "Registered by:", "Bound to:"]

structure HonestRows (req : Request) : Prop where
  publisher : rows "Publisher:" req.expanded = ownRow req.publisher s!"Publisher:  {req.publisher}"
  tier : rows "Trust tier:" req.expanded = ownRow req.tier s!"Trust tier:  {req.tier}"
  card : rows "Registered by:" req.expanded = ownRow req.card s!"Registered by:  {req.card}"
  hash : rows "Bound to:" req.expanded = ownRow req.hash s!"Bound to:  {req.hash}"
  client : rows "Requested by " req.content = ownRow req.client s!"Requested by {req.client}."

/-- What the broker supplies, not the card. -/
def Request.brokerFields (req : Request) : List String :=
  [req.publisher, req.tier, req.card, req.hash, req.name, req.client]

section Rows

variable {req : Request}

/-- The row of a value, under its own label or under none. -/
theorem rows_own {label front value : String} {b : Bool} (hfront : '\n' ∉ front.toList)
    (hlabel : ∀ l, label.toList.isPrefixOf (front.toList ++ l) = b) (hvalue : '\n' ∉ value.toList) :
    (if value = "" then [] else rows label (front ++ value)) =
      if b then ownRow value (front ++ value) else [] := by
  rw [rows_value hfront hlabel hvalue, ownRow]
  cases b <;> simp

/-- The rows of `expanded` under a label that is no front of the card's own texts. -/
theorem rows_expanded (label : String) {card tier publisher hash : Bool}
    (h : ∀ s ∈ req.brokerFields, '\n' ∉ s.toList)
    (hstarts : ∀ l, label.toList.isPrefixOf ("Starts:  ".toList ++ l) = false)
    (hcard : ∀ l, label.toList.isPrefixOf ("Registered by:  ".toList ++ l) = card)
    (htier : ∀ l, label.toList.isPrefixOf ("Trust tier:  ".toList ++ l) = tier)
    (hpublisher : ∀ l, label.toList.isPrefixOf ("Publisher:  ".toList ++ l) = publisher)
    (hhash : ∀ l, label.toList.isPrefixOf ("Bound to:  ".toList ++ l) = hash)
    (hname : ∀ l, label.toList.isPrefixOf ("Identifier:  ".toList ++ l) = false) :
    rows label req.expanded = (if req.stale then [] else forged label req.command) ++
      ((if card then ownRow req.card ("Registered by:  " ++ req.card) else []) ++
      ((if tier then ownRow req.tier ("Trust tier:  " ++ req.tier) else []) ++
      ((if publisher then ownRow req.publisher ("Publisher:  " ++ req.publisher) else []) ++
      if hash then ownRow req.hash ("Bound to:  " ++ req.hash) else []))) := by
  simp only [Request.brokerFields, List.forall_mem_cons] at h
  obtain ⟨hpublisher', htier', hcard', hhash', hname', -, -⟩ := h
  have hcommand : (if req.stale = true ∨ req.command = "" then []
      else rows label ("Starts:  " ++ req.command)) =
        if req.stale then [] else forged label req.command := by
    rw [rows_front (by decide) hstarts]
    by_cases hempty : req.command = "" <;> simp [hempty]
  have hexpanded : req.expanded =
      (if req.stale = true ∨ req.command = "" then "" else "Starts:  " ++ req.command ++ "\n") ++
      ((if req.card = "" then "" else "Registered by:  " ++ req.card ++ "\n") ++
      ((if req.tier = "" then "" else "Trust tier:  " ++ req.tier ++ "\n") ++
      ((if req.publisher = "" then "" else "Publisher:  " ++ req.publisher ++ "\n") ++
      ((if req.hash = "" then "" else "Bound to:  " ++ req.hash ++ "\n") ++
      ("Identifier:  " ++ req.name))))) := by
    simp only [Request.expanded, String.append_assoc]
    rfl
  rw [hexpanded, rows_block, rows_block, rows_block, rows_block, rows_block, hcommand,
    rows_own (by decide) hcard hcard', rows_own (by decide) htier htier',
    rows_own (by decide) hpublisher hpublisher', rows_own (by decide) hhash hhash',
    rows_value (by decide) hname hname', if_neg Bool.false_ne_true, List.append_nil]

/-- The one line of the empty text starts with no label. -/
theorem rows_empty {label : String} (h : label ≠ "") : rows label "" = [] := by
  rw [rows_line (by simp), if_neg]
  simpa using h

/-- A text and an empty line. -/
theorem rows_paragraph {label s t : String} (h : label ≠ "") :
    rows label (s ++ "\n\n" ++ t) = rows label s ++ rows label t := by
  have hsplit : s ++ "\n\n" ++ t = s ++ "\n" ++ ("" ++ "\n" ++ t) := by
    rw [String.append_assoc, String.append_assoc, String.append_assoc]
    rfl
  rw [hsplit, rows_append_newline, rows_append_newline, rows_empty h, List.nil_append]

/-- A paragraph that is left out if its text is empty. -/
theorem rows_optional {label s t : String} (h : label ≠ "") :
    rows label ((if s = "" then "" else s ++ "\n\n") ++ t) = rows label s ++ rows label t := by
  by_cases hs : s = ""
  · rw [if_pos hs, hs, String.empty_append, rows_empty h, List.nil_append]
  · rw [if_neg hs, rows_paragraph h]

/-- The row of the client. -/
theorem rows_client (h : '\n' ∉ req.client.toList) (t : String) :
    rows "Requested by " ((if req.client = "" then "" else s!"Requested by {req.client}.\n") ++ t) =
      ownRow req.client s!"Requested by {req.client}." ++ rows "Requested by " t := by
  have hline : s!"Requested by {req.client}.\n" = "Requested by " ++ (req.client ++ ".") ++ "\n" := by
    simp only [String.append_assoc]
    rfl
  have hbreak : '\n' ∉ (req.client ++ ".").toList := by simp [h]
  rw [hline, rows_block, rows_value (by decide) (fun _ => rfl) hbreak, if_pos rfl, ownRow,
    ← String.append_assoc]
  rfl

/-- The first sentence of a stale dialog is the broker's own. -/
theorem rows_changed (t : String) :
    rows "Requested by " (Request.changed ++ t) = rows "Requested by " t := by
  have hsplit : Request.changed = "The program it starts is not the one you approved. That can mean an " ++
      "update, or that something replaced it." ++ "\n\n" := by decide
  rw [hsplit, rows_paragraph (by decide), rows_line (by decide), if_neg (by decide), List.nil_append]

/-- The program that was approved. -/
theorem rows_previous (t : String) :
    rows "Requested by " ((if req.previous = "" then "" else s!"Was:  {req.previous}\n") ++ t) =
      forged "Requested by " req.previous ++ rows "Requested by " t := by
  have hfront : rows "Requested by " ("Was:  " ++ req.previous) = forged "Requested by " req.previous :=
    rows_front (by decide) fun _ => rfl
  refine (rows_block "Requested by " ("Was:  " ++ req.previous) t).trans ?_
  rw [hfront]
  by_cases hempty : req.previous = "" <;> simp [hempty]

/-- The program that starts now. -/
theorem rows_command (t : String) :
    rows "Requested by " (s!"Now:  {req.command}\n\n" ++ t) =
      forged "Requested by " req.command ++ rows "Requested by " t := by
  have hfront : rows "Requested by " ("Now:  " ++ req.command) = forged "Requested by " req.command :=
    rows_front (by decide) fun _ => rfl
  rw [← hfront]
  exact rows_paragraph (by decide)

/-- The lines of `content` that start like the row of the client. -/
theorem rows_content (h : ∀ s ∈ req.brokerFields, '\n' ∉ s.toList) : rows "Requested by " req.content =
    (if req.stale then forged "Requested by " req.previous ++ forged "Requested by " req.command
      else []) ++
    (rows "Requested by " req.summary ++ ownRow req.client s!"Requested by {req.client}.") := by
  have hclient : '\n' ∉ req.client.toList := h _ (by simp [Request.brokerFields])
  have happlies : rows "Requested by " Request.applies = [] := by decide
  unfold Request.content
  cases req.stale with
  | false =>
    rw [if_neg Bool.false_ne_true, if_neg Bool.false_ne_true, String.append_assoc, String.append_assoc,
      String.empty_append, rows_optional (by decide), rows_client hclient, happlies, List.append_nil,
      List.nil_append]
  | true =>
    rw [if_pos rfl, if_pos rfl, String.append_assoc, String.append_assoc, String.append_assoc,
      String.append_assoc, rows_changed, rows_previous, rows_command, rows_optional (by decide),
      rows_client hclient, happlies, List.append_nil, List.append_assoc]

end Rows

/-! ### When the rows are honest -/

/-- A card whose last argument begins with a line break: the dialog shows a publisher of its own
    choice below the program. -/
def forgedPublisher : Request :=
  { Request.default with
    name := "com.example.notes", title := "Notes", tier := "user",
    command := "notes --serve \nPublisher:  signed by Example Corporation",
    publisher := "not signed", card := "com.example.notes.card.json", hash := "sha256:00" }

theorem rows_forgedPublisher : rows "Publisher:" forgedPublisher.expanded =
    ["Publisher:  signed by Example Corporation".toList, "Publisher:  not signed".toList] := by
  decide +kernel

theorem not_honestRows : ¬ ∀ req : Request, (∀ s ∈ req.brokerFields, '\n' ∉ s.toList) → HonestRows req := by
  intro h
  have hpublisher := (h forgedPublisher (by decide +kernel)).publisher
  rw [rows_forgedPublisher] at hpublisher
  exact absurd hpublisher (by decide +kernel)

theorem forged_eq_nil {all before own : List (List Char)} (hall : all = before ++ own) (h : all = own) :
    before = [] := by
  rwa [h, List.self_eq_append_left] at hall

/-- **The rows are honest unless the card brings such a line of its own**: in the command after a line
    break, where `expanded` shows it, or in the summary; and in a stale dialog also in what it shows of
    the two programs. -/
theorem honestRows_iff (req : Request) (h : ∀ s ∈ req.brokerFields, '\n' ∉ s.toList) : HonestRows req ↔
    (req.stale = false → ∀ label ∈ provenanceLabels, forged label req.command = []) ∧
      rows "Requested by " req.summary = [] ∧
      (req.stale = true →
        forged "Requested by " req.previous = [] ∧ forged "Requested by " req.command = []) := by
  have hpublisher := rows_expanded "Publisher:" h (fun _ => rfl) (fun _ => rfl)
    (fun _ => rfl) (fun _ => rfl) (fun _ => rfl) fun _ => rfl
  have htier := rows_expanded "Trust tier:" h (fun _ => rfl) (fun _ => rfl)
    (fun _ => rfl) (fun _ => rfl) (fun _ => rfl) fun _ => rfl
  have hcard := rows_expanded "Registered by:" h (fun _ => rfl) (fun _ => rfl)
    (fun _ => rfl) (fun _ => rfl) (fun _ => rfl) fun _ => rfl
  have hhash := rows_expanded "Bound to:" h (fun _ => rfl) (fun _ => rfl)
    (fun _ => rfl) (fun _ => rfl) (fun _ => rfl) fun _ => rfl
  have hclient := rows_content h
  simp only [Bool.false_eq_true, if_true, if_false, List.nil_append, List.append_nil]
    at hpublisher htier hcard hhash
  rw [← List.append_assoc] at hclient
  -- the broker's own row comes last, so there is no other exactly if nothing comes before it
  constructor
  · rintro ⟨hpublisher', htier', hcard', hhash', hclient'⟩
    have h₁ := forged_eq_nil hpublisher hpublisher'
    have h₂ := forged_eq_nil htier htier'
    have h₃ := forged_eq_nil hcard hcard'
    have h₄ := forged_eq_nil hhash hhash'
    have h₅ := forged_eq_nil hclient hclient'
    obtain ⟨hstale', hsummary⟩ := List.append_eq_nil_iff.mp h₅
    refine ⟨fun hstale label hlabel => ?_, hsummary, fun hstale => ?_⟩
    · rw [hstale, if_neg Bool.false_ne_true] at h₁ h₂ h₃ h₄
      simp only [provenanceLabels, List.mem_cons, List.not_mem_nil, or_false] at hlabel
      rcases hlabel with rfl | rfl | rfl | rfl
      · exact h₁
      · exact h₂
      · exact h₃
      · exact h₄
    · rw [hstale, if_pos rfl] at hstale'
      exact List.append_eq_nil_iff.mp hstale'
  · rintro ⟨hcommand, hsummary, hstale⟩
    have hnone : ∀ label ∈ provenanceLabels,
        (if req.stale = true then [] else forged label req.command) = [] := by
      intro label hlabel
      split
      · rfl
      · rename_i hs
        exact hcommand (by simpa using hs) label hlabel
    rw [hnone _ (by simp [provenanceLabels]), List.nil_append] at hpublisher htier hcard hhash
    refine ⟨hpublisher, htier, hcard, hhash, hclient.trans ?_⟩
    rw [hsummary]
    cases hs : req.stale with
    | false => rfl
    | true =>
      rw [(hstale hs).1, (hstale hs).2]
      rfl

/-- The dialog of an ordinary card. -/
theorem honestRows_notes : HonestRows { forgedPublisher with command := "notes --serve" } :=
  (honestRows_iff { forgedPublisher with command := "notes --serve" } (by decide +kernel)).mpr
    ⟨fun _ => by decide +kernel, by decide +kernel, fun h => absurd h (by decide +kernel)⟩

end McpLocator.ConsentUi
