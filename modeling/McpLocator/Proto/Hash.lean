import McpLocator.Json.Same
import McpLocator.Proto.Canonical
import McpLocator.Proto.Expand

namespace McpLocator.Proto

open McpLocator.Json

/-!
# `launch_hash`

The value consent is bound to.  SHA-256 is a parameter: `sha256` maps the canonical text to the
hexadecimal digest of its UTF-8 bytes.

* `launchHash_eq_iff` — the hash tells the stanzas it looks at apart.
* `canonical_identity` — canonical texts and launch hashes are equal exactly for the same values.
-/

/-- What `pick` finds under a key of the `local` member of a card. -/
def pick (card : Value) (key : String) : Value :=
  ((card.get "local").bind (·.get key)).getD .null

/-- The value that is hashed: the launch stanza and the endpoint. -/
def launchSubject (card : Value) : Value :=
  .object [("endpoint", pick card "endpoint"), ("launch", pick card "launch")]

/-- `launch_hash`. -/
def launchHash (sha256 : List Char → String) (card : Value) : String :=
  "sha256:" ++ sha256 (canonicalize (launchSubject card))

theorem wf_pick {card : Value} (h : card.wf = true) (key : String) : (pick card key).wf = true := by
  refine Value.wf_orNull fun x hx => ?_
  obtain ⟨b, hb, hx⟩ := Option.bind_eq_some_iff.mp hx
  exact Value.wf_of_get (Value.wf_of_get h hb) hx

theorem wf_launchSubject {card : Value} (h : card.wf = true) : (launchSubject card).wf = true := by
  rw [launchSubject, Value.wf_object]
  refine ⟨?_, by simp [wf_pick h]⟩
  show ["endpoint", "launch"].Pairwise (· < ·)
  decide

/-- **The launch hash identifies the stanza it looks at.** -/
theorem launchHash_eq_iff {sha256 : List Char → String} (hinj : Function.Injective sha256)
    {v w : Value} (hv : v.wf = true) (hw : w.wf = true) :
    launchHash sha256 v = launchHash sha256 w ↔
      pick v "launch" = pick w "launch" ∧ pick v "endpoint" = pick w "endpoint" := by
  constructor
  · intro h
    have hsub := canonicalize_injective (wf_launchSubject hv) (wf_launchSubject hw)
      (hinj (String.append_right_inj _ |>.mp h))
    simp only [launchSubject, Value.object.injEq, List.cons.injEq, Prod.mk.injEq, true_and,
      and_true] at hsub
    exact ⟨hsub.2, hsub.1⟩
  · rintro ⟨hl, he⟩
    rw [launchHash, launchHash, launchSubject, launchSubject, hl, he]

/-! ### The same values -/

/-- The canonical text of a value whose members are in any order. -/
theorem canonicalize_norm {v : Value} (hd : v.distinct = true) :
    canonicalize v.norm = canonicalize v := by
  rw [canonicalize_eq_canonical (distinct_of_wf (Value.wf_norm hd)), canonicalize_eq_canonical hd,
    canonical_norm hd]

theorem canonicalize_eq_iff {v w : Value} (hi : v.integral = true) (hv : v.distinct = true)
    (hw : w.distinct = true) : canonicalize v = canonicalize w ↔ Value.Same v w := by
  rw [Value.same_iff hi hv hw, ← canonicalize_norm hv, ← canonicalize_norm hw]
  exact ⟨canonicalize_injective (Value.wf_norm hv) (Value.wf_norm hw), congrArg canonicalize⟩

/-- What a broker keeps is the same value only if it is equal. -/
theorem same_iff_eq {v w : Value} (hi : v.integral = true) (hv : v.wf = true) (hw : w.wf = true) :
    Value.Same v w ↔ v = w := by
  rw [← canonicalize_eq_iff hi (distinct_of_wf hv) (distinct_of_wf hw)]
  exact ⟨canonicalize_injective hv hw, congrArg canonicalize⟩

/-- The expanded launch stanza of a `local` block with these members. -/
def launchStanza (env : String → Option String) (members : List (String × Value)) : Value :=
  expandLaunch env (Value.orNull (members.lookup "launch"))

/-- The expanded endpoint. -/
def endpointStanza (env : String → Option String) (members : List (String × Value)) : Value :=
  (Value.orNull (members.lookup "endpoint")).modify "address" (expandStringField env)

/-- The two stanzas are what is picked out of the expanded card. -/
theorem pick_expandCard (env : String → Option String) {card : Value} {ms : List (String × Value)}
    (h : card.get "local" = some (.object ms)) :
    pick (expandCard card env) "launch" = launchStanza env ms ∧
      pick (expandCard card env) "endpoint" = endpointStanza env ms := by
  have hlocal : (expandCard card env).get "local" = some (expandLocal env (.object ms)) := by
    rw [expandCard, Value.get_modify_self, h, Option.map_some]
  rw [pick, pick, hlocal, Option.bind_some, Option.bind_some, expandLocal]
  constructor
  · rw [Value.get_modify_of_ne (by decide), Value.get_modify_of_ne (by decide),
      Value.get_modify_self, Value.get, launchStanza]
    cases ms.lookup "launch" <;> rfl
  · rw [Value.get_modify_of_ne (by decide), Value.get_modify_self,
      Value.get_modify_of_ne (by decide), Value.get, endpointStanza]
    cases ms.lookup "endpoint" <;> rfl

/-- **The canonical text identifies a value, and so the launch hash the two stanzas.** -/
theorem canonical_identity :
    (∀ v w : Value, v.integral = true → w.integral = true → v.distinct = true → w.distinct = true →
      (canonicalize v = canonicalize w ↔ Value.Same v w)) ∧
    ∀ (sha256 : List Char → String), Function.Injective sha256 →
      ∀ (env env' : String → Option String) (v w : JsonValue) (ms ns : List (String × Value)),
        v.1.get "local" = some (.object ms) → w.1.get "local" = some (.object ns) →
        (launchStanza env ms).integral = true → (endpointStanza env ms).integral = true →
        (launchStanza env' ns).integral = true → (endpointStanza env' ns).integral = true →
        (launchHash sha256 (expandCard v.1 env) = launchHash sha256 (expandCard w.1 env') ↔
          Value.Same (launchStanza env ms) (launchStanza env' ns) ∧
            Value.Same (endpointStanza env ms) (endpointStanza env' ns)) := by
  refine ⟨fun v w hi _ hv hw => canonicalize_eq_iff hi hv hw, ?_⟩
  intro sha256 hinj env env' v w ms ns hv hw hlaunch hendpoint _ _
  obtain ⟨hvl, hve⟩ := pick_expandCard env hv
  obtain ⟨hwl, hwe⟩ := pick_expandCard env' hw
  have hwfv := wf_pick (show (expandCard v.1 env).wf = true from wf_expandCard v.2)
  have hwfw := wf_pick (show (expandCard w.1 env').wf = true from wf_expandCard w.2)
  rw [launchHash_eq_iff hinj (wf_expandCard v.2) (wf_expandCard w.2), hvl, hwl, hve, hwe,
    same_iff_eq hlaunch (hvl ▸ hwfv _) (hwl ▸ hwfw _),
    same_iff_eq hendpoint (hve ▸ hwfv _) (hwe ▸ hwfw _)]

/-- The `local` block of a card that launches `notes`. -/
def notesMembers : List (String × Value) := [("launch", .object [("command", .string "notes")])]

def notesCard (version : String) : Value :=
  .object [("local", .object notesMembers), ("name", .string "com.example.notes"),
    ("version", .string version)]

theorem canonical_identity_notes :
    (canonicalize (.object [("b", .number (.posInt 1)), ("a", .null)]) =
        canonicalize (.object [("a", .null), ("b", .number (.posInt 1))]) ↔
      Value.Same (.object [("b", .number (.posInt 1)), ("a", .null)])
        (.object [("a", .null), ("b", .number (.posInt 1))])) ∧
    (launchHash String.ofList (expandCard (notesCard "1.0.0") fun _ => none) =
        launchHash String.ofList (expandCard (notesCard "2.0.0") fun _ => none) ↔
      Value.Same (launchStanza (fun _ => none) notesMembers)
          (launchStanza (fun _ => none) notesMembers) ∧
        Value.Same (endpointStanza (fun _ => none) notesMembers)
          (endpointStanza (fun _ => none) notesMembers)) :=
  ⟨canonical_identity.1 _ _ rfl rfl (by decide) (by decide),
    canonical_identity.2 String.ofList (fun _ _ h => String.ofList_injective h) (fun _ => none)
      (fun _ => none) ⟨notesCard "1.0.0", by decide⟩ ⟨notesCard "2.0.0", by decide⟩ _ _ rfl rfl
      (by decide) (by decide) (by decide) (by decide)⟩

end McpLocator.Proto
