import GraphQL.Session.Run
import Mathlib.Algebra.Group.Nat.Defs
import Mathlib.Data.List.Nodup

/-!
# Sessions after a run

A session is known from what was requested of it: its schema is that of the text set last, its documents are those
added, in this order (`Session.after`). A request extends this by itself (`Session.perform_after`), so that after a
run each session is known from the requests made to it alone (`Workspace.Remembers`). Handles number sessions and
documents, so that none is given out twice, and validating a document tells no more of a session than its validator
and its last schema text.
-/

namespace GraphQL

namespace Request

def schemaText? : Request → Option String
  | setSchema source => some source
  | _ => none

/-- The text, with its path, that a request registers. -/
def text? : Request → Option (String × Option String)
  | add source path => some (source, path)
  | addAndValidate source => some (source, none)
  | _ => none

end Request

/-- The handle that a response gives out. -/
def Response.handle? : Response → Option Handle
  | added handle | validated (.ok (handle, _)) => some handle
  | _ => none

def Outcome.handle? : Outcome → Option Handle
  | opened _ => none
  | response r => r.handle?

/-- The schema text set last. -/
def lastSchema? (requests : List Request) : Option String := (requests.filterMap (·.schemaText?)).getLast?

/-- The texts registered, with their paths. -/
def registered (requests : List Request) : List (String × Option String) := requests.filterMap (·.text?)

def StoredDocument.ofText (text : String × Option String) : StoredDocument := ⟨text.1, text.2, Document.read text.1⟩

def SchemaState.ofText (source : String) : SchemaState :=
  match Schema.ofTexts [source] with
  | .ok schema => .built schema
  | .error e => .failed e.diagnostics

/-- A session as its requests leave it. -/
def Session.after (id : Nat) (validator : Validator) (requests : List Request) : Session where
  schemaState := (lastSchema? requests).elim .unset .ofText
  store := ⟨id, (registered requests).map .ofText⟩
  validator

section
variable {requests : List Request} {request : Request}

private theorem lastSchema?_concat :
    lastSchema? (requests ++ [request]) = request.schemaText?.or (lastSchema? requests) := by
  rw [lastSchema?, lastSchema?, List.filterMap_append]
  cases h : request.schemaText? <;> simp [h]

private theorem registered_concat :
    registered (requests ++ [request]) = registered requests ++ request.text?.toList := by
  rw [registered, registered, List.filterMap_append]
  cases h : request.text? <;> simp [h]

namespace Session

variable {id : Nat} {validator : Validator}

private theorem setSchema_snd (s : Session) (source : String) :
    (s.setSchema source).2 = { s with schemaState := .ofText source } := by
  cases h : Schema.ofTexts [source] <;> simp [setSchema, SchemaState.ofText, h]

/-- One more request changes the schema or adds a text. -/
private theorem after_concat : after id validator (requests ++ [request]) =
    ⟨(request.schemaText?.or (lastSchema? requests)).elim .unset .ofText,
      ⟨id, (registered requests ++ request.text?.toList).map .ofText⟩, validator⟩ := by
  rw [after, lastSchema?_concat, registered_concat]

/-- A text that is added gets the next index. -/
private theorem add_after (source : String) (path : Option String) :
    (after id validator requests).add source path =
      (⟨id, (registered requests).length⟩, after id validator (requests ++ [.add source path])) := by
  rw [after_concat]
  simp [after, add, DocumentStore.add, StoredDocument.ofText, Request.schemaText?, Request.text?]

/-- A request to a session is remembered with the others. -/
theorem perform_after :
    ((after id validator requests).perform request).2 = after id validator (requests ++ [request]) := by
  cases request with
  | setSchema source =>
    rw [perform, setSchema_snd, after_concat]
    simp [after, Request.schemaText?, Request.text?]
  | add source path => rw [perform, add_after]
  | addAndValidate source =>
    rw [perform, addAndValidate, add_after, after_concat, after_concat]
    rfl
  | ask question =>
    rw [perform, after_concat]
    simp [after, Request.schemaText?, Request.text?]

/-- The handle given out for a text is the number of texts before it. -/
theorem handle_of_perform {handle : Handle}
    (h : ((after id validator requests).perform request).1.handle? = some handle) :
    (∃ text, request.text? = some text) ∧ handle = ⟨id, (registered requests).length⟩ := by
  cases request with
  | setSchema | ask => cases h
  | add source path =>
    rw [perform, add_after] at h
    exact ⟨⟨_, rfl⟩, (Option.some.inj h).symm⟩
  | addAndValidate source =>
    rw [perform, addAndValidate, add_after] at h
    cases hfindings : (after id validator (requests ++ [.add source none])).validateFile
        ⟨id, (registered requests).length⟩ with
    | ok findings =>
      simp only [hfindings] at h
      exact ⟨⟨_, rfl⟩, (Option.some.inj h).symm⟩
    | error e =>
      simp only [hfindings] at h
      cases h

/-- A handle finds the text that was registered with it, in the session that gave it out. -/
private theorem document_after {handle : Handle} {stored : StoredDocument} :
    (after id validator requests).document handle = .ok stored ↔
      handle.store = id ∧ (registered requests)[handle.index]?.map .ofText = some stored := by
  rw [document, after, DocumentStore.find?]
  by_cases hid : handle.store = id
  · simp only [hid, if_true, List.getElem?_map, true_and]
    cases (registered requests)[handle.index]? <;> simp
  · simp [hid]

private theorem document_eq_error {s : Session} {handle : Handle} (h : ∀ stored, s.document handle ≠ .ok stored) :
    s.document handle = .error (.documentNotFound handle) := by
  unfold document at h ⊢
  cases hfind : s.store.find? handle with
  | none => rfl
  | some stored => exact absurd (by rw [hfind]) (h stored)

private theorem handles_after : (after id validator requests).store.handles =
    (List.range (registered requests).length).map fun index => ⟨id, index⟩ := by
  simp [after, DocumentStore.handles]

/-- The handles are listed in the order in which their documents were added. -/
theorem map_document_handles :
    (after id validator requests).store.handles.map (after id validator requests).document =
      (registered requests).map fun text => .ok (.ofText text) := by
  refine List.ext_getElem (by simp [handles_after]) fun index hleft hright => ?_
  have hindex : index < (registered requests).length := by simpa using hright
  simp only [handles_after, List.getElem_map, List.getElem_range]
  exact document_after.2 ⟨rfl, by simp [hindex]⟩

private theorem schema?_after : (after id validator requests).schema? =
    (lastSchema? requests).bind fun text => (Schema.ofTexts [text]).toOption := by
  rw [after, schema?]
  cases lastSchema? requests with
  | none => rfl
  | some text =>
    simp only [Option.elim_some, Option.bind_some, SchemaState.ofText]
    cases Schema.ofTexts [text] <;> rfl

private theorem schemaDiagnostics_after : (after id validator requests).schemaDiagnostics =
    match (lastSchema? requests).map fun text => Schema.ofTexts [text] with
    | none => [Rule.missingSchema.finding "no schema has been set" []]
    | some (.ok _) => []
    | some (.error e) => e.diagnostics := by
  rw [after, schemaDiagnostics]
  cases lastSchema? requests with
  | none => rfl
  | some text =>
    simp only [Option.elim_some, Option.map_some, SchemaState.ofText]
    cases Schema.ofTexts [text] <;> rfl

/-- Validating reads the outcome of parsing, the schema and the validator. -/
theorem validateFile_of_document {s : Session} {handle : Handle} {stored : StoredDocument}
    (h : s.document handle = .ok stored) : s.validateFile handle =
      match stored.outcome with
      | .ok d => s.validateDocument d
      | .error diagnostic => .ok [diagnostic] := by
  rw [validateFile, h]
  rfl

end Session

end

/-! ### Runs -/

/-- The validators of the sessions opened, by their places. -/
def validatorsOf (actions : List Action) : List Validator :=
  actions.filterMap fun
    | .newSession validator => some validator
    | .request .. => none

/-- What was requested of the session at a place. -/
def requestsTo (place : Nat) (actions : List Action) : List Request :=
  actions.filterMap fun
    | .newSession _ => none
    | .request p request => if p = place then some request else none

/-- The sessions of a workspace are what the actions make of them. -/
structure Workspace.Remembers (w : Workspace) (actions : List Action) : Prop where
  sessions : w.sessions = (validatorsOf actions).mapIdx fun place validator =>
    .after place validator (requestsTo place actions)
  opened : ∀ place, (validatorsOf actions).length ≤ place → requestsTo place actions = []

section
variable {actions : List Action} {place : Nat}

private theorem validatorsOf_newSession {validator : Validator} :
    validatorsOf (actions ++ [.newSession validator]) = validatorsOf actions ++ [validator] := by
  simp [validatorsOf]

private theorem validatorsOf_request {request : Request} :
    validatorsOf (actions ++ [.request place request]) = validatorsOf actions := by
  simp [validatorsOf]

private theorem requestsTo_newSession {validator : Validator} :
    requestsTo place (actions ++ [.newSession validator]) = requestsTo place actions := by
  simp [requestsTo]

private theorem requestsTo_request {other : Nat} {request : Request} :
    requestsTo place (actions ++ [.request other request]) =
      requestsTo place actions ++ if other = place then [request] else [] := by
  by_cases h : other = place <;> simp [requestsTo, h]

end

namespace Workspace

variable {w w' : Workspace} {actions : List Action} {action : Action} {outcome : Outcome}

private theorem Remembers.session? (h : w.Remembers actions) (place : Nat) : w.session? place =
    (validatorsOf actions)[place]?.map fun validator => .after place validator (requestsTo place actions) := by
  rw [Workspace.session?, h.sessions, List.getElem?_mapIdx]

/-- A request is made to an open session, and only this session changes. -/
theorem perform_request_iff {place : Nat} {request : Request} :
    w.perform (.request place request) = some (outcome, w') ↔ ∃ s, w.session? place = some s ∧
      outcome = .response (s.perform request).1 ∧ w' = w.update place (s.perform request).2 := by
  simp only [perform, bind, Option.bind_eq_some_iff, pure, Option.some.injEq, Prod.mk.injEq]
  constructor <;> rintro ⟨s, hs, ho, hw⟩ <;> exact ⟨s, hs, ho.symm, hw.symm⟩

private theorem perform_request {place : Nat} {s : Session} (h : w.session? place = some s) (request : Request) :
    w.perform (.request place request) =
      some (.response (s.perform request).1, w.update place (s.perform request).2) :=
  perform_request_iff.2 ⟨s, h, rfl, rfl⟩

/-- An action is remembered with the others. -/
theorem Remembers.perform (h : w.Remembers actions) (hperform : w.perform action = some (outcome, w')) :
    w'.Remembers (actions ++ [action]) := by
  cases action with
  | newSession validator =>
    obtain ⟨-, rfl⟩ := Prod.mk.inj (Option.some.inj hperform)
    have hlength : w.sessions.length = (validatorsOf actions).length := by rw [h.sessions, List.length_mapIdx]
    constructor
    case sessions =>
      simp only [validatorsOf_newSession, requestsTo_newSession, List.mapIdx_append, ← h.sessions, hlength]
      simp [Session.after, h.opened _ (Nat.le_refl _), lastSchema?, registered]
    case opened =>
      intro place hplace
      rw [validatorsOf_newSession, List.length_append] at hplace
      rw [requestsTo_newSession]
      exact h.opened place (by omega)
  | request place request =>
    obtain ⟨s, hs, -, rfl⟩ := perform_request_iff.1 hperform
    rw [h.session?, Option.map_eq_some_iff] at hs
    obtain ⟨validator, hvalidator, rfl⟩ := hs
    constructor
    case sessions =>
      rw [Session.perform_after, Workspace.update, h.sessions, validatorsOf_request]
      refine List.ext_getElem? fun other => ?_
      rw [List.getElem?_set, List.getElem?_mapIdx, List.getElem?_mapIdx, requestsTo_request]
      by_cases hother : place = other
      · subst hother
        rw [if_pos rfl, if_pos rfl, hvalidator, List.length_mapIdx, if_pos (List.getElem?_eq_some_iff.1 hvalidator).1]
        rfl
      · rw [if_neg hother, if_neg hother, List.append_nil]
    case opened =>
      intro other hother
      rw [validatorsOf_request] at hother
      have hplace : place < (validatorsOf actions).length := (List.getElem?_eq_some_iff.1 hvalidator).1
      rw [requestsTo_request, h.opened other hother, if_neg (by omega), List.append_nil]

private theorem Remembers.handle_of_perform (h : w.Remembers actions) (hperform : w.perform action = some (outcome, w'))
    {handle : Handle} (hhandle : outcome.handle? = some handle) : ∃ request text, request.text? = some text ∧
      action = .request handle.store request ∧
      handle.index = (registered (requestsTo handle.store actions)).length := by
  cases action with
  | newSession validator =>
    obtain ⟨rfl, -⟩ := Prod.mk.inj (Option.some.inj hperform)
    cases hhandle
  | request place request =>
    obtain ⟨s, hs, rfl, -⟩ := perform_request_iff.1 hperform
    rw [h.session?, Option.map_eq_some_iff] at hs
    obtain ⟨validator, -, rfl⟩ := hs
    obtain ⟨⟨text, htext⟩, rfl⟩ := Session.handle_of_perform hhandle
    exact ⟨request, text, htext, rfl, rfl⟩

/-- A run is its first step, and the run from there. -/
private theorem run_cons {outcomes : List Outcome} : w.run (action :: actions) = some (outcomes, w') ↔
    ∃ outcome next rest, w.perform action = some (outcome, next) ∧ next.run actions = some (rest, w') ∧
      outcomes = outcome :: rest := by
  simp only [run, bind, pure, Option.bind_eq_some_iff, Option.some.injEq, Prod.mk.injEq, Prod.exists]
  constructor
  · rintro ⟨outcome, next, hperform, rest, final, hrest, rfl, rfl⟩
    exact ⟨outcome, next, rest, hperform, hrest, rfl⟩
  · rintro ⟨outcome, next, rest, hperform, hrest, rfl⟩
    exact ⟨outcome, next, hperform, rest, w', hrest, rfl, rfl⟩

private theorem remembers_nil : Remembers {} [] := ⟨rfl, fun _ _ => rfl⟩

/-- What a run remembers, after it and at each of its actions. -/
theorem Remembers.run {done : List Action} {outcomes : List Outcome} (h : w.Remembers done)
    (hrun : w.run actions = some (outcomes, w')) : w'.Remembers (done ++ actions) ∧
      ∀ (k : Nat) (outcome : Outcome), outcomes[k]? = some outcome →
        ∃ action now next, actions[k]? = some action ∧ Remembers now (done ++ actions.take k) ∧
          now.perform action = some (outcome, next) := by
  induction actions generalizing w done outcomes with
  | nil =>
    obtain ⟨rfl, rfl⟩ := Prod.mk.inj (Option.some.inj hrun)
    exact ⟨by rwa [List.append_nil], fun k outcome hk => by simp at hk⟩
  | cons action actions ih =>
    obtain ⟨outcome, next, rest, hperform, hrest, rfl⟩ := run_cons.1 hrun
    obtain ⟨hremembers, hsteps⟩ := ih (h.perform hperform) hrest
    rw [List.append_assoc, List.singleton_append] at hremembers
    refine ⟨hremembers, fun k outcome' hk => ?_⟩
    cases k with
    | zero =>
      obtain rfl := Option.some.inj hk
      exact ⟨action, w, next, rfl, by rwa [List.take_zero, List.append_nil], hperform⟩
    | succ k =>
      obtain ⟨action', now, next', haction, hnow, hperform'⟩ := hsteps k outcome' hk
      rw [List.append_assoc, List.singleton_append] at hnow
      exact ⟨action', now, next', haction, hnow, hperform'⟩

/-- The place among the actions where a handle was given out. -/
theorem handle_of_run {outcomes : List Outcome} (h : run {} actions = some (outcomes, w)) {k : Nat} {handle : Handle}
    (hhandle : outcomes[k]?.bind Outcome.handle? = some handle) :
    ∃ request text, request.text? = some text ∧ actions[k]? = some (.request handle.store request) ∧
      handle.index = (registered (requestsTo handle.store (actions.take k))).length := by
  obtain ⟨outcome, hk, hhandle⟩ := Option.bind_eq_some_iff.1 hhandle
  obtain ⟨action, now, next, haction, hnow, hperform⟩ := (remembers_nil.run h).2 k outcome hk
  obtain ⟨request, text, htext, rfl, hindex⟩ := hnow.handle_of_perform hperform hhandle
  exact ⟨request, text, htext, haction, hindex⟩

/-- What a request is answered in a run is what the requests before, made to the same session, make of it. -/
theorem response_of_run {outcomes : List Outcome} (h : run {} actions = some (outcomes, w)) {k place : Nat}
    {request : Request} (hrequest : actions[k]? = some (.request place request)) {outcome : Outcome}
    (houtcome : outcomes[k]? = some outcome) : ∃ validator, (validatorsOf (actions.take k))[place]? = some validator ∧
      outcome = .response
        ((Session.after place validator (requestsTo place (actions.take k))).perform request).1 := by
  obtain ⟨action, now, next, haction, hnow, hperform⟩ := (remembers_nil.run h).2 k outcome houtcome
  obtain rfl := Option.some.inj (hrequest.symm.trans haction)
  obtain ⟨s, hs, rfl, -⟩ := perform_request_iff.1 hperform
  rw [hnow.session?, Option.map_eq_some_iff] at hs
  obtain ⟨validator, hvalidator, rfl⟩ := hs
  exact ⟨validator, hvalidator, rfl⟩

/-- A run may be cut into two. -/
private theorem run_append {outcomes : List Outcome} (h : w.run actions = some (outcomes, w')) (more : List Action) :
    w.run (actions ++ more) = (w'.run more).map fun result => (outcomes ++ result.1, result.2) := by
  induction actions generalizing w outcomes with
  | nil =>
    obtain ⟨rfl, rfl⟩ := Prod.mk.inj (Option.some.inj h)
    simp
  | cons action actions ih =>
    obtain ⟨outcome, next, rest, hperform, hrest, rfl⟩ := run_cons.1 h
    rw [List.cons_append, run, hperform]
    simp only [bind, pure, Option.bind_some, ih hrest]
    cases w'.run more <;> simp

/-- Opens a session for one document, sets a schema if there is one, adds the document and validates it. -/
def freshCheck (w : Workspace) (validator : Validator) (schema : Option String) (source : String)
    (path : Option String) : List Action :=
  let place := w.sessions.length
  .newSession validator ::
    ((schema.toList.map Request.setSchema ++ [Request.add source path]).map (Action.request place) ++
      [.request place (.ask (.validateFile ⟨place, 0⟩))])

private theorem session?_update {place : Nat} {s : Session} (h : w.session? place = some s) (s' : Session) :
    (w.update place s').session? place = some s' := by
  have hplace := (List.getElem?_eq_some_iff.1 h).1
  rw [Workspace.session?, update, List.getElem?_set, if_pos rfl, if_pos hplace]

private theorem exists_run_requests {place id : Nat} {validator : Validator} {done : List Request}
    (h : w.session? place = some (.after id validator done)) (requests : List Request) :
    ∃ outcomes w', w.run (requests.map (.request place)) = some (outcomes, w') ∧
      w'.session? place = some (.after id validator (done ++ requests)) := by
  induction requests generalizing w done with
  | nil => exact ⟨[], w, rfl, by rwa [List.append_nil]⟩
  | cons request requests ih =>
    have hperform := perform_request h request
    rw [Session.perform_after] at hperform
    obtain ⟨outcomes, w', hrun, hs⟩ := ih (session?_update h (.after id validator (done ++ [request])))
    rw [List.append_assoc, List.singleton_append] at hs
    exact ⟨_, w', run_cons.2 ⟨_, _, _, hperform, hrun, rfl⟩, hs⟩

private theorem exists_run_freshCheck (w : Workspace) (validator : Validator) (schema : Option String) (source : String)
    (path : Option String) : ∃ outcomes w', w.run (w.freshCheck validator schema source path) =
      some (outcomes ++ [.response (.answer (.findings ((Session.after w.sessions.length validator
        (schema.toList.map Request.setSchema ++ [.add source path])).validateFile ⟨w.sessions.length, 0⟩)))], w') := by
  have hopen : w.perform (.newSession validator) =
      some (.opened w.sessions.length, (w.newSession validator).2) := rfl
  have hs : (w.newSession validator).2.session? w.sessions.length =
      some (.after w.sessions.length validator []) := by
    simp [Workspace.session?, newSession, Session.after, lastSchema?, registered]
  obtain ⟨outcomes, next, hrun, hnext⟩ :=
    exists_run_requests hs (schema.toList.map Request.setSchema ++ [Request.add source path])
  have hask := perform_request hnext (.ask (.validateFile ⟨w.sessions.length, 0⟩))
  have hlast : next.run [.request w.sessions.length (.ask (.validateFile ⟨w.sessions.length, 0⟩))] = _ :=
    run_cons.2 ⟨_, _, [], hask, rfl, rfl⟩
  have hrest := run_append hrun [.request w.sessions.length (.ask (.validateFile ⟨w.sessions.length, 0⟩))]
  rw [hlast] at hrest
  exact ⟨.opened w.sessions.length :: outcomes, _, run_cons.2 ⟨_, _, _, hopen, hrest, rfl⟩⟩

private theorem length_newSession (w : Workspace) (validator : Validator) :
    (w.newSession validator).2.sessions.length = w.sessions.length + 1 := by
  simp [newSession]

private theorem length_update (w : Workspace) (place : Nat) (s : Session) :
    (w.update place s).sessions.length = w.sessions.length := by
  simp [update]

/-- Whether every request is made to a session that is open by then, some being open from the start. -/
def namesOpened (opened : Nat) : List Action → Bool
  | [] => true
  | .newSession _ :: actions => namesOpened (opened + 1) actions
  | .request place _ :: actions => place < opened && namesOpened opened actions

/-- Nothing else keeps a run from going through. -/
theorem isSome_run_iff : (w.run actions).isSome ↔ namesOpened w.sessions.length actions := by
  induction actions generalizing w with
  | nil => simp [run, namesOpened]
  | cons action actions ih =>
    cases action with
    | newSession validator =>
      rw [namesOpened, ← length_newSession w validator, ← ih]
      simp only [run, perform, bind, Option.bind_some]
      cases (w.newSession validator).2.run actions <;> simp
    | request place request =>
      cases hs : w.session? place with
      | none =>
        have hplace := List.getElem?_eq_none_iff.1 hs
        simp [run, perform, hs, namesOpened, Nat.not_lt.2 hplace]
      | some s =>
        have hplace := (List.getElem?_eq_some_iff.1 hs).1
        rw [namesOpened, decide_eq_true hplace, Bool.true_and, ← length_update w place (s.perform request).2, ← ih, run,
          perform_request hs request]
        simp only [bind, Option.bind_some]
        cases (w.update place (s.perform request).2).run actions <;> simp

end Workspace

/-! ### What a run shows -/

/-- How a session answers, told from its identity, its validator and what was requested of it. -/
structure Session.Answers (s : Session) (id : Nat) (validator : Validator) (requests : List Request) : Prop where
  sameValidator : s.validator = validator
  /-- The handles found are those of the texts registered, and each yields its text and the outcome of parsing it. -/
  document : ∀ handle stored, s.document handle = .ok stored ↔
    handle.store = id ∧ (registered requests)[handle.index]? = some (stored.source, stored.path) ∧
      stored.outcome = Document.read stored.source
  notFound : ∀ handle, (∀ stored, s.document handle ≠ .ok stored) →
    s.document handle = .error (.documentNotFound handle)
  /-- The handles are listed in the order of registration. -/
  handles : s.store.handles.map s.document = (registered requests).map fun text => .ok (.ofText text)
  size : s.store.size = (registered requests).length
  /-- The schema is that of the last text, if this is a schema. -/
  schema : s.schema? = (lastSchema? requests).bind fun text => (Schema.ofTexts [text]).toOption
  schemaDiagnostics : s.schemaDiagnostics =
    match (lastSchema? requests).map fun text => Schema.ofTexts [text] with
    | none => [Rule.missingSchema.finding "no schema has been set" []]
    | some (.ok _) => []
    | some (.error e) => e.diagnostics
  /-- A document is validated as by a session opened for it in any workspace. -/
  validateFile : ∀ handle stored, s.document handle = .ok stored → ∀ w : Workspace, ∃ outcomes w',
    w.run (w.freshCheck validator (lastSchema? requests) stored.source stored.path) =
      some (outcomes ++ [.response (.answer (.findings (s.validateFile handle)))], w')
  syntaxError : ∀ handle stored diagnostic, s.document handle = .ok stored → stored.outcome = .error diagnostic →
    s.validateFile handle = .ok [diagnostic]

/-- The requests to a session opened for one document. -/
theorem Session.document_of_fresh (id : Nat) (validator : Validator) (schema : Option String)
    (text : String × Option String) :
    (after id validator (schema.toList.map Request.setSchema ++ [.add text.1 text.2])).document ⟨id, 0⟩ =
      .ok (.ofText text) :=
  document_after.2 ⟨rfl, by cases schema <;> rfl⟩

private theorem Session.validateDocument_of_fresh (id id' : Nat) (validator : Validator) (requests : List Request)
    (text : String × Option String) (d : Document) :
    (after id validator ((lastSchema? requests).toList.map Request.setSchema ++ [.add text.1 text.2])).validateDocument
      d = (after id' validator requests).validateDocument d := by
  have hschema : lastSchema? ((lastSchema? requests).toList.map Request.setSchema ++ [.add text.1 text.2]) =
      lastSchema? requests := by
    cases lastSchema? requests <;> rfl
  rw [validateDocument, validateDocument, schema?_after, schema?_after, hschema]
  rfl

private theorem Session.answers_after (id : Nat) (validator : Validator) (requests : List Request) :
    (after id validator requests).Answers id validator requests := by
  constructor
  case document =>
    intro handle stored
    rw [document_after, Option.map_eq_some_iff]
    refine and_congr_right fun _ => ⟨?_, fun ⟨htext, houtcome⟩ => ⟨_, htext, ?_⟩⟩
    · rintro ⟨text, htext, rfl⟩
      exact ⟨htext, rfl⟩
    · rw [StoredDocument.ofText, ← houtcome]
  case sameValidator => rfl
  case notFound => exact fun _ => document_eq_error
  case handles => exact map_document_handles
  case size => simp [after, DocumentStore.size]
  case schema => exact schema?_after
  case schemaDiagnostics => exact schemaDiagnostics_after
  case validateFile =>
    intro handle stored hstored w
    obtain ⟨-, hstoredText⟩ := document_after.1 hstored
    obtain ⟨text, -, rfl⟩ := Option.map_eq_some_iff.1 hstoredText
    obtain ⟨outcomes, w', hrun⟩ := w.exists_run_freshCheck validator (lastSchema? requests) text.1 text.2
    have hfresh := document_of_fresh w.sessions.length validator (lastSchema? requests) text
    simp only [validateFile_of_document hfresh, validateDocument_of_fresh _ id validator requests text] at hrun
    rw [validateFile_of_document hstored]
    exact ⟨outcomes, w', hrun⟩
  case syntaxError =>
    intro handle stored diagnostic hstored houtcome
    rw [validateFile_of_document hstored, houtcome]

/-- The texts registered before an action that registers one, this one, and those after it. -/
theorem registered_split {actions : List Action} {k place : Nat} {request : Request} {text : String × Option String}
    (h : actions[k]? = some (.request place request)) (htext : request.text? = some text) :
    registered (requestsTo place actions) = registered (requestsTo place (actions.take k)) ++
      text :: registered (requestsTo place (actions.drop (k + 1))) := by
  obtain ⟨hk, hget⟩ := List.getElem?_eq_some_iff.1 h
  have hsplit : actions = actions.take k ++ .request place request :: actions.drop (k + 1) := by
    rw [← hget, List.getElem_cons_drop, List.take_append_drop]
  conv => lhs; rw [hsplit]
  simp [registered, requestsTo, htext]

namespace Workspace

variable {w w' : Workspace} {actions : List Action} {outcomes : List Outcome}

/-- A run gives out no handle twice: a later one has more texts before it. -/
theorem nodup_handles_of_run (h : run {} actions = some (outcomes, w)) :
    (outcomes.filterMap Outcome.handle?).Nodup := by
  rw [List.Nodup, List.pairwise_filterMap, List.pairwise_iff_getElem]
  intro k l hk hl hlt a ha b hb hab
  subst hab
  obtain ⟨request, text, htext, hrequest, hindex⟩ := handle_of_run h (by rw [List.getElem?_eq_getElem hk]; exact ha)
  obtain ⟨-, -, -, -, hindex'⟩ := handle_of_run h (by rw [List.getElem?_eq_getElem hl]; exact hb)
  rw [← List.getElem?_take_of_lt hlt] at hrequest
  have hsplit := registered_split hrequest htext
  rw [List.take_take, Nat.min_eq_left (Nat.le_of_lt hlt)] at hsplit
  rw [hsplit, List.length_append, List.length_cons] at hindex'
  omega

private theorem mem_handles_iff {s : Session} {handle : Handle} :
    handle ∈ s.store.handles ↔ handle.store = s.store.id ∧ handle.index < s.store.size := by
  simp only [DocumentStore.handles, DocumentStore.size, List.mem_map, List.mem_range]
  constructor
  · rintro ⟨index, hindex, rfl⟩
    exact ⟨rfl, hindex⟩
  · rintro ⟨hstore, hindex⟩
    exact ⟨handle.index, hindex, by rw [← hstore]⟩

private theorem nodup_handles (s : Session) : s.store.handles.Nodup :=
  List.nodup_range.map fun _ _ h => congrArg Handle.index h

private theorem Remembers.id_eq (h : w.Remembers actions) {place : Nat} {s : Session}
    (hs : w.sessions[place]? = some s) :
    s.store.id = place := by
  rw [← Workspace.session?, h.session?] at hs
  obtain ⟨validator, -, rfl⟩ := Option.map_eq_some_iff.1 hs
  rfl

private theorem Remembers.exists_session_of_registered (h : w.Remembers actions) {place index : Nat}
    {text : String × Option String} (htext : (registered (requestsTo place actions))[index]? = some text) :
    ∃ validator, w.session? place = some (.after place validator (requestsTo place actions)) := by
  have hplace : place < (validatorsOf actions).length := by
    by_contra hplace
    rw [h.opened place (Nat.not_lt.1 hplace)] at htext
    cases htext
  exact ⟨_, by rw [h.session?, List.getElem?_eq_getElem hplace]; rfl⟩

/-- No two documents of a workspace have the same handle. -/
theorem Remembers.nodup_handles (h : w.Remembers actions) : (w.sessions.flatMap (·.store.handles)).Nodup := by
  refine List.nodup_flatMap.2 ⟨fun s _ => Workspace.nodup_handles s, List.pairwise_iff_getElem.2 ?_⟩
  intro place other hplace hother hlt handle hleft hright
  have hid := h.id_eq (List.getElem?_eq_getElem hplace)
  have hid' := h.id_eq (List.getElem?_eq_getElem hother)
  rw [mem_handles_iff] at hleft hright
  omega

end Workspace

/-- A handle as it is kept, in two numbers of 32 bits. -/
def Handle.words (handle : Handle) : UInt32 × UInt32 := (.ofNat handle.store, .ofNat handle.index)

private theorem UInt32.ofNat_inj_of_lt {m n : Nat} (hm : m < 2 ^ 32) (hn : n < 2 ^ 32)
    (h : UInt32.ofNat m = UInt32.ofNat n) :
    m = n := by
  have h := congrArg UInt32.toNat h
  rwa [UInt32.toNat_ofNat_of_lt' hm, UInt32.toNat_ofNat_of_lt' hn] at h

/-- Handles stay apart in 32 bits as long as there are not more sessions, nor documents in one of them, than 32 bits
can tell apart. -/
theorem Workspace.Remembers.nodup_words {w : Workspace} {actions : List Action} (h : w.Remembers actions)
    (hsessions : w.sessions.length ≤ 2 ^ 32) (hdocuments : ∀ s ∈ w.sessions, s.store.size ≤ 2 ^ 32) :
    ((w.sessions.flatMap (·.store.handles)).map Handle.words).Nodup := by
  have hbound {handle : Handle} (hhandle : handle ∈ w.sessions.flatMap (·.store.handles)) :
      handle.store < 2 ^ 32 ∧ handle.index < 2 ^ 32 := by
    obtain ⟨s, hs, hmem⟩ := List.mem_flatMap.1 hhandle
    obtain ⟨hstore, hindex⟩ := mem_handles_iff.1 hmem
    obtain ⟨place, hplace, rfl⟩ := List.mem_iff_getElem.1 hs
    have hid := h.id_eq (List.getElem?_eq_getElem hplace)
    have hsize := hdocuments _ hs
    omega
  refine h.nodup_handles.map_on fun a ha b hb hwords => ?_
  obtain ⟨hstore, hindex⟩ := Prod.mk.inj hwords
  have hstore := UInt32.ofNat_inj_of_lt (hbound ha).1 (hbound hb).1 hstore
  have hindex := UInt32.ofNat_inj_of_lt (hbound ha).2 (hbound hb).2 hindex
  cases a
  cases b
  exact congrArg₂ Handle.mk hstore hindex

/-- A run goes through if its requests are made to open sessions, and then it gives out no handle twice. A handle
given out is that of the text it was given out for, in the session that registered it and in the order of
registration; and every session answers from what was requested of it alone. -/
theorem Workspace.answers_of_run {actions : List Action} (h : namesOpened 0 actions) :
    ∃ outcomes w, ({} : Workspace).run actions = some (outcomes, w) ∧
      (outcomes.filterMap Outcome.handle?).Nodup ∧
      (∀ (k : Nat) handle, outcomes[k]?.bind Outcome.handle? = some handle → ∃ request text s,
        actions[k]? = some (.request handle.store request) ∧ request.text? = some text ∧
        w.session? handle.store = some s ∧ s.document handle = .ok (.ofText text) ∧
        s.store.handles[(registered (requestsTo handle.store (actions.take k))).length]? = some handle) ∧
      (∀ (k : Nat) place request outcome, actions[k]? = some (.request place request) → outcomes[k]? = some outcome →
        ∃ validator, (validatorsOf (actions.take k))[place]? = some validator ∧ outcome = .response
          ((Session.after place validator (requestsTo place (actions.take k))).perform request).1) ∧
      (∀ place s, w.session? place = some s → ∃ validator, (validatorsOf actions)[place]? = some validator ∧
        s.Answers place validator (requestsTo place actions)) ∧
      (w.sessions.length ≤ 2 ^ 32 → (∀ s ∈ w.sessions, s.store.size ≤ 2 ^ 32) →
        ((w.sessions.flatMap (·.store.handles)).map Handle.words).Nodup) := by
  obtain ⟨⟨outcomes, w⟩, hrun⟩ := Option.isSome_iff_exists.1 ((isSome_run_iff (w := {})).2 h)
  have hremembers := (remembers_nil.run hrun).1
  rw [List.nil_append] at hremembers
  refine ⟨outcomes, w, hrun, nodup_handles_of_run hrun, ?_,
    fun _ _ _ _ hrequest houtcome => response_of_run hrun hrequest houtcome, ?_, hremembers.nodup_words⟩
  · intro k handle hk
    obtain ⟨request, text, htext, hrequest, hindex⟩ := handle_of_run hrun hk
    have hregistered : (registered (requestsTo handle.store actions))[handle.index]? = some text := by
      rw [registered_split hrequest htext, hindex, List.getElem?_append_right (Nat.le_refl _), Nat.sub_self]
      rfl
    obtain ⟨validator, hs⟩ := hremembers.exists_session_of_registered hregistered
    have hhandle : handle.index < (registered (requestsTo handle.store actions)).length :=
      (List.getElem?_eq_some_iff.1 hregistered).1
    refine ⟨request, text, _, hrequest, htext, hs, Session.document_after.2 ⟨rfl, by rw [hregistered]; rfl⟩, ?_⟩
    rw [← hindex, Session.handles_after, List.getElem?_map, List.getElem?_range hhandle]
    rfl
  · intro place s hs
    rw [hremembers.session?] at hs
    obtain ⟨validator, hvalidator, rfl⟩ := Option.map_eq_some_iff.1 hs
    exact ⟨validator, hvalidator, Session.answers_after ..⟩

/-- Two sessions in turn: one gets a schema and then loses it, and both get documents, one of them unparsed. -/
def twoSessions : List Action :=
  [.newSession .standard, .request 0 (.setSchema "type Query \x7b a: Int \x7d"),
    .newSession (Validator.standard.without .unknownField), .request 0 (.addAndValidate "\x7b a \x7d"),
    .request 1 (.add "\x7b" (some "b.graphql")), .request 0 (.setSchema "type"),
    .request 1 (.ask (.validateFile ⟨0, 0⟩)), .request 0 (.add "\x7b b \x7d" none)]

theorem Workspace.answers_of_twoSessions : namesOpened 0 twoSessions ∧
    ∃ outcomes w, ({} : Workspace).run twoSessions = some (outcomes, w) ∧
      (outcomes.filterMap Outcome.handle?).Nodup ∧
      ∀ s, w.session? 0 = some s → s.Answers 0 .standard
        [.setSchema "type Query \x7b a: Int \x7d", .addAndValidate "\x7b a \x7d", .setSchema "type",
          .add "\x7b b \x7d" none] := by
  have hopened : namesOpened 0 twoSessions := rfl
  obtain ⟨outcomes, w, hrun, hdistinct, -, -, hanswers, -⟩ := answers_of_run hopened
  refine ⟨hopened, outcomes, w, hrun, hdistinct, fun s hs => ?_⟩
  obtain ⟨validator, hvalidator, hs⟩ := hanswers 0 s hs
  obtain rfl := Option.some.inj hvalidator
  exact hs

end GraphQL
