import GraphQL.Proofs.Evaluation
import GraphQL.Session

/-!
# Schemas that are not built

A schema is not built when its draft has a fault, and when the draft leaves the query root out: it says which
types operations begin at, but not for queries, while some type is called `Query`. Only the second reason leaves
the list of faults empty (`Draft.rootName?_query_eq_none_iff`).
-/

namespace GraphQL

namespace Draft

/-- The draft that some documents give after the prelude. -/
def ofDocuments (documents : List SchemaDocument) : Draft := documents.foldl addDocument .start

/-- The schema says at which types operations begin and leaves queries out, and a type is called `Query`. -/
def OmitsQueryRoot (d : Draft) : Prop :=
  (d.schemaSpan.isSome ∨ d.roots ≠ []) ∧ (∀ root ∈ d.roots, root.kind ≠ .query) ∧
    Named.contains d.types "Query" = true

instance (d : Draft) : Decidable d.OmitsQueryRoot := inferInstanceAs (Decidable (_ ∧ _ ∧ _))

private theorem rootOperations_of_described {d : Draft} (h : d.schemaSpan.isSome ∨ d.roots ≠ []) :
    d.rootOperations = d.roots := by
  have hnot : ¬(d.schemaSpan.isNone && d.roots.isEmpty) := by
    rcases h with h | h
    · simp [Option.isSome_iff_ne_none.1 h]
    · simp [h]
  rw [rootOperations, if_neg hnot]

private theorem rootOperations_of_not_described {d : Draft} (h : ¬(d.schemaSpan.isSome ∨ d.roots ≠ [])) :
    d.rootOperations = OperationKind.all.filterMap fun kind =>
      (Named.find? d.types kind.defaultRoot).map fun t => ⟨kind, ⟨kind.defaultRoot, t.span⟩, t.span⟩ := by
  simp only [not_or, Bool.not_eq_true, Option.isSome_eq_false_iff, ne_eq, Decidable.not_not] at h
  simp [rootOperations, h.1, h.2]

/-- A root operation without a fault is at an object type. -/
private theorem exists_object_of_rootFaults {d : Draft} (h : d.rootFaults = []) {root : RootOperation}
    (hroot : root ∈ d.rootOperations) :
    ∃ t, Named.find? d.types root.typeName.value = some t ∧ t.kind = .object := by
  have hfaults := List.append_eq_nil_iff.1 h |>.1
  have hnone := List.flatMap_eq_nil_iff.1 hfaults root hroot
  cases ht : Named.find? d.types root.typeName.value with
  | none => simp [ht] at hnone
  | some t =>
    by_cases hkind : t.kind = .object
    · exact ⟨t, rfl, hkind⟩
    · simp [ht, hkind] at hnone

/-- Without a fault at the roots, the first root of each kind is taken. -/
private theorem rootName?_eq_some {d : Draft} (h : d.rootFaults = []) {kind : OperationKind} {root : RootOperation}
    (hroot : d.rootOperations.find? (·.kind = kind) = some root) :
    d.rootName? kind = some root.typeName.value := by
  obtain ⟨t, ht, hkind⟩ := exists_object_of_rootFaults h (List.mem_of_find?_eq_some hroot)
  simp [rootName?, hroot, ht, hkind]

private theorem noQueryRoot_reported {d : Draft} (h : d.rootFaults = []) (hnone : d.rootName? .query = none) :
    d.roots.any (·.kind = .query) ∨ Named.contains d.types "Query" := by
  have hfaults := List.append_eq_nil_iff.1 h |>.2
  cases hno : d.roots.any (·.kind = .query) || Named.contains d.types "Query" with
  | true => simpa using hno
  | false => simp [hnone, hno] at hfaults

/-- Where no fault of the roots is found, the query root is missing exactly when it is left out. -/
theorem rootName?_query_eq_none_iff {d : Draft} (h : d.rootFaults = []) :
    d.rootName? .query = none ↔ d.OmitsQueryRoot := by
  constructor
  · intro hnone
    have hfind : d.rootOperations.find? (·.kind = .query) = none := by
      cases hroot : d.rootOperations.find? (·.kind = .query) with
      | none => rfl
      | some root => simp [rootName?_eq_some h hroot] at hnone
    by_cases hd : d.schemaSpan.isSome ∨ d.roots ≠ []
    · rw [rootOperations_of_described hd] at hfind
      have hkinds : ∀ root ∈ d.roots, root.kind ≠ .query := by simpa using hfind
      refine ⟨hd, hkinds, ?_⟩
      rcases noQueryRoot_reported h hnone with hq | hq
      · obtain ⟨root, hroot, hkind⟩ := List.any_eq_true.1 hq
        exact absurd (of_decide_eq_true hkind) (hkinds root hroot)
      · exact hq
    · -- without a description the type called `Query` is the root
      exfalso
      have hroots : d.roots = [] := Decidable.not_not.1 fun hne => hd (.inr hne)
      rcases noQueryRoot_reported h hnone with hq | hq
      · simp [hroots] at hq
      · obtain ⟨t, ht⟩ := Named.exists_find?_of_contains hq
        rw [rootOperations_of_not_described hd] at hfind
        simp [OperationKind.all, OperationKind.defaultRoot, ht] at hfind
  · rintro ⟨hd, hkinds, -⟩
    have hfind : d.rootOperations.find? (·.kind = .query) = none := by
      rw [rootOperations_of_described hd]
      simpa using hkinds
    simp [rootName?, hfind]

private theorem rootFaults_of_allFaults {d : Draft} (h : d.allFaults = []) : d.extended.rootFaults = [] := by
  simp only [allFaults, finalFaults, List.append_eq_nil_iff] at h
  exact h.2.1.1.1.2

/-- A build reports exactly the faults of its draft, and fails for a fault or for a query root left out. -/
theorem build_eq_error_iff {d : Draft} {faults : List SchemaFault} :
    d.build = .error faults ↔ faults = d.allFaults ∧ (d.allFaults ≠ [] ∨ d.extended.OmitsQueryRoot) := by
  unfold build
  cases hall : d.allFaults with
  | cons fault rest => simp [eq_comm]
  | nil =>
    rw [← rootName?_query_eq_none_iff (rootFaults_of_allFaults hall)]
    cases hq : d.extended.rootName? .query with
    | none => simp [hq, eq_comm]
    | some query => simp [hq]

end Draft

private theorem SchemaError.diagnostics_eq_nil_iff {e : SchemaError} : e.diagnostics = [] ↔ e = .invalid [] := by
  cases e with
  | unparsed cause => simp [diagnostics]
  | invalid faults => simp [diagnostics, Diagnostic.sorted_eq_nil_iff]

namespace Schema

/-- The draft of some documents has no fault, and leaves the query root out. -/
def FailsWithoutFault (documents : List SchemaDocument) : Prop :=
  (Draft.ofDocuments documents).allFaults = [] ∧
    (Draft.ofDocuments documents).extended.OmitsQueryRoot

private theorem build_eq (documents : List SchemaDocument) :
    build documents = (Draft.ofDocuments documents).build := rfl

private theorem build_eq_error_nil_iff {documents : List SchemaDocument} :
    build documents = .error [] ↔ FailsWithoutFault documents := by
  rw [build_eq, Draft.build_eq_error_iff, FailsWithoutFault]
  constructor
  · rintro ⟨hnil, hne | homits⟩
    · exact absurd hnil.symm hne
    · exact ⟨hnil.symm, homits⟩
  · rintro ⟨hnil, homits⟩
    exact ⟨hnil.symm, .inr homits⟩

private theorem ofTexts_single (source : String) :
    ofTexts [source] = match SchemaDocument.parse source with
      | .error cause => .error (.unparsed cause)
      | .ok document => (build [document]).mapError .invalid := by
  cases h : SchemaDocument.parse source with
  | error cause => simp [ofTexts, h, bind, Except.bind]
  | ok document => simp [ofTexts, h, bind, Except.bind, pure, Except.pure]

private theorem mapError_eq_invalid_nil_iff {r : Except (List SchemaFault) Schema} :
    r.mapError SchemaError.invalid = .error (.invalid []) ↔ r = .error [] := by
  cases r with
  | ok schema => exact ⟨(nomatch ·), (nomatch ·)⟩
  | error faults =>
    change Except.error (SchemaError.invalid faults) = _ ↔ _
    simp

private theorem ofTexts_eq_invalid_nil_iff {source : String} :
    ofTexts [source] = .error (.invalid []) ↔
      ∃ document, SchemaDocument.parse source = .ok document ∧ FailsWithoutFault [document] := by
  rw [ofTexts_single]
  cases h : SchemaDocument.parse source with
  | error cause => simp
  | ok document =>
    simp only [Except.ok.injEq, exists_eq_left', ← build_eq_error_nil_iff, mapError_eq_invalid_nil_iff]

end Schema

/-- Setting a schema fails without a diagnostic exactly when its text does so. -/
theorem Session.setSchema_silent_iff {s : Session} {source : String} :
    ((s.setSchema source).1.isSome ∧ (s.setSchema source).2.schemaDiagnostics = []) ↔
      Schema.ofTexts [source] = .error (.invalid []) := by
  unfold setSchema
  cases Schema.ofTexts [source] with
  | ok schema => simp
  | error e => simp [schemaDiagnostics, SchemaError.diagnostics_eq_nil_iff]

/-- A build fails exactly when a fault is found, but for documents without fault that leave the query root out
although a type is called `Query`; of these a build, and a session that is given such a schema, reports nothing. -/
theorem Schema.build_fails_iff_fault_iff (documents : List SchemaDocument) (session : Session) (source : String) :
    (((∃ faults, Schema.build documents = .error faults) ↔ (Draft.ofDocuments documents).allFaults ≠ []) ↔
      ¬Schema.FailsWithoutFault documents) ∧
    (∀ faults, Schema.build documents = .error faults ↔
      faults = (Draft.ofDocuments documents).allFaults ∧ (faults ≠ [] ∨ Schema.FailsWithoutFault documents)) ∧
    ((∃ faults, Schema.build documents = .error faults ∧ (SchemaError.invalid faults).diagnostics = []) ↔
      Schema.FailsWithoutFault documents) ∧
    (((session.setSchema source).1.isSome ∧ (session.setSchema source).2.schemaDiagnostics = []) ↔
      ∃ document, SchemaDocument.parse source = .ok document ∧ Schema.FailsWithoutFault [document]) := by
  have herror (faults : List SchemaFault) : Schema.build documents = .error faults ↔
      faults = (Draft.ofDocuments documents).allFaults ∧ (faults ≠ [] ∨ Schema.FailsWithoutFault documents) := by
    rw [Schema.build_eq, Draft.build_eq_error_iff, Schema.FailsWithoutFault]
    constructor
    · rintro ⟨rfl, hne | homits⟩
      · exact ⟨rfl, .inl hne⟩
      · exact ⟨rfl, (Decidable.em _).symm.imp_right fun hnil => ⟨hnil, homits⟩⟩
    · rintro ⟨rfl, hne | ⟨-, homits⟩⟩
      · exact ⟨rfl, .inl hne⟩
      · exact ⟨rfl, .inr homits⟩
  refine ⟨?_, herror, ?_, ?_⟩
  · simp only [herror]
    constructor
    · intro h hsilent
      exact h.1 ⟨_, rfl, .inr hsilent⟩ hsilent.1
    · intro hloud
      constructor
      · rintro ⟨faults, rfl, hne | hsilent⟩
        · exact hne
        · exact absurd hsilent hloud
      · intro hne
        exact ⟨_, rfl, .inl hne⟩
  · simp [SchemaError.diagnostics_eq_nil_iff, Schema.build_eq_error_nil_iff]
  · rw [Session.setSchema_silent_iff, Schema.ofTexts_eq_invalid_nil_iff]

set_option maxRecDepth 20000 in
/-- A schema with a mutation root only is rejected without any fault because a type is called `Query`. -/
theorem Schema.mutation_root_beside_query_type :
    ∃ document,
      SchemaDocument.parse "schema \x7b mutation: M \x7d type M \x7b a: Int \x7d type Query \x7b a: Int \x7d" =
        .ok document ∧
      Schema.build [document] = .error [] := by
  obtain ⟨prelude, text, hp, ht, hsound, homits, hparse⟩ : ∃ prelude text, Prelude.text.toList = prelude ∧
      "schema \x7b mutation: M \x7d type M \x7b a: Int \x7d type Query \x7b a: Int \x7d".toList = text ∧
      (Draft.ofChars prelude text).extended.isSound ∧ (Draft.ofChars prelude text).extended.OmitsQueryRoot ∧
      (Parse.schemaDocument.run (lexChars text)).isOk :=
    ⟨_, _, String.toList_ofList, String.toList_ofList, by decide +kernel⟩
  rw [← SchemaDocument.parse_eq ht] at hparse
  cases hd : SchemaDocument.parse _ with
  | error cause => simp [hd, Except.isOk, Except.toBool] at hparse
  | ok document =>
    refine ⟨document, rfl, Schema.build_eq_error_nil_iff.2 ?_⟩
    rw [← Draft.start_addDocument_eq hp ht hd] at hsound homits
    exact ⟨Draft.allFaults_of_isSound hsound, homits⟩

end GraphQL
