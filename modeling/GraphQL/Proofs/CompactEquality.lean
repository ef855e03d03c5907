import GraphQL.Proofs.CompactExpansion
import GraphQL.Proofs.StyleInvariance

/-!
# Compact documents without spans

A document in plain style has none of what the compact form has no room for (`Document.strip_plain`), so its compact
form can be expanded to it, and two documents that say the same are those with the same compact form but for spans
(`Compact.Document.eraseSpans_eq_iff`).
-/

namespace GraphQL

mutual

/-- A plain value has no flag left to be stripped. -/
theorem Value.strip_plain : (v : Value) → (v.restyle .plain).strip = v.restyle .plain
  | .list items _ => by simp only [restyle, strip, Value.stripItems_plain items]
  | .object fields _ => by simp only [restyle, strip, Value.stripFields_plain fields]
  | .var _ | .int .. | .float .. | .string _ | .boolean .. | .null _ | .enum .. => rfl

private theorem Value.stripItems_plain :
    (vs : List Value) → stripItems (restyleItems .plain vs) = restyleItems .plain vs
  | [] => rfl
  | v :: vs => by simp only [restyleItems, stripItems, v.strip_plain, Value.stripItems_plain vs]

private theorem Value.stripFields_plain : (fs : List ObjectField) →
    stripFields (restyleFields .plain fs) = restyleFields .plain fs
  | [] => rfl
  | ⟨name, v, span⟩ :: fs => by simp only [restyleFields, stripFields, v.strip_plain, Value.stripFields_plain fs]

end

@[simp] theorem Argument.strip_plain (a : Argument) : (a.restyle .plain).strip = a.restyle .plain := by
  simp only [restyle, strip, Value.strip_plain]

@[simp] theorem Directive.strip_plain (d : Directive) : (d.restyle .plain).strip = d.restyle .plain := by
  simp [restyle, strip]

@[simp] theorem VariableDefinition.strip_plain (v : VariableDefinition) :
    (v.restyle .plain).strip = v.restyle .plain := by
  simp [restyle, strip, Function.comp_def, Value.strip_plain]

@[simp] theorem TypeCondition.strip_plain (c : TypeCondition) : (c.restyle .plain).strip = c.restyle .plain := rfl

mutual

theorem SelectionSet.strip_plain : (set : SelectionSet) → (set.restyle .plain).strip = set.restyle .plain
  | ⟨selections, span⟩ => by
    rw [SelectionSet.restyle, SelectionSet.strip, stripSelections_plain selections, Restyle.plain_span]

private theorem stripSelections_plain : (selections : List Selection) →
    stripSelections (restyleSelections .plain selections) = restyleSelections .plain selections
  | [] => rfl
  | s :: rest => by rw [restyleSelections, stripSelections, s.strip_plain, stripSelections_plain rest]

/-- A plain selection has no span left to be stripped. -/
theorem Selection.strip_plain : (s : Selection) → (s.restyle .plain).strip = s.restyle .plain
  | .field ⟨_, _, _, _, some set, _⟩ => by simp [Selection.restyle, Selection.strip, set.strip_plain]
  | .field ⟨_, _, _, _, none, _⟩ => by simp [Selection.restyle, Selection.strip]
  | .spread ⟨_, _, _⟩ => by simp [Selection.restyle, FragmentSpread.restyle, Selection.strip]
  | .inline ⟨_, _, set, _⟩ => by simp [Selection.restyle, Selection.strip, set.strip_plain, Function.comp_def]

end

theorem Definition.strip_plain (definition : Definition) :
    (definition.restyle .plain).strip = definition.restyle .plain := by
  cases definition with
  | operation o =>
    simp [restyle, strip, Operation.restyle, Operation.strip, SelectionSet.strip_plain, Function.comp_def]
  | fragment f => simp [restyle, strip, Fragment.restyle, Fragment.strip, SelectionSet.strip_plain]

/-- Plain documents lack all that the compact form has no room for. -/
theorem Document.strip_plain (d : Document) : (d.restyle .plain).strip = d.restyle .plain := by
  simp [restyle, strip, Definition.strip_plain]

namespace Compact.Document

/-- The compact form of a plain document has no spans to forget. -/
theorem ofDocument_plain (d : GraphQL.Document) : ofDocument (d.restyle .plain) = (ofDocument d).eraseSpans :=
  ofDocument_restyle .plain d

/-- Without spans, two documents have the same compact form exactly when they are the same but for spans, the form of
their strings and that of their bare queries. To forget the spans of a compact document puts the default span in the
place of each span and changes nothing else, and it does nothing more when it is done again. -/
theorem eraseSpans_eq_iff :
    (∀ d d' : GraphQL.Document, (ofDocument d).eraseSpans = (ofDocument d').eraseSpans ↔
      d.restyle .plain = d'.restyle .plain) ∧
    (∀ c c' : Document, c' = c.eraseSpans ↔ c.Alike (fun _ s => s = .nowhere) c') ∧
    ∀ c : Document, c.eraseSpans.eraseSpans = c.eraseSpans := by
  refine ⟨fun d d' => ⟨fun h => ?_, fun h => ?_⟩, fun c c' => (alike_iff c c').symm, eraseSpans_mapSpans _⟩
  · rw [← ofDocument_plain, ← ofDocument_plain] at h
    have hexpand := congrArg expand h
    rwa [expand_eq_strip, expand_eq_strip, Document.strip_plain, Document.strip_plain] at hexpand
  · rw [← ofDocument_plain, h, ofDocument_plain]

end Compact.Document

end GraphQL
