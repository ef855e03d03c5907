import GraphQL.Compact.Document
import Mathlib.Data.List.Forall2
import Mathlib.Data.Option.Basic

/-!
# Spans of compact documents

Two compact documents are alike when they differ in nothing but spans (`Document.Alike`): the spans at each place stand
in a given relation, and everything else is the same. Changing all spans by a function makes one document, and only one,
that is alike with each span in the place of the span it comes from (`Document.alike_iff`). So no place is left out by
`Document.mapSpans`, and nothing else is changed.
-/

namespace GraphQL.Compact

section
variable (R : Span → Span → Prop)

def Ident.Alike (i j : Ident) : Prop := i.word = j.word ∧ R i.span j.span

namespace Value

mutual

/-- The same value with its spans related. -/
def Alike : Value → Value → Prop
  | var name span, var name' span' => name.Alike R name' ∧ R span span'
  | int word span, int word' span' => word = word' ∧ R span span'
  | float word span, float word' span' => word = word' ∧ R span span'
  | string word span, string word' span' => word = word' ∧ R span span'
  | boolean value span, boolean value' span' => value = value' ∧ R span span'
  | null span, null span' => R span span'
  | enum word span, enum word' span' => word = word' ∧ R span span'
  | list items span, list items' span' => AlikeItems items items' ∧ R span span'
  | object fields span, object fields' span' => AlikeFields fields fields' ∧ R span span'
  | _, _ => False

def AlikeItems : List Value → List Value → Prop
  | [], [] => True
  | v :: vs, w :: ws => v.Alike w ∧ AlikeItems vs ws
  | _, _ => False

def AlikeFields : List ObjectField → List ObjectField → Prop
  | [], [] => True
  | ⟨name, v, span⟩ :: fs, ⟨name', w, span'⟩ :: gs =>
    name.Alike R name' ∧ v.Alike w ∧ R span span' ∧ AlikeFields fs gs
  | _, _ => False

end

end Value

def Argument.Alike (a b : Argument) : Prop := a.name.Alike R b.name ∧ a.value.Alike R b.value ∧ R a.span b.span

def Directive.Alike (d e : Directive) : Prop :=
  d.name.Alike R e.name ∧ d.arguments.Forall₂ (Argument.Alike R) e.arguments ∧ R d.span e.span

def TypeRef.Alike : TypeRef → TypeRef → Prop
  | .named name nullable span, .named name' nullable' span' =>
    name.Alike R name' ∧ nullable = nullable' ∧ R span span'
  | .list element nullable span, .list element' nullable' span' =>
    element.Alike element' ∧ nullable = nullable' ∧ R span span'
  | _, _ => False

def VariableDefinition.Alike (v w : VariableDefinition) : Prop :=
  v.name.Alike R w.name ∧ v.type.Alike R w.type ∧ Option.Rel (Value.Alike R) v.defaultValue w.defaultValue ∧
    v.directives.Forall₂ (Directive.Alike R) w.directives ∧ R v.span w.span

def Selection.Alike : Selection → Selection → Prop
  | .field ⟨aliasName, name, arguments, directives, selections, span⟩,
      .field ⟨aliasName', name', arguments', directives', selections', span'⟩ =>
    Option.Rel (Ident.Alike R) aliasName aliasName' ∧ name.Alike R name' ∧
      arguments.Forall₂ (Argument.Alike R) arguments' ∧ directives.Forall₂ (Directive.Alike R) directives' ∧
      selections = selections' ∧ R span span'
  | .spread name directives span, .spread name' directives' span' =>
    name.Alike R name' ∧ directives.Forall₂ (Directive.Alike R) directives' ∧ R span span'
  | .inline condition directives selections span, .inline condition' directives' selections' span' =>
    Option.Rel (Ident.Alike R) condition condition' ∧ directives.Forall₂ (Directive.Alike R) directives' ∧
      selections = selections' ∧ R span span'
  | _, _ => False

def Operation.Alike (o p : Operation) : Prop :=
  o.kind = p.kind ∧ Option.Rel (Ident.Alike R) o.name p.name ∧
    o.variableDefinitions.Forall₂ (VariableDefinition.Alike R) p.variableDefinitions ∧
    o.directives.Forall₂ (Directive.Alike R) p.directives ∧ o.selections = p.selections ∧ R o.span p.span

def Fragment.Alike (g h : Fragment) : Prop :=
  g.name.Alike R h.name ∧ g.condition.Alike R h.condition ∧ g.directives.Forall₂ (Directive.Alike R) h.directives ∧
    g.selections = h.selections ∧ R g.span h.span

/-- The two documents are the same but for their spans, which are related place by place. -/
def Document.Alike (c d : Document) : Prop :=
  c.strings = d.strings ∧ c.definitions = d.definitions ∧ c.operations.Forall₂ (Operation.Alike R) d.operations ∧
    c.fragments.Forall₂ (Fragment.Alike R) d.fragments ∧ c.selections.Forall₂ (Selection.Alike R) d.selections ∧
    R c.span d.span

end

private theorem forall₂_iff_eq_map {α β : Type} {R : α → β → Prop} {g : α → β} (h : ∀ a b, R a b ↔ b = g a)
    {as : List α} {bs : List β} : as.Forall₂ R bs ↔ bs = as.map g := by
  induction as generalizing bs with
  | nil => exact List.forall₂_nil_left_iff
  | cons a as ih => cases bs <;> simp [h, ih]

private theorem optionRel_iff_eq_map {α β : Type} {R : α → β → Prop} {g : α → β} (h : ∀ a b, R a b ↔ b = g a)
    {a : Option α} {b : Option β} : Option.Rel R a b ↔ b = a.map g := by
  cases a <;> cases b <;> simp [h]

section
variable {f : Span → Span}

theorem Ident.alike_iff (i j : Ident) : i.Alike (fun s t => t = f s) j ↔ j = i.mapSpans f := by
  obtain ⟨word, span⟩ := j
  simp [Alike, mapSpans, eq_comm]

namespace Value

mutual

/-- A value is like another with its spans changed by a function if and only if the function gives it. -/
theorem alike_iff : (v w : Value) → (v.Alike (fun s t => t = f s) w ↔ w = v.mapSpans f)
  | list items _, w => by cases w <;> simp [Alike, mapSpans, alikeItems_iff]
  | object fields _, w => by cases w <;> simp [Alike, mapSpans, alikeFields_iff]
  | var _ _, w => by cases w <;> simp [Alike, mapSpans, Ident.alike_iff]
  | int _ _, w | float _ _, w | string _ _, w | boolean _ _, w | null _, w | enum _ _, w => by
    cases w <;> simp [Alike, mapSpans, eq_comm]

private theorem alikeItems_iff : (vs ws : List Value) →
    (AlikeItems (fun s t => t = f s) vs ws ↔ ws = mapSpansItems f vs)
  | [], ws => by cases ws <;> simp [AlikeItems, mapSpansItems]
  | v :: vs, ws => by cases ws <;> simp [AlikeItems, mapSpansItems, alike_iff v, alikeItems_iff vs]

private theorem alikeFields_iff : (fs gs : List ObjectField) →
    (AlikeFields (fun s t => t = f s) fs gs ↔ gs = mapSpansFields f fs)
  | [], gs => by cases gs <;> simp [AlikeFields, mapSpansFields]
  | ⟨name, v, span⟩ :: fs, [] => by simp [AlikeFields, mapSpansFields]
  | ⟨name, v, span⟩ :: fs, ⟨name', w, span'⟩ :: gs => by
    simp [AlikeFields, mapSpansFields, Ident.alike_iff, alike_iff v, alikeFields_iff fs, and_assoc]

end

end Value

theorem Argument.alike_iff (a b : Argument) : a.Alike (fun s t => t = f s) b ↔ b = a.mapSpans f := by
  obtain ⟨name, value, span⟩ := b
  rw [Alike, mapSpans, mk.injEq]
  exact and_congr (Ident.alike_iff ..) (and_congr (Value.alike_iff ..) .rfl)

theorem Directive.alike_iff (d e : Directive) : d.Alike (fun s t => t = f s) e ↔ e = d.mapSpans f := by
  obtain ⟨name, arguments, span⟩ := e
  rw [Alike, mapSpans, mk.injEq]
  exact and_congr (Ident.alike_iff ..) (and_congr (forall₂_iff_eq_map Argument.alike_iff) .rfl)

theorem TypeRef.alike_iff (t u : TypeRef) : t.Alike (fun s t => t = f s) u ↔ u = t.mapSpans f := by
  induction t generalizing u with
  | named name nullable span => cases u <;> simp [Alike, mapSpans, Ident.alike_iff, eq_comm]
  | list element nullable span ih => cases u <;> simp [Alike, mapSpans, ih, eq_comm]

theorem VariableDefinition.alike_iff (v w : VariableDefinition) :
    v.Alike (fun s t => t = f s) w ↔ w = v.mapSpans f := by
  obtain ⟨name, type, defaultValue, directives, span⟩ := w
  rw [Alike, mapSpans, mk.injEq]
  exact and_congr (Ident.alike_iff ..) (and_congr (TypeRef.alike_iff ..)
    (and_congr (optionRel_iff_eq_map Value.alike_iff)
      (and_congr (forall₂_iff_eq_map Directive.alike_iff) .rfl)))

/-- A selection is like another with its spans changed if and only if the function gives it; the ranges stay. -/
theorem Selection.alike_iff (s t : Selection) : s.Alike (fun s t => t = f s) t ↔ t = s.mapSpans f := by
  have hdirectives {ds es : List Directive} :
      ds.Forall₂ (Directive.Alike fun s t => t = f s) es ↔ es = ds.map (·.mapSpans f) :=
    forall₂_iff_eq_map Directive.alike_iff
  have hident? {i j : Option Ident} : Option.Rel (Ident.Alike fun s t => t = f s) i j ↔ j = i.map (·.mapSpans f) :=
    optionRel_iff_eq_map Ident.alike_iff
  cases s with
  | field g =>
    cases t with
    | field h =>
      rw [Alike, mapSpans, field.injEq, Field.mk.injEq]
      exact and_congr hident? (and_congr (Ident.alike_iff ..) (and_congr
        (forall₂_iff_eq_map Argument.alike_iff) (and_congr hdirectives (and_congr eq_comm .rfl))))
    | spread | inline => simp [Alike, mapSpans]
  | spread name directives span => cases t <;> simp [Alike, mapSpans, Ident.alike_iff, hdirectives]
  | inline condition directives selections span => cases t <;> simp [Alike, mapSpans, hident?, hdirectives, eq_comm]

theorem Operation.alike_iff (o p : Operation) : o.Alike (fun s t => t = f s) p ↔ p = o.mapSpans f := by
  obtain ⟨kind, name, variableDefinitions, directives, selections, span⟩ := p
  rw [Alike, mapSpans, mk.injEq]
  exact and_congr eq_comm (and_congr (optionRel_iff_eq_map Ident.alike_iff)
    (and_congr (forall₂_iff_eq_map VariableDefinition.alike_iff)
      (and_congr (forall₂_iff_eq_map Directive.alike_iff) (and_congr eq_comm .rfl))))

theorem Fragment.alike_iff (g h : Fragment) : g.Alike (fun s t => t = f s) h ↔ h = g.mapSpans f := by
  obtain ⟨name, condition, directives, selections, span⟩ := h
  rw [Alike, mapSpans, mk.injEq]
  exact and_congr (Ident.alike_iff ..) (and_congr (Ident.alike_iff ..)
    (and_congr (forall₂_iff_eq_map Directive.alike_iff) (and_congr eq_comm .rfl)))

/-- A document is like another with its spans changed by a function if and only if the function gives it. -/
theorem Document.alike_iff (c d : Document) : c.Alike (fun s t => t = f s) d ↔ d = c.mapSpans f := by
  obtain ⟨strings, definitions, operations, fragments, selections, span⟩ := d
  rw [Alike, mapSpans, mk.injEq]
  exact and_congr eq_comm (and_congr eq_comm (and_congr (forall₂_iff_eq_map Operation.alike_iff)
    (and_congr (forall₂_iff_eq_map Fragment.alike_iff)
      (and_congr (forall₂_iff_eq_map Selection.alike_iff) .rfl))))

end

section
variable (f g : Span → Span)

/-- Two changes of spans, one after the other, are one change. -/
@[simp] theorem Ident.mapSpans_mapSpans (i : Ident) : (i.mapSpans f).mapSpans g = i.mapSpans (g ∘ f) := rfl

namespace Value

mutual

@[simp] theorem mapSpans_mapSpans : (v : Value) → (v.mapSpans f).mapSpans g = v.mapSpans (g ∘ f)
  | list items _ => by simp only [mapSpans, mapSpansItems_mapSpansItems items, Function.comp_apply]
  | object fields _ => by simp only [mapSpans, mapSpansFields_mapSpansFields fields, Function.comp_apply]
  | var _ _ | int _ _ | float _ _ | string _ _ | boolean _ _ | null _ | enum _ _ => rfl

private theorem mapSpansItems_mapSpansItems : (vs : List Value) →
    mapSpansItems g (mapSpansItems f vs) = mapSpansItems (g ∘ f) vs
  | [] => rfl
  | v :: vs => by simp only [mapSpansItems, mapSpans_mapSpans v, mapSpansItems_mapSpansItems vs]

private theorem mapSpansFields_mapSpansFields : (fs : List ObjectField) →
    mapSpansFields g (mapSpansFields f fs) = mapSpansFields (g ∘ f) fs
  | [] => rfl
  | ⟨name, v, span⟩ :: fs => by
    simp only [mapSpansFields, mapSpans_mapSpans v, mapSpansFields_mapSpansFields fs, Ident.mapSpans_mapSpans,
      Function.comp_apply]

end

end Value

@[simp] theorem Argument.mapSpans_mapSpans (a : Argument) : (a.mapSpans f).mapSpans g = a.mapSpans (g ∘ f) := by
  simp [mapSpans]

@[simp] theorem Directive.mapSpans_mapSpans (d : Directive) : (d.mapSpans f).mapSpans g = d.mapSpans (g ∘ f) := by
  simp [mapSpans]

@[simp] theorem TypeRef.mapSpans_mapSpans (t : TypeRef) : (t.mapSpans f).mapSpans g = t.mapSpans (g ∘ f) := by
  induction t with
  | named name nullable span => rfl
  | list element nullable span ih => rw [mapSpans, mapSpans, ih, mapSpans, Function.comp_apply]

@[simp] theorem VariableDefinition.mapSpans_mapSpans (v : VariableDefinition) :
    (v.mapSpans f).mapSpans g = v.mapSpans (g ∘ f) := by
  simp [mapSpans, Function.comp_def]

@[simp] theorem Selection.mapSpans_mapSpans (s : Selection) : (s.mapSpans f).mapSpans g = s.mapSpans (g ∘ f) := by
  cases s <;> simp [mapSpans, Function.comp_def]

@[simp] theorem Operation.mapSpans_mapSpans (o : Operation) : (o.mapSpans f).mapSpans g = o.mapSpans (g ∘ f) := by
  simp [mapSpans, Function.comp_def]

@[simp] theorem Fragment.mapSpans_mapSpans (h : Fragment) : (h.mapSpans f).mapSpans g = h.mapSpans (g ∘ f) := by
  simp [mapSpans]

private theorem Document.mapSpans_mapSpans (d : Document) : (d.mapSpans f).mapSpans g = d.mapSpans (g ∘ f) := by
  simp [mapSpans]

end

/-- Spans that are changed before they are forgotten are forgotten. -/
theorem Document.eraseSpans_mapSpans (f : Span → Span) (d : Document) : (d.mapSpans f).eraseSpans = d.eraseSpans :=
  mapSpans_mapSpans f _ d

end GraphQL.Compact
