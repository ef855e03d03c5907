import GraphQL.Proofs.Cursor
import GraphQL.Proofs.ParseSteps
import GraphQL.Syntax.Walk

/-!
# What the grammar accepts

A document that is parsed from tokens is written with just their terminals, and it meets what the grammar asks for
beyond that (`Document.parse_sound`). Every field starts where one of the tokens does, in the order of the tokens,
so that no two fields start at one place (`Document.starts_increasing`).
-/

namespace GraphQL

open Terminal

/-- The byte at which a token starts. -/
def Token.start (t : Token) : Nat := t.span.first.offset

/-- The byte at which a field starts. -/
def Selection.start? : Selection → Option Nat
  | .field f => some f.span.first.offset
  | _ => none

/-- The bytes at which the fields of a selection start, nested ones included. -/
def Selection.starts (s : Selection) : List Nat := s.allSelections.filterMap Selection.start?

def SelectionSet.starts (set : SelectionSet) : List Nat := set.allSelections.filterMap Selection.start?

theorem allOfSelections_eq (selections : List Selection) :
    allOfSelections selections = selections.flatMap (·.allSelections) := by
  induction selections with
  | nil => rfl
  | cons s rest ih => rw [allOfSelections, List.flatMap_cons, ih]

private theorem SelectionSet.starts_eq (set : SelectionSet) : set.starts = set.selections.flatMap (·.starts) := by
  obtain ⟨selections, span⟩ := set
  rw [starts, allSelections, allOfSelections_eq, List.filterMap_flatMap]
  rfl

private theorem Selection.starts_field (f : Field) :
    (field f).starts = f.span.first.offset :: f.selectionSet.toList.flatMap (·.starts) := by
  obtain ⟨_, _, _, _, set, _⟩ := f
  cases set <;> simp [starts, allSelections, start?, SelectionSet.starts]

private theorem Selection.starts_spread (spread : FragmentSpread) : (Selection.spread spread).starts = [] := rfl

/-- An inline fragment has the fields of its selection set and none of its own. -/
private theorem Selection.starts_inline (i : InlineFragment) : (inline i).starts = i.selectionSet.starts := by
  obtain ⟨_, _, _, _⟩ := i
  rfl

namespace Parse

variable {α : Type}

/-- The tokens write the result, which meets what is asked of it. -/
structure Writes (g : α → List Terminal) (F : α → Prop) (ts : List Token) (a : α) : Prop where
  terminals : ts.map Token.terminal = g a
  fits : F a

/-- What takes terminals to write takes tokens. -/
theorem Writes.ne_nil {g : α → List Terminal} {F : α → Prop} {ts : List Token} {a : α} (h : Writes g F ts a)
    (ha : g a ≠ []) : ts ≠ [] := by
  rintro rfl
  exact ha h.terminals.symm

/-- Items in sequence are written one after the other. -/
theorem Sequence.writes {g : α → List Terminal} {F : α → Prop} {N : List Token → Prop} {e : List Terminal}
    {ts : List Token} {as : List α} (h : Sequence (Writes g F) N ts as)
    (hN : ∀ vs, N vs → vs.map Token.terminal = e) : Writes (fun as => as.flatMap g ++ e) (∀ a ∈ ·, F a) ts as := by
  induction h with
  | nil h => exact ⟨by simp [hN _ h], by simp⟩
  | cons h _ ih => exact ⟨by simp [h.terminals, ih.terminals], by simpa using ⟨h.fits, ih.fits⟩⟩

theorem Consumes.Delimited.writes {opening close : Punctuator} {allowEmpty : Bool} {g : α → List Terminal}
    {F : α → Prop} {ts : List Token} {r : List α × Span}
    (h : Delimited opening close allowEmpty (Writes g F) ts r) :
    Writes (fun as => between opening close (as.flatMap g)) (∀ a ∈ ·, F a) ts r.1 := by
  obtain ⟨o, us, rfl, ho, -, hseq⟩ := h.exists_tokens
  have hw := hseq.writes (e := [sign close]) fun vs ⟨c, hvs, hc⟩ => by simp [hvs, terminal_of_sign hc]
  exact ⟨by simp [terminal_of_sign ho, hw.terminals, between], hw.fits⟩

/-- Items between two signs are written with these signs, and without them there are none. -/
theorem delimitedIf_consumes {opening close : Punctuator} {construct : String} {item : Parse α}
    {g : α → List Terminal} {F : α → Prop} (h : Consumes item (Writes g F)) (hg : ∀ a, g a ≠ []) :
    Consumes (delimitedIf opening close construct item) (Writes (group opening close g) (∀ a ∈ ·, F a)) := by
  refine (Consumes.nextIs opening).bind fun b ts hts => ?_
  subst hts
  split
  · refine (Consumes.delimited (h.mono fun ts a ha => ⟨ha.ne_nil (hg a), ha⟩)).bind fun r us hr => .pure ?_
    have hw := hr.writes
    have hne := hr.nonempty rfl
    exact ⟨by simp [hw.terminals, group, hne], hw.fits⟩
  · exact .pure ⟨by simp [group], by simp⟩

private theorem name_consumesAt (t : Token) : ConsumesAt t name fun ts n =>
    ts = [t] ∧ t.kind.asName? = some n.value ∧ t.terminal = word n.value ∧ t.span = n.span := by
  intro i n i' hi hshows h
  obtain ⟨ts, hts, rfl, hgenuine, hword, hspan⟩ := ConsumesAt.name t i n i' hi hshows h
  exact ⟨_, hts, rfl, hword, by rw [Token.terminal, hgenuine.eq_wordKind hword, terminal_wordKind], hspan⟩

theorem name_consumes : Consumes name fun ts n => ∃ t, ts = [t] ∧ t.terminal = word n.value ∧ t.span = n.span := by
  intro i n i' hi h
  obtain ⟨t, j, hpeek, -⟩ := run_bind_ok h
  obtain ⟨rfl, -⟩ := peek_run hpeek
  obtain ⟨ts, hts, rfl, -, hterminal, hspan⟩ := name_consumesAt t j n i' hi hpeek h
  exact ⟨_, hts, t, rfl, hterminal, hspan⟩

/-- A string that is read is written by its token. -/
theorem stringLiteral_consumes :
    Consumes stringLiteral (Writes (fun l => [.string l.value l.block]) fun _ => True) := by
  refine .peek fun t => ?_
  cases hkind : t.kind with
  | string raw =>
    simp only [pure_bind]
    split
    · rename_i value hcook
      exact .advance (by simp [hkind]) fun _ => .pure
        ⟨by simp [Token.terminal, hkind, Token.Kind.terminal, hcook], trivial⟩
    · exact .of (Consumes.fail _ _)
  | blockString raw =>
    simp only [pure_bind]
    split
    · rename_i value hcook
      exact .advance (by simp [hkind]) fun _ => .pure
        ⟨by simp [Token.terminal, hkind, Token.Kind.terminal, hcook], trivial⟩
    · exact .of (Consumes.fail _ _)
  | _ => exact .of ((Consumes.unexpected (Q := fun _ _ => False) _ _).bind fun _ _ h => h.elim)

private theorem objectField_consumes {value : Parse Value} {F : Value → Prop}
    (h : Consumes value (Writes Value.terminals F)) :
    Consumes (objectField value) (Writes ObjectField.terminals fun f => F f.value) := by
  refine name_consumes.bind fun n ts hn => (Consumes.expect .colon).bind fun c us hc => h.bind fun v vs hv =>
    (Consumes.spanFrom _).bind fun span ws hspan => .pure ?_
  obtain ⟨t, rfl, ht, -⟩ := hn
  obtain ⟨rfl, hc⟩ := hc
  exact ⟨by simp [ObjectField.terminals, Name.terminals, ht, terminal_of_sign hc, hv.terminals, hspan.1], hv.fits⟩

/-- A value that is read is written by its tokens, and nested no deeper than the depth allows. -/
private theorem value_consumes (place : ValuePlace) (n : Nat) :
    Consumes (value place n) (Writes Value.terminals (Value.Fits place.forbids?.isNone n)) := by
  induction n with
  | zero => exact .tooDeep
  | succ n ih =>
    refine .peek fun t => ?_
    split
    · rename_i hkind
      split
      · exact .of (Consumes.fail _ _)
      · rename_i hplace
        refine .advance (by simp [hkind]) fun _ => name_consumes.bind fun name ts hname => .pure ?_
        obtain ⟨u, rfl, hu, -⟩ := hname
        exact ⟨by simp [Value.terminals, Name.terminals, terminal_of_sign hkind, hu],
          by simp [Value.Fits, hplace]⟩
    · rename_i raw hkind
      exact .advance (by simp [hkind]) fun _ => .pure
        ⟨by simp [Token.terminal, hkind, Token.Kind.terminal, Value.terminals], by simp [Value.Fits]⟩
    · rename_i raw hkind
      exact .advance (by simp [hkind]) fun _ => .pure
        ⟨by simp [Token.terminal, hkind, Token.Kind.terminal, Value.terminals], by simp [Value.Fits]⟩
    · exact .of (stringLiteral_consumes.bind fun l ts hl => .pure
        ⟨by simp [Value.terminals, hl.terminals], by simp [Value.Fits]⟩)
    · exact .of (stringLiteral_consumes.bind fun l ts hl => .pure
        ⟨by simp [Value.terminals, hl.terminals], by simp [Value.Fits]⟩)
    · rename_i hkind
      exact .advance (by simp [hkind]) fun _ => .pure
        ⟨by simp [Token.terminal, hkind, Token.Kind.terminal, Value.terminals, word, wordKind],
          by simp [Value.Fits]⟩
    · rename_i hkind
      exact .advance (by simp [hkind]) fun _ => .pure
        ⟨by simp [Token.terminal, hkind, Token.Kind.terminal, Value.terminals, word, wordKind],
          by simp [Value.Fits]⟩
    · rename_i hkind
      exact .advance (by simp [hkind]) fun _ => .pure
        ⟨by simp [Token.terminal, hkind, Token.Kind.terminal, Value.terminals, word, wordKind],
          by simp [Value.Fits]⟩
    · rename_i text hkind
      refine .advance (by simp [hkind]) fun hgenuine => .pure ?_
      -- a genuine name is none of the words `true`, `false` and `null`
      have hword : t.kind = wordKind text := hgenuine.eq_wordKind (by rw [hkind]; rfl)
      exact ⟨by simp [Token.terminal, hword, terminal_wordKind, Value.terminals],
        by simp [Value.Fits, ← hword, hkind]⟩
    · refine .of ((Consumes.delimited (ih.mono fun ts v hv => ⟨hv.ne_nil v.terminals_ne_nil, hv⟩)).bind
        fun r ts hr => ?_)
      obtain ⟨items, span⟩ := r
      have hw := hr.writes
      exact .pure ⟨by simp [Value.terminals, Value.itemTerminals_eq, hw.terminals], hw.fits⟩
    · refine .of ((Consumes.delimited ((objectField_consumes ih).mono fun ts f hf =>
        ⟨hf.ne_nil (by simp [ObjectField.terminals]), hf⟩)).bind
        fun r ts hr => ?_)
      obtain ⟨fields, span⟩ := r
      have hw := hr.writes
      exact .pure ⟨by simp [Value.terminals, Value.fieldTerminals_eq, hw.terminals], hw.fits⟩
    · exact .of (Consumes.unexpected _ _)

private theorem argument_consumes (place : ValuePlace) (n : Nat) :
    Consumes (argument place n) (Writes Argument.terminals (Argument.Fits place.forbids?.isNone n)) := by
  refine name_consumes.bind fun name ts hname => (Consumes.expect .colon).bind fun c us hc =>
    (value_consumes place n).bind fun v vs hv => (Consumes.spanFrom _).bind fun span ws hspan => .pure ?_
  obtain ⟨t, rfl, ht, -⟩ := hname
  obtain ⟨rfl, hc⟩ := hc
  exact ⟨by simp [Argument.terminals, Name.terminals, ht, terminal_of_sign hc, hv.terminals, hspan.1], hv.fits⟩

private theorem arguments_consumes (place : ValuePlace) (n : Nat) :
    Consumes (arguments place n)
      (Writes argumentTerminals (∀ a ∈ ·, Argument.Fits place.forbids?.isNone n a)) :=
  delimitedIf_consumes (argument_consumes place n) fun a => by simp [Argument.terminals]

private theorem directive?_consumes (place : ValuePlace) (n : Nat) :
    Consumes (directive? place n) (Consumes.StepOf
      (Writes Directive.terminals (Directive.Fits place.forbids?.isNone n)) (· = [])) := by
  refine (Consumes.accept .atSign).bind fun o ts ho => ?_
  cases o with
  | none => exact .pure (by simpa [Consumes.StepOf] using ho)
  | some sign =>
    refine name_consumes.bind fun name us hname => (arguments_consumes place n).bind fun arguments vs hargs =>
      (Consumes.spanFrom _).bind fun span ws hspan => .pure ?_
    obtain ⟨rfl, hsign⟩ := ho
    obtain ⟨t, rfl, ht, -⟩ := hname
    exact ⟨by simp, by simp [Directive.terminals, Name.terminals, terminal_of_sign hsign, ht, hargs.terminals,
      hspan.1], hargs.fits⟩

theorem directives_consumes (place : ValuePlace) (n : Nat) :
    Consumes (directives place n)
      (Writes directiveTerminals (∀ d ∈ ·, Directive.Fits place.forbids?.isNone n d)) :=
  (Consumes.repeated (directive?_consumes place n)).mono fun ts ds hds => by
    have hw := hds.writes (e := []) (by simp)
    exact ⟨by simpa [directiveTerminals] using hw.terminals, hw.fits⟩

private theorem nullable_consumes : Consumes nullable fun ts b => ts.map Token.terminal = bangTerminals b := by
  refine (Consumes.accept .bang).bind fun o ts ho => .pure ?_
  cases o with
  | none => simp [ho, bangTerminals]
  | some t => simp [ho.1, bangTerminals, terminal_of_sign ho.2]

/-- A type reference that is read is written by its tokens. -/
theorem typeRef_consumes (n : Nat) : Consumes (typeRef n) (Writes TypeRef.terminals (TypeRef.Fits n)) := by
  induction n with
  | zero => exact .tooDeep
  | succ n ih =>
    refine .peek fun t => ?_
    split
    · rename_i hkind
      refine .advance (by simp [hkind]) fun _ => ih.bind fun element ts helement => .peek fun close => ?_
      split
      · rename_i hclose
        refine .advance (by simp [hclose]) fun _ => nullable_consumes.bind fun b us hb =>
          (Consumes.spanFrom _).bind fun span vs hspan => .pure ?_
        exact ⟨by simp [TypeRef.terminals, between, terminal_of_sign hkind, terminal_of_sign hclose,
          helement.terminals, hb, hspan.1], helement.fits⟩
      · split
        · exact .of (.fail _ _)
        · exact .of (.unexpected _ _)
    · split
      · refine .of (name_consumes.bind fun name ts hname => nullable_consumes.bind fun b us hb =>
          (Consumes.spanFrom _).bind fun span vs hspan => .pure ?_)
        obtain ⟨u, rfl, hu, -⟩ := hname
        exact ⟨by simp [TypeRef.terminals, Name.terminals, hu, hb, hspan.1], trivial⟩
      · exact .of (.unexpected _ _)

/-! ### Selections -/

/-- The tokens write the result, and its fields start where some of them do, in order. -/
structure WritesFields (g : α → List Terminal) (F : α → Prop) (s : α → List Nat) (ts : List Token) (a : α) : Prop
    extends Writes g F ts a where
  starts : (s a).Sublist (ts.map Token.start)

private theorem Sequence.writesFields {g : α → List Terminal} {F : α → Prop} {s : α → List Nat} {N : List Token → Prop}
    {e : List Terminal} {ts : List Token} {as : List α} (h : Sequence (WritesFields g F s) N ts as)
    (hN : ∀ vs, N vs → vs.map Token.terminal = e) :
    WritesFields (fun as => as.flatMap g ++ e) (∀ a ∈ ·, F a) (·.flatMap s) ts as := by
  induction h with
  | nil h => exact ⟨⟨by simp [hN _ h], by simp⟩, by simp⟩
  | cons h _ ih =>
    exact ⟨⟨by simp [h.terminals, ih.terminals], by simpa using ⟨h.fits, ih.fits⟩⟩,
      by simpa using h.starts.append ih.starts⟩

private theorem Consumes.Delimited.writesFields {opening close : Punctuator} {allowEmpty : Bool} {g : α → List Terminal}
    {F : α → Prop} {s : α → List Nat} {ts : List Token} {r : List α × Span}
    (h : Delimited opening close allowEmpty (WritesFields g F s) ts r) :
    WritesFields (fun as => between opening close (as.flatMap g)) (∀ a ∈ ·, F a) (·.flatMap s) ts r.1 := by
  obtain ⟨o, us, rfl, ho, -, hseq⟩ := h.exists_tokens
  have hw := hseq.writesFields (e := [sign close]) fun vs ⟨c, hvs, hc⟩ => by simp [hvs, terminal_of_sign hc]
  exact ⟨⟨by simp [terminal_of_sign ho, hw.terminals, between], hw.fits⟩, hw.starts.cons _⟩

private theorem ne_on_of_asName? {kind : Token.Kind} {w : String} (h : kind ≠ .name "on") (hw : kind.asName? = some w) :
    w ≠ "on" := by
  rintro rfl
  cases kind <;> simp_all [Token.Kind.asName?]

/-- A type condition is written by the word `on` and its name. -/
private theorem typeCondition_consumes :
    Consumes typeCondition (Writes TypeCondition.terminals fun _ => True) := by
  refine (Consumes.keyword "on").bind fun sign ts hsign => name_consumes.bind fun name us hname =>
    (Consumes.spanFrom _).bind fun span vs hspan => .pure ⟨?_, trivial⟩
  obtain ⟨rfl, hsign⟩ := hsign
  obtain ⟨t, rfl, ht, -⟩ := hname
  have hon : sign.terminal = word "on" := by rw [Token.terminal, hsign]; rfl
  simp [TypeCondition.terminals, Name.terminals, hon, ht, hspan.1]

section
variable {n : Nat} {inner : SelectionSet → Prop} {set : Parse SelectionSet}

private theorem inlineRest_consumes
    (h : Consumes set (WritesFields SelectionSet.terminals inner SelectionSet.starts)) (start : Span)
    (condition : Option TypeCondition) :
    Consumes (inlineRest n set start condition) fun ts s =>
      sign .ellipsis :: (conditionTerminals condition ++ ts.map Token.terminal) = s.terminals ∧
        s.Fits n inner ∧ s.starts.Sublist (ts.map Token.start) := by
  refine (directives_consumes .anywhere n).bind fun directives ts hdirs => h.bind fun set us hset =>
    (Consumes.spanFrom _).bind fun span vs hspan => .pure ⟨?_, ⟨hdirs.fits, hset.fits⟩, ?_⟩
  · simp [Selection.terminals, hdirs.terminals, hset.terminals, hspan.1]
  · simpa [Selection.starts_inline, hspan.1] using hset.starts.trans (List.sublist_append_right _ _)

/-- A spread or an inline fragment is written by its tokens; only the second has fields in it. -/
private theorem fragmentSelection_consumes
    (h : Consumes set (WritesFields SelectionSet.terminals inner SelectionSet.starts)) :
    Consumes (fragmentSelection n set)
      (WritesFields Selection.terminals (Selection.Fits n inner) Selection.starts) := by
  refine (Consumes.expect .ellipsis).bind fun dots ts hdots => .peek fun t => ?_
  obtain ⟨rfl, hdots⟩ := hdots
  split
  · refine .of (typeCondition_consumes.bind fun condition us hcond =>
      (inlineRest_consumes h _ (some condition)).mono fun vs s ⟨hs, hfits, hstarts⟩ => ⟨⟨?_, hfits⟩, ?_⟩)
    · simpa [terminal_of_sign hdots, hcond.terminals, conditionTerminals] using hs
    · simpa using (hstarts.trans (List.sublist_append_right _ _)).cons _
  · rename_i hon
    split
    · refine .of ((inlineRest_consumes h _ none).mono fun vs s ⟨hs, hfits, hstarts⟩ => ⟨⟨?_, hfits⟩, ?_⟩)
      · simpa [terminal_of_sign hdots, conditionTerminals] using hs
      · exact hstarts.cons _
    · split
      · refine .bind (name_consumesAt t) fun name us hname => (directives_consumes .anywhere n).bind
          fun directives vs hdirs => (Consumes.spanFrom _).bind fun span ws hspan => .pure ?_
        obtain ⟨rfl, hword, hterminal, -⟩ := hname
        exact ⟨⟨by simp [Selection.terminals, Name.terminals, terminal_of_sign hdots, hterminal, hdirs.terminals,
          hspan.1], ne_on_of_asName? hon hword, hdirs.fits⟩, by simp [Selection.starts_spread]⟩
      · exact .of (.unexpected _ _)

private theorem fieldNames_consumes (first : Name) : Consumes (fieldNames first) fun ts names =>
    word first.value :: ts.map Token.terminal = aliasTerminals names.1 ++ names.2.terminals := by
  refine (Consumes.accept .colon).bind fun o ts ho => ?_
  cases o with
  | none => exact .pure (by simp [ho, aliasTerminals, Name.terminals])
  | some colon =>
    refine name_consumes.bind fun name us hname => .pure ?_
    obtain ⟨u, rfl, hu, -⟩ := hname
    simp [ho.1, aliasTerminals, Name.terminals, hu, terminal_of_sign ho.2]

private theorem selectionSet?_consumes
    (h : Consumes set (WritesFields SelectionSet.terminals inner SelectionSet.starts)) :
    Consumes (selectionSet? set) (WritesFields (·.toList.flatMap (·.terminals)) (∀ set ∈ ·, inner set)
      (·.toList.flatMap (·.starts))) := by
  refine (Consumes.nextIs .openBrace).bind fun b ts hts => ?_
  subst hts
  split
  · exact h.map fun ts set hset =>
      ⟨⟨by simpa using hset.terminals, by simpa using hset.fits⟩, by simpa using hset.starts⟩
  · exact .pure ⟨⟨rfl, by simp⟩, by simp⟩

/-- A field is written by its tokens and starts at the first of them. -/
private theorem field_consumes
    (h : Consumes set (WritesFields SelectionSet.terminals inner SelectionSet.starts)) :
    Consumes (field n set) fun ts f =>
      WritesFields Selection.terminals (Selection.Fits n inner) Selection.starts ts (.field f) := by
  rw [field_eq]
  refine name_consumes.bind fun first ts hfirst => (fieldNames_consumes first).bind fun names us hnames =>
    (arguments_consumes .anywhere n).bind fun arguments vs hargs => (directives_consumes .anywhere n).bind
      fun directives ws hdirs => (selectionSet?_consumes h).bind fun set xs hset =>
        (Consumes.spanFrom _).bind fun span ys hspan => .pure ⟨⟨?_, hargs.fits, hdirs.fits, hset.fits⟩, ?_⟩
  · obtain ⟨t, rfl, ht, -⟩ := hfirst
    rw [Selection.terminals_field, Field.terminals, ← hnames, ← hargs.terminals, ← hdirs.terminals,
      ← hset.terminals, ← ht]
    simp [hspan.1]
  · obtain ⟨t, rfl, -, ht⟩ := hfirst
    rw [Selection.starts_field, hspan.2, ← ht]
    simp only [List.map_append, List.cons_append, List.map_cons, List.nil_append, hspan.1,
      List.append_nil]
    exact .cons_cons _ (hset.starts.trans (by simp [← List.append_assoc]))

private theorem selection_consumes
    (h : Consumes set (WritesFields SelectionSet.terminals inner SelectionSet.starts)) :
    Consumes (selection n set)
      (WritesFields Selection.terminals (Selection.Fits n inner) Selection.starts) := by
  refine .peek fun t => ?_
  split
  · exact .of (fragmentSelection_consumes h)
  · split
    · exact .of ((field_consumes h).bind fun f ts hf => .pure (by simpa using hf))
    · exact .of (.unexpected _ _)

end

/-- A selection set is written by its tokens, and its fields start at some of them. -/
private theorem selectionSet_consumes (n : Nat) : Consumes (selectionSet n)
    (WritesFields SelectionSet.terminals (SelectionSet.Fits n) SelectionSet.starts) := by
  induction n with
  | zero => exact .tooDeep
  | succ n ih =>
    refine (Consumes.delimited ((selection_consumes ih).mono fun ts s hs =>
      ⟨hs.ne_nil s.terminals_ne_nil, hs⟩)).bind fun r ts hr => ?_
    obtain ⟨selections, span⟩ := r
    have hw := hr.writesFields
    exact .pure ⟨⟨by simp [SelectionSet.terminals_eq, hw.terminals], hr.nonempty rfl, hw.fits⟩,
      by simpa [SelectionSet.starts_eq] using hw.starts⟩

theorem default_consumes (place : ValuePlace) : Consumes (behind? .equals (value place maxDepth))
    (Writes (·.toList.flatMap fun value => sign .equals :: value.terminals)
      (∀ value ∈ ·, Value.Fits place.forbids?.isNone maxDepth value)) := by
  refine ((value_consumes place maxDepth).behind? .equals).mono fun ts o ho => ?_
  cases o with
  | none => exact ⟨by simp [ho], by simp⟩
  | some v =>
    obtain ⟨equals, us, rfl, hequals, hv⟩ := ho
    exact ⟨by simp [terminal_of_sign hequals, hv.terminals], by simpa using hv.fits⟩

private theorem defaultValue?_consumes : Consumes defaultValue?
    (Writes (·.toList.flatMap fun value => sign .equals :: value.terminals)
      (∀ value ∈ ·, Value.Fits false maxDepth value)) :=
  default_consumes .variableDefault

private theorem variableDefinition_consumes :
    Consumes variableDefinition (Writes VariableDefinition.terminals VariableDefinition.Fits) := by
  rw [variableDefinition_eq]
  refine (Consumes.expect .dollar).bind fun dollar ts hdollar => name_consumes.bind fun name us hname =>
    (Consumes.expect .colon).bind fun colon vs hcolon => (typeRef_consumes maxDepth).bind fun type ws htype =>
      defaultValue?_consumes.bind fun default xs hdefault => (directives_consumes .constDirective maxDepth).bind
        fun directives ys hdirs => (Consumes.spanFrom _).bind fun span zs hspan => .pure
          ⟨?_, htype.fits, hdefault.fits, hdirs.fits⟩
  obtain ⟨rfl, hdollar⟩ := hdollar
  obtain ⟨t, rfl, ht, -⟩ := hname
  obtain ⟨rfl, hcolon⟩ := hcolon
  simp [VariableDefinition.terminals, Name.terminals, terminal_of_sign hdollar, ht, terminal_of_sign hcolon,
    htype.terminals, hdefault.terminals, hdirs.terminals, hspan.1]

private theorem operationName?_consumes :
    Consumes operationName? fun ts o => ts.map Token.terminal = o.toList.flatMap Name.terminals := by
  refine .peek fun t => ?_
  split
  · refine .of (name_consumes.map fun ts n ⟨u, hts, hu, _⟩ => ?_)
    simp [hts, hu, Name.terminals]
  · exact .of (.pure rfl)

private theorem keywordOperation_consumesAt {kind : OperationKind} {t : Token} (ht : t.kind = .name kind.keyword) :
    ConsumesAt t (keywordOperation kind)
      (WritesFields Operation.terminals Operation.Fits (·.selectionSet.starts)) := by
  rw [keywordOperation_eq]
  refine .peek (.advance (by simp [ht]) fun hgenuine => ?_)
  refine operationName?_consumes.bind fun name ts hname =>
    (delimitedIf_consumes variableDefinition_consumes fun v => by simp [VariableDefinition.terminals]).bind
      fun definitions us hdefs => (directives_consumes .anywhere maxDepth).bind fun directives vs hdirs =>
        (selectionSet_consumes maxDepth).bind fun set ws hset => (Consumes.spanFrom _).bind fun span xs hspan =>
          .pure ⟨⟨?_, hdefs.fits, hdirs.fits, hset.fits, by simp⟩, ?_⟩
  · have hword : t.kind = wordKind kind.keyword := hgenuine.eq_wordKind (by rw [ht]; rfl)
    simp [Operation.terminals, Operation.headTerminals, Token.terminal, hword, terminal_wordKind, hname,
      hdefs.terminals, hdirs.terminals, hset.terminals, hspan.1]
  · simp only [hspan.1, List.append_nil, List.map_cons, List.map_append]
    exact .cons _ (hset.starts.trans (by simp [← List.append_assoc]))

private theorem shorthandQuery_consumes : Consumes shorthandQuery
    (WritesFields Operation.terminals Operation.Fits (·.selectionSet.starts)) :=
  (selectionSet_consumes maxDepth).bind fun set ts hset => .pure
    ⟨⟨by simp [Operation.terminals, hset.terminals], by simp, by simp, hset.fits, fun _ => ⟨rfl, rfl, rfl, rfl⟩⟩,
      by simpa using hset.starts⟩

private theorem fragmentDefinition_consumes : Consumes fragmentDefinition
    (WritesFields Fragment.terminals Fragment.Fits (·.selectionSet.starts)) := by
  refine (Consumes.keyword "fragment").bind fun start ts hstart => .peek fun t => ?_
  split
  · exact .of ((Consumes.fail (Q := fun _ _ => False) _ _).bind fun _ _ h => h.elim)
  · rename_i hon
    refine .bind (name_consumesAt t) fun name us hname => typeCondition_consumes.bind fun condition vs hcond =>
      (directives_consumes .anywhere maxDepth).bind fun directives ws hdirs =>
        (selectionSet_consumes maxDepth).bind fun set xs hset => (Consumes.spanFrom _).bind fun span ys hspan =>
          .pure ⟨⟨?_, ?_, hdirs.fits, hset.fits⟩, ?_⟩
    · obtain ⟨rfl, hstart⟩ := hstart
      obtain ⟨rfl, -, ht, -⟩ := hname
      have hword : start.terminal = word "fragment" := by rw [Token.terminal, hstart]; rfl
      simp [Fragment.terminals, Name.terminals, hword, ht, hcond.terminals, hdirs.terminals, hset.terminals,
        hspan.1]
    · exact ne_on_of_asName? hon hname.2.1
    · simp only [hspan.1, List.append_nil, List.map_append]
      exact hset.starts.trans (by simp [← List.append_assoc])

theorem keyword_of_ofKeyword? {w : String} {kind : OperationKind}
    (h : OperationKind.ofKeyword? w = some kind) : kind.keyword = w := by
  simpa using List.find?_some h

/-- A definition is written by its tokens, and its fields start at some of them. -/
theorem definition_consumes :
    Consumes definition (WritesFields Definition.terminals Definition.Fits (·.selectionSet.starts)) := by
  refine .peek fun t => ?_
  split
  · exact .of (shorthandQuery_consumes.bind fun o ts ho =>
      .pure (by simpa using ⟨⟨ho.terminals, ho.fits⟩, ho.starts⟩))
  · exact .of (.fail _ _)
  · exact .of (.fail _ _)
  · rename_i w hkind
    split
    · rename_i kind hword
      refine .bind (keywordOperation_consumesAt (by rw [hkind, keyword_of_ofKeyword? hword])) fun o ts ho =>
        .pure ?_
      simpa using ⟨⟨ho.terminals, ho.fits⟩, ho.starts⟩
    · split
      · exact .of (fragmentDefinition_consumes.bind fun f ts hf => .pure
          (by simpa using ⟨⟨hf.terminals, hf.fits⟩, hf.starts⟩))
      · split
        · exact .of (.fail _ _)
        · exact .of (.unexpected _ _)
  · exact .of (.unexpected _ _)

/-- The loop over definitions takes one or more of them. -/
theorem definitions_consumes {kind : DocumentKind} {p : Parse α} {Q : List Token → α → Prop}
    (h : Consumes p fun ts a => ts ≠ [] ∧ Q ts a) :
    Consumes (definitions kind p) fun ts r => r.1 ≠ [] ∧ Sequence Q (· = []) ts r.1 := by
  refine .peek fun start => .of ((Consumes.repeated (Q := Q) (N := (· = [])) ?_).bind fun as ts has => ?_)
  · refine .peek fun t => ?_
    split
    · exact .of (.pure rfl)
    · exact .of (h.map fun ts a ha => ha)
  · split
    · exact (Consumes.fail (Q := fun _ _ => False) _ _).bind fun _ _ h => h.elim
    · rename_i hempty
      refine (Consumes.spanFrom _).bind fun span us hspan => .pure ⟨by simpa using hempty, ?_⟩
      simpa [hspan.1] using has

/-- A document is written by all tokens up to the end. -/
theorem document_consumes : Consumes document (WritesFields Document.terminals Document.Fits
    (·.definitions.flatMap (·.selectionSet.starts))) := by
  refine (definitions_consumes (definition_consumes.mono fun ts a ha =>
    ⟨ha.ne_nil a.terminals_ne_nil, ha⟩)).bind fun r ts hr => .pure ?_
  have hw := hr.2.writesFields (e := []) (by simp)
  exact ⟨⟨by simpa [Document.terminals] using hw.terminals, hr.1, hw.fits⟩, by simpa using hw.starts⟩

end Parse

/-! ### The tokens of a source text -/

/-- The tokens of a source are of kinds that the lexer reads. -/
theorem tokensFrom_genuine (c : Cursor) (text : List Char) : ∀ t ∈ tokensFrom c text, t.kind.Genuine := by
  fun_induction tokensFrom c text with
  | case1 => simp [Token.Kind.Genuine]
  | case2 c text _ ch rest _ lexeme next token herror =>
    simp only [List.mem_singleton, forall_eq]
    exact .inr ⟨ch, rest, rfl⟩
  | case3 c text _ ch rest _ lexeme next token herror ih =>
    intro t ht
    rcases List.mem_cons.1 ht with rfl | ht
    · exact .inr ⟨ch, rest, rfl⟩
    · exact ih t ht

/-- Each token starts after the one before it. -/
theorem tokensFrom_starts (c : Cursor) (text : List Char) :
    ((tokensFrom c text).map Token.start).Pairwise (· < ·) ∧
      ∀ t ∈ tokensFrom c text, c.position.offset ≤ t.start := by
  fun_induction tokensFrom c text with
  | case1 c text c' =>
    simp [Token.start, Span.emptyAt, c', Cursor.offset_after]
  | case2 c text c' ch rest _ lexeme next token herror =>
    simp [Token.start, token, c', Cursor.offset_after]
  | case3 c text c' ch rest _ lexeme next token herror ih =>
    have hc : c.position.offset ≤ c'.position.offset := by simp [c', Cursor.offset_after]
    have hnext : c'.position.offset < next.position.offset := by
      simpa [next, lexeme, Cursor.offset_after] using utf8Length_pos (Lexeme.read_text_ne_nil ch rest)
    rw [List.map_cons, List.pairwise_cons]
    refine ⟨⟨?_, ih.1⟩, ?_⟩
    · intro n hn
      obtain ⟨t, ht, rfl⟩ := List.mem_map.1 hn
      exact Nat.lt_of_lt_of_le hnext (ih.2 t ht)
    · intro t ht
      rcases List.mem_cons.1 ht with rfl | ht
      · exact hc
      · have := ih.2 t ht
        omega

/-- What is known of a document that is parsed from a source text. -/
theorem Document.parse_sound {source : String} {d : Document} (h : Document.parse source = .ok d) :
    ∃ ts rest, tokens source = ts ++ rest ∧
      Parse.WritesFields Document.terminals Document.Fits (·.definitions.flatMap (·.selectionSet.starts)) ts
        d := by
  unfold Document.parse Parse.run at h
  cases hrun : StateT.run Parse.document ⟨tokens source, none⟩ with
  | error e => rw [hrun] at h; cases h
  | ok r =>
    obtain ⟨d', i'⟩ := r
    rw [hrun] at h
    obtain rfl : d' = d := Except.ok.inj h
    obtain ⟨ts, hts, hd⟩ := Parse.document_consumes ⟨tokens source, none⟩ d' i' (tokensFrom_genuine _ _) hrun
    exact ⟨ts, i'.tokens, hts, hd⟩

/-- The fields of a parsed document start at different places, in source order. -/
theorem Document.starts_increasing {source : String} {d : Document} (h : Document.parse source = .ok d) :
    (d.definitions.flatMap (·.selectionSet.starts)).Pairwise (· < ·) := by
  obtain ⟨ts, rest, htokens, hd⟩ := Document.parse_sound h
  have hstarts := (tokensFrom_starts .start source.toList).1
  rw [← tokens, htokens, List.map_append] at hstarts
  exact (List.pairwise_append.1 hstarts).1.sublist hd.starts

end GraphQL
