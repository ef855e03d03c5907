import GraphQL.Proofs.Restyle
import GraphQL.Proofs.StringSpelling

/-!
# Printed documents read back

The canonical layout prints the terminals of a document, but for the form of its strings and of its bare queries,
which `Restyle.printed` says (`Document.prints`). It takes that the words and numbers of the document are ones that
the lexer reads, as they are in every document that was parsed.
-/

namespace GraphQL

open Terminal Layout

private theorem prints_lexeme {text : List Char} {kind : Token.Kind} (herror : kind.isError = false)
    (hplain : ∀ c ∈ text, isBlank c = false ∧ c ≠ '#') (hread : ∃ c cs, text = c :: cs ∧
      ∀ rest, Opens rest → Lexeme.read c (cs ++ rest) = ⟨kind, c :: cs, rest⟩) :
    Prints text [kind.terminal] := fun k => by
  obtain ⟨c, cs, rfl, hread⟩ := hread
  have hnewline : '\n' ∉ c :: cs := fun h => absurd (hplain _ h).1 (by decide)
  rw [shift_of_not_mem hnewline]
  exact .lexeme_of_opens (hplain c (by simp)).1 (hplain c (by simp)).2 hread herror

/-- A character of a class that holds no separator is none. -/
private theorem not_separator {p : Char → Bool}
    (h : [' ', '\t', '\n', '\r', ',', '\uFEFF', '#'].all (!p ·)) {c : Char} (hc : p c = true) :
    isBlank c = false ∧ c ≠ '#' := by
  have hnot : ∀ c ∈ [' ', '\t', '\n', '\r', ',', '\uFEFF', '#'], p c = false := fun c hc => by
    simpa using List.all_eq_true.1 h c hc
  refine ⟨?_, fun hcomment => ?_⟩
  · cases hblank : isBlank c with
    | false => rfl
    | true =>
      simp only [isBlank, Bool.or_eq_true, decide_eq_true_eq] at hblank
      rw [hnot c (by simp; grind)] at hc
      cases hc
  · rw [hnot c (by simp [hcomment])] at hc
    cases hc

/-- A word is printed as one token, which a text that opens ends. -/
private theorem prints_word {w : String} (h : (word w).Genuine) : Prints w.toList [word w] := by
  obtain ⟨kind, hkind, heq⟩ := h
  obtain rfl := Token.Kind.eq_of_terminal heq
  obtain ⟨c, cs, htext, hall, hread⟩ := hkind.read_word
  rw [← terminal_wordKind]
  refine prints_lexeme ?_ (fun c hc => not_separator (by decide) (hall c hc)) ⟨c, cs, htext, hread⟩
  cases hw : wordKind w with
  | error cause =>
    have := asName?_wordKind w
    rw [hw] at this
    cases this
  | _ => rfl

/-- A number is printed as one token, as it was written. -/
private theorem prints_number {kind : Token.Kind} {raw : String} (hraw : kind.numberText? = some raw)
    (h : (Terminal.plain kind).Genuine) : Prints raw.toList [.plain kind] := by
  obtain ⟨kind', hkind, heq⟩ := h
  obtain rfl := Token.Kind.eq_of_terminal heq
  obtain ⟨c, cs, htext, hall, hread⟩ := hkind.read_number hraw
  rw [← heq]
  refine prints_lexeme ?_ (fun c hc => not_separator (by decide) (hall c hc)) ⟨c, cs, htext, hread⟩
  cases kind' <;> first | rfl | cases hraw

/-- The style in which a document is read back from its canonical layout. -/
def Restyle.printed : Restyle where
  span s := s
  block value block := block && Block.isPrintable value.toList
  shorthand o := decide o.IsBare

/-- A string is printed as a literal that cooks to its value. -/
private theorem prints_literalText (l : StringLiteral) :
    Prints (literalText l) [.string l.value (Restyle.printed.block l.value l.block)] := by
  simp only [literalText, Restyle.printed, Block.print?]
  cases l.block with
  | false => exact prints_quotedText l.value
  | true =>
    simp only [if_true, Bool.true_and]
    split
    · rename_i h
      rw [h]
      exact prints_blockText h
    · rename_i h
      rw [Bool.eq_false_iff.2 h]
      exact prints_quotedText l.value

/-- A name before a colon, and a text after it. -/
theorem prints_labelled {w : String} (hw : (word w).Genuine) {text : List Char} {ts : List Terminal}
    (h : Prints text ts) : Prints (w.toList ++ ':' :: ' ' :: text) (word w :: sign .colon :: ts) :=
  (prints_word hw).append ((h.cons_blank rfl).cons_sign rfl) (opens_cons _ rfl)

/-- A text after some blanks, or nothing. -/
theorem Prints.wrap_blank {text : List Char} {ts : List Terminal} (h : Prints text ts) :
    Prints (wrap [' '] text []) ts := by
  rw [wrap]
  split
  · rename_i hempty
    rwa [← hempty]
  · simpa using h.cons_blank rfl

/-- A wrapped text opens if its first character ends a token. -/
private theorem opens_wrap {c : Char} (h : endsToken c = true) (before text after : List Char) :
    Opens (wrap (c :: before) text after) := by
  rw [wrap]
  split
  · exact opens_nil
  · exact opens_cons _ h

section
variable {α : Type} {items : List α} {f : α → List Char} {g : α → List Terminal} {opening close : Punctuator}
  {before after : List Char}

/-- Joined items between two signs, each with blanks on its inner side. -/
theorem Prints.wrap_between {text : List Char} (h : Prints text (items.flatMap g))
    (hbefore : ∀ {text : List Char} {ts : List Terminal}, Prints text ts →
      Prints (before ++ text) (sign opening :: ts))
    (hafter : Prints after [sign close]) (hopens : Opens after) (hg : ∀ a, g a ≠ []) (hitems : items ≠ []) :
    Prints (wrap before text after) (between opening close (items.flatMap g)) := by
  have htext : text ≠ [] := by
    rintro rfl
    obtain ⟨a, rest, rfl⟩ := List.exists_cons_of_ne_nil hitems
    exact hg a (List.append_eq_nil_iff.1 h.eq_nil).1
  rw [wrap, if_neg htext, List.append_assoc]
  exact hbefore (h.append hafter hopens)

/-- A group between two signs prints its items with the signs, or nothing when there are none. -/
private theorem Prints.wrap_group {text : List Char} (h : Prints text (items.flatMap g))
    (hbefore : ∀ {text : List Char} {ts : List Terminal}, Prints text ts →
      Prints (before ++ text) (sign opening :: ts))
    (hafter : Prints after [sign close]) (hopens : Opens after) (hg : ∀ a, g a ≠ [])
    (hnil : items = [] → text = []) :
    Prints (wrap before text after) (group opening close g items) := by
  rw [group]
  split
  · rename_i hitems
    rw [hnil hitems]
    exact Prints.nil
  · rename_i hitems
    exact h.wrap_between hbefore hafter hopens hg hitems

private theorem isBlank_commaSpace : ∀ ch ∈ commaSpace, isBlank ch = true := by simp [commaSpace, isBlank]

private theorem prints_commaSpace (h : ∀ a ∈ items, Prints (f a) (g a)) :
    Prints (commaSpace.intercalate (items.map f)) (items.flatMap g) :=
  .intercalate isBlank_commaSpace (opens_cons _ rfl) (by decide) h

/-- A list in parentheses prints the items with the parentheses. -/
private theorem prints_parens (hg : ∀ a, g a ≠ []) (h : ∀ a ∈ items, Prints (f a) (g a)) :
    Prints (parens (join commaSpace (items.map f))) (group .openParen .closeParen g items) :=
  (Prints.join isBlank_commaSpace (opens_cons _ rfl) (by decide) h).wrap_group (fun ht => ht.cons_sign rfl)
    (Prints.nil.cons_sign rfl) (opens_cons _ rfl) hg fun hitems => by simp [hitems, join]

/-- The items between two signs, one on each line. -/
theorem prints_lines (h : ∀ a ∈ items, Prints (f a) (g a)) :
    Prints (indent (join ['\n'] (items.map f))) (items.flatMap g) :=
  (Prints.join (by simp [isBlank]) (opens_cons _ rfl) (by decide) h).indent

end

/-! ### Values and types -/

/-- All terminals are ones that the lexer reads. -/
def AllGenuine (ts : List Terminal) : Prop := ∀ t ∈ ts, t.Genuine

@[simp] theorem allGenuine_cons {t : Terminal} {ts : List Terminal} :
    AllGenuine (t :: ts) ↔ t.Genuine ∧ AllGenuine ts := List.forall_mem_cons

/-- Terminals in two parts are read by the lexer if those of each part are. -/
@[simp] theorem allGenuine_append {ts us : List Terminal} :
    AllGenuine (ts ++ us) ↔ AllGenuine ts ∧ AllGenuine us := List.forall_mem_append

@[simp] theorem allGenuine_flatMap {α : Type} {g : α → List Terminal} {items : List α} :
    AllGenuine (items.flatMap g) ↔ ∀ a ∈ items, AllGenuine (g a) := by
  simp only [AllGenuine, List.mem_flatMap]
  exact ⟨fun h a ha t ht => h t ⟨a, ha, ht⟩, fun h t ⟨a, ha, ht⟩ => h a ha t ht⟩

private theorem AllGenuine.of_group {α : Type} {g : α → List Terminal} {items : List α} {opening close : Punctuator}
    (h : AllGenuine (group opening close g items)) : ∀ a ∈ items, AllGenuine (g a) := by
  rw [group] at h
  split at h
  · rename_i hitems
    simp [hitems]
  · simp only [between, allGenuine_cons, allGenuine_append, allGenuine_flatMap] at h
    exact h.2.1

private theorem Value.itemTexts_eq (literal : StringLiteral → List Char) (items : List Value) :
    itemTexts literal items = items.map (·.text literal) := by
  induction items with
  | nil => rfl
  | cons v vs ih => rw [itemTexts, List.map_cons, ih]

def ObjectField.text (literal : StringLiteral → List Char) (f : ObjectField) : List Char :=
  f.name.value.toList ++ ':' :: ' ' :: f.value.text literal

private theorem Value.fieldTexts_eq (literal : StringLiteral → List Char) (fields : List ObjectField) :
    fieldTexts literal fields = fields.map (·.text literal) := by
  induction fields with
  | nil => rfl
  | cons f fs ih =>
    obtain ⟨name, v, span⟩ := f
    rw [fieldTexts, List.map_cons, ih]
    rfl

/-- A value is printed with its own terminals, but for the form of its strings. -/
theorem Value.prints {vars : Bool} {n : Nat} {v : Value} (hfits : v.Fits vars n)
    (h : AllGenuine v.terminals) : Prints (v.text literalText) (v.restyle .printed).terminals := by
  induction n generalizing v with
  | zero => exact hfits.elim
  | succ n ih =>
    cases v with
    | var use =>
      simp only [Value.terminals, Name.terminals, allGenuine_cons] at h
      exact (prints_word h.2.1).cons_sign rfl
    | int raw span =>
      simp only [Value.terminals, allGenuine_cons] at h
      exact prints_number rfl h.1
    | float raw span =>
      simp only [Value.terminals, allGenuine_cons] at h
      exact prints_number rfl h.1
    | string l => exact prints_literalText l
    | boolean b span =>
      simp only [Value.terminals, allGenuine_cons] at h
      exact prints_word h.1
    | null span =>
      simp only [Value.terminals, allGenuine_cons] at h
      exact prints_word h.1
    | enum value span =>
      simp only [Value.terminals, allGenuine_cons] at h
      exact prints_word h.1
    | list items span =>
      simp only [Value.terminals, Value.itemTerminals_eq, between, allGenuine_cons, allGenuine_append,
        allGenuine_flatMap] at h
      rw [Value.text, Value.itemTexts_eq, Value.restyle_list, Value.terminals, Value.itemTerminals_eq,
        List.flatMap_map]
      have hitems := prints_commaSpace fun v hv => ih (hfits v hv) (h.2.1 v hv)
      exact (hitems.append (Prints.nil.cons_sign (p := .closeBracket) rfl) (opens_cons _ rfl)).cons_sign rfl
    | object fields span =>
      simp only [Value.terminals, Value.fieldTerminals_eq, between, allGenuine_cons, allGenuine_append,
        allGenuine_flatMap] at h
      rw [Value.text, Value.fieldTexts_eq, Value.restyle_object, Value.terminals, Value.fieldTerminals_eq,
        List.flatMap_map]
      have hfields := prints_commaSpace (f := ObjectField.text literalText)
        (g := fun f => (f.restyle .printed).terminals) fun f hf => by
          have hgenuine := h.2.1 f hf
          simp only [ObjectField.terminals, Name.terminals, List.singleton_append, allGenuine_cons] at hgenuine
          exact prints_labelled hgenuine.1 (ih (hfits f hf) hgenuine.2.2)
      exact (hfields.append (Prints.nil.cons_sign (p := .closeBrace) rfl) (opens_cons _ rfl)).cons_sign rfl

private theorem argumentTerminals_restyle (r : Restyle) (arguments : List Argument) :
    argumentTerminals (arguments.map (·.restyle r)) =
      group .openParen .closeParen (fun a => (a.restyle r).terminals) arguments :=
  group_map ..

theorem Argument.prints {vars : Bool} {n : Nat} {a : Argument} (hfits : a.Fits vars n)
    (h : AllGenuine a.terminals) : Prints a.text (a.restyle .printed).terminals := by
  simp only [terminals, Name.terminals, List.singleton_append, allGenuine_cons] at h
  exact prints_labelled h.1 (Value.prints hfits h.2.2)

private theorem prints_arguments {vars : Bool} {n : Nat} {arguments : List Argument}
    (hfits : ∀ a ∈ arguments, a.Fits vars n) (h : AllGenuine (argumentTerminals arguments)) :
    ∀ a ∈ arguments, Prints a.text (a.restyle .printed).terminals :=
  fun a ha => Argument.prints (hfits a ha) (h.of_group a ha)

private theorem Argument.terminals_ne_nil (a : Argument) : a.terminals ≠ [] := by
  simp [terminals, Name.terminals]

private theorem prints_argumentList {vars : Bool} {n : Nat} {arguments : List Argument}
    (hfits : ∀ a ∈ arguments, a.Fits vars n) (h : AllGenuine (argumentTerminals arguments)) :
    Prints (parens (join commaSpace (arguments.map (·.text))))
      (argumentTerminals (arguments.map (·.restyle .printed))) := by
  rw [argumentTerminals_restyle]
  exact prints_parens (fun a => (a.restyle .printed).terminals_ne_nil) (prints_arguments hfits h)

/-- A directive is printed with its own terminals, but for the form of strings. -/
theorem Directive.prints {vars : Bool} {n : Nat} {d : Directive} (hfits : d.Fits vars n)
    (h : AllGenuine d.terminals) : Prints d.text (d.restyle .printed).terminals := by
  simp only [terminals, Name.terminals, List.singleton_append, allGenuine_cons] at h
  exact ((prints_word h.2.1).append (prints_argumentList hfits h.2.2) (opens_wrap rfl _ _ _)).cons_sign rfl

private theorem prints_directives {vars : Bool} {n : Nat} {directives : List Directive}
    (hfits : ∀ d ∈ directives, d.Fits vars n) (h : AllGenuine (directiveTerminals directives)) :
    Prints (directivesText directives) (directiveTerminals (directives.map (·.restyle .printed))) := by
  rw [directiveTerminals, allGenuine_flatMap] at h
  rw [directiveTerminals, List.flatMap_map]
  exact .join (by simp [isBlank]) (opens_cons _ rfl) (by decide) fun d hd => Directive.prints (hfits d hd) (h d hd)

private theorem prints_bang (nullable : Bool) :
    Prints (if nullable then "" else "!").toList (bangTerminals nullable) ∧
      Opens (if nullable then "" else "!").toList := by
  cases nullable with
  | false => exact ⟨Prints.nil.cons_sign rfl, opens_cons _ rfl⟩
  | true => exact ⟨.nil, opens_nil⟩

/-- A type reference is printed with its own terminals. -/
theorem TypeRef.prints {t : TypeRef} (h : AllGenuine t.terminals) :
    Prints t.print.toList (t.restyle .printed).terminals := by
  induction t with
  | named name nullable span =>
    simp only [terminals, Name.terminals, allGenuine_append, allGenuine_cons] at h
    rw [print, String.toList_append]
    exact (prints_word h.1.1).append (prints_bang nullable).1 (prints_bang nullable).2
  | list element nullable span ih =>
    simp only [terminals, between, allGenuine_append, allGenuine_cons] at h
    rw [print, String.toList_append, String.toList_append, String.toList_append]
    refine Prints.append ?_ (prints_bang nullable).1 (prints_bang nullable).2
    have hclose : Prints [']'] [sign .closeBracket] := Prints.nil.cons_sign rfl
    exact ((ih h.1.2.1).append hclose (opens_cons _ rfl)).cons_sign rfl

/-! ### Selections -/

private theorem prints_alias {aliasName : Option Name} (h : AllGenuine (aliasTerminals aliasName)) {text : List Char}
    {ts : List Terminal} (ht : Prints text ts) :
    Prints ((aliasName.map fun a => a.value.toList ++ [':', ' ']).getD [] ++ text)
      (aliasTerminals (aliasName.map (·.restyle .printed)) ++ ts) := by
  cases aliasName with
  | none => exact ht
  | some a =>
    simp only [aliasTerminals, Option.toList, List.flatMap_singleton, Name.terminals, allGenuine_append,
      allGenuine_cons] at h
    have hlabelled := prints_labelled h.1.1 ht
    simpa [aliasTerminals, Name.terminals, Name.restyle] using hlabelled

/-- The line of a field in front of its selection set prints its alias, name, arguments and directives. -/
private theorem prints_headText {aliasName : Option Name} (halias : AllGenuine (aliasTerminals aliasName)) {name : Name}
    (hname : AllGenuine name.terminals) {n : Nat} {arguments : List Argument}
    (hfits : ∀ a ∈ arguments, a.Fits true n) (h : AllGenuine (argumentTerminals arguments)) :
    Prints (Field.headText aliasName name arguments) (aliasTerminals (aliasName.map (·.restyle .printed)) ++
      ((name.restyle .printed).terminals ++ argumentTerminals (arguments.map (·.restyle .printed)))) := by
  have hname : Prints name.value.toList (name.restyle .printed).terminals :=
    prints_word (allGenuine_cons.1 hname).1
  simp only [Field.headText]
  split
  · rw [List.append_assoc]
    refine prints_alias halias (hname.append ?_ (opens_wrap rfl _ _ _))
    rw [argumentTerminals_restyle]
    exact (prints_lines (prints_arguments hfits h)).wrap_group (fun ht => (ht.cons_blank rfl).cons_sign rfl)
      ((Prints.nil.cons_sign rfl).cons_blank rfl) (opens_cons _ rfl)
      (fun a => (a.restyle .printed).terminals_ne_nil) fun hnil => by simp [hnil, join, indent_eq]
  · rw [List.append_assoc]
    exact prints_alias halias (hname.append (prints_argumentList hfits h) (opens_wrap rfl _ _ _))

private theorem selectionTexts_eq (selections : List Selection) :
    selectionTexts selections = selections.map (·.text) := by
  induction selections with
  | nil => rfl
  | cons s rest ih => rw [selectionTexts, List.map_cons, ih]

private theorem SelectionSet.text_eq (set : SelectionSet) : set.text = block (set.selections.map (·.text)) := by
  obtain ⟨selections, span⟩ := set
  rw [text, selectionTexts_eq]

/-- The text of a field with a selection set, if it has one. -/
theorem Selection.text_field (f : Field) : (field f).text =
    join [' '] [Field.headText f.aliasName f.name f.arguments, directivesText f.directives,
      (f.selectionSet.map (·.text)).getD []] := by
  obtain ⟨_, _, _, _, set, _⟩ := f
  cases set with
  | none => simp only [text, join, List.filter_cons, List.filter_nil]; rfl
  | some set => rfl

/-- A text before others, apart by a space. -/
theorem prints_before {a : List Char} {parts : List (List Char)} {ts us : List Terminal} (ha : Prints a ts)
    (h : Prints (join [' '] parts) us) : Prints (join [' '] (a :: parts)) (ts ++ us) :=
  .join_cons (by simp [isBlank]) (opens_cons _ rfl) (by decide) ha h

private theorem prints_last {a : List Char} {ts : List Terminal} (ha : Prints a ts) : Prints (join [' '] [a]) ts := by
  have hnil : Prints (join [' '] []) [] := .nil
  simpa using prints_before ha hnil

/-- A selection is printed with its own terminals, if selection sets inside it are. -/
theorem Selection.prints {n : Nat} {inner : SelectionSet → Prop} (hinner : ∀ set, inner set →
    AllGenuine set.terminals → Prints set.text (set.restyle .printed).terminals) {s : Selection}
    (hfits : s.Fits n inner) (h : AllGenuine s.terminals) : Prints s.text (s.restyle .printed).terminals := by
  cases s with
  | field f =>
    simp only [terminals_field, Field.terminals, allGenuine_append] at h
    have hset : Prints ((f.selectionSet.map (·.text)).getD [])
        ((f.restyle .printed).selectionSet.toList.flatMap (·.terminals)) := by
      cases hf : f.selectionSet with
      | none => simpa [Field.restyle, hf] using Prints.nil
      | some set => simpa [Field.restyle, hf] using hinner set (hfits.2.2 set hf) (by simpa [hf] using h.2)
    have hhead := prints_headText h.1.1.1.1 h.1.1.1.2 hfits.1 h.1.1.2
    have hparts := prints_before hhead (prints_before (prints_directives hfits.2.1 h.1.2) (prints_last hset))
    rw [text_field, restyle_field, terminals_field, Field.terminals]
    simp only [List.append_assoc] at hparts ⊢
    exact hparts
  | spread s =>
    simp only [terminals, Name.terminals, allGenuine_cons, allGenuine_append] at h
    have hdirectives := (prints_directives hfits.2 h.2.2).wrap_blank
    rw [text, List.append_assoc]
    exact ((prints_word h.2.1.1).append hdirectives (opens_wrap rfl _ _ _)).dots
  | inline i =>
    obtain ⟨condition, directives, set, span⟩ := i
    simp only [terminals, allGenuine_cons, allGenuine_append] at h
    have hcondition : Prints ((condition.map fun c => "on ".toList ++ c.typeName.value.toList).getD [])
        (conditionTerminals (condition.map (·.restyle .printed))) := by
      cases condition with
      | none => exact .nil
      | some c =>
        have hgenuine := h.2.1.1
        simp only [conditionTerminals, Option.toList, List.flatMap_singleton, TypeCondition.terminals,
          Name.terminals, allGenuine_cons] at hgenuine
        exact (prints_word hgenuine.1).append ((prints_word hgenuine.2.1).cons_blank rfl) (opens_cons _ rfl)
    have hset := hinner set hfits.2 h.2.2
    have hparts := prints_before hcondition (prints_before (prints_directives hfits.1 h.2.1.2) (prints_last hset))
    rw [text, restyle_inline, terminals_inline]
    rw [List.append_assoc]
    exact prints_before (Prints.dots .nil) hparts

/-- A selection set is printed with its own terminals, by induction on the depth. -/
theorem SelectionSet.prints {n : Nat} {set : SelectionSet} (hfits : set.Fits n) (h : AllGenuine set.terminals) :
    Prints set.text (set.restyle .printed).terminals := by
  induction n generalizing set with
  | zero => exact hfits.elim
  | succ n ih =>
    simp only [terminals_eq, between, allGenuine_cons, allGenuine_append, allGenuine_flatMap] at h
    rw [text_eq, restyle_eq, terminals_eq, List.flatMap_map, block]
    have hlines := prints_lines fun s hs => Selection.prints (fun _ => ih) (hfits.2 s hs) (h.2.1 s hs)
    exact hlines.wrap_between (fun ht => (ht.cons_blank rfl).cons_sign rfl)
      ((Prints.nil.cons_sign rfl).cons_blank rfl) (opens_cons _ rfl)
      (fun s => (s.restyle .printed).terminals_ne_nil) hfits.1

theorem VariableDefinition.prints {v : VariableDefinition} (hfits : v.Fits) (h : AllGenuine v.terminals) :
    Prints v.text (v.restyle .printed).terminals := by
  simp only [terminals, Name.terminals, allGenuine_cons, allGenuine_append, allGenuine_flatMap] at h
  have hdirectives := (prints_directives hfits.directives h.2.2.2.2).wrap_blank
  have hdefault : Prints (wrap " = ".toList ((v.defaultValue.map (·.text literalText)).getD []) [])
      ((v.restyle .printed).defaultValue.toList.flatMap fun value => sign .equals :: value.terminals) := by
    cases hv : v.defaultValue with
    | none => simpa [restyle, hv, wrap] using Prints.nil
    | some value =>
      have hvalue := Value.prints (hfits.defaultValue value hv) (h.2.2.2.1.2 value (by simp [hv])).2
      -- a default is left out of the text only when its own text is empty
      have hne : value.text literalText ≠ [] := fun hempty => by
        rw [hempty] at hvalue
        exact (value.restyle .printed).terminals_ne_nil hvalue.eq_nil
      simpa [restyle, hv, wrap, hne] using ((hvalue.cons_blank rfl).cons_sign rfl).cons_blank rfl
  have htype := (TypeRef.prints h.2.2.2.1.1).append (hdefault.append hdirectives (opens_wrap rfl _ _ _))
    ((opens_wrap rfl _ _ _).append (opens_wrap rfl _ _ _))
  have hall := (prints_labelled h.2.1.1 htype).cons_sign (c := '$') rfl
  simpa [text, terminals, restyle, Name.terminals, Name.restyle] using hall

/-- What is printed before the selection set of an operation that is not a bare query. -/
def Operation.headText (o : Operation) : List Char :=
  join [' '] [o.kind.keyword.toList, (o.name.map (·.value.toList)).getD [] ++
    parens (join commaSpace (o.variableDefinitions.map (·.text))), directivesText o.directives]

private theorem Operation.prints_headText {o : Operation} (hfits : o.Fits) (h : AllGenuine o.headTerminals) :
    Prints o.headText (o.restyle .printed).headTerminals := by
  simp only [headTerminals, allGenuine_cons, allGenuine_append, allGenuine_flatMap] at h
  obtain ⟨hkeyword, ⟨hname, hvariables⟩, hdirectives⟩ := h
  have hname : Prints ((o.name.map (·.value.toList)).getD [])
      ((o.name.map (·.restyle .printed)).toList.flatMap (·.terminals)) := by
    cases hn : o.name with
    | none => exact .nil
    | some n => exact prints_word (hname n (by simp [hn]) _ (by simp [Name.terminals]))
  have hvariables : Prints (parens (join commaSpace (o.variableDefinitions.map (·.text))))
      (group .openParen .closeParen VariableDefinition.terminals
        (o.variableDefinitions.map (·.restyle .printed))) := by
    rw [group_map]
    exact prints_parens (fun v => by simp [VariableDefinition.terminals]) fun v hv =>
      VariableDefinition.prints (hfits.variableDefinitions v hv) (hvariables.of_group v hv)
  exact prints_before (prints_word hkeyword) (prints_before (hname.append hvariables (opens_wrap rfl _ _ _))
    (prints_last (prints_directives hfits.directives hdirectives)))

/-- A query without a name, variables and directives has just its keyword in front. -/
private theorem Operation.IsBare.headText {o : Operation} (h : o.IsBare) : o.headText = "query".toList := by
  obtain ⟨hkind, hname, hvariables, hdirectives⟩ := h
  simp [Operation.headText, hkind, hname, hvariables, hdirectives, OperationKind.keyword, directivesText, join,
    parens, wrap]

/-- An operation is printed as its bare selection set exactly when it may be. -/
theorem Operation.headText_eq_iff {o : Operation} (hfits : o.Fits) (h : AllGenuine o.headTerminals) :
    o.headText = "query".toList ↔ o.IsBare := by
  constructor
  · intro hquery
    -- texts are read in one way only, so the head has the terminals of the word and no others
    have hword : (word "query").Genuine := ⟨_, .inr ⟨'q', "uery".toList, rfl⟩, rfl⟩
    have hprints := prints_headText hfits h
    rw [hquery] at hprints
    obtain ⟨hkeyword, hrest⟩ := List.cons.inj (hprints.unique (prints_word hword))
    simp only [List.append_eq_nil_iff] at hrest
    obtain ⟨⟨hname, hvariables⟩, hdirectives⟩ := hrest
    refine ⟨?_, ?_, ?_, ?_⟩
    · change word o.kind.keyword = word "query" at hkeyword
      revert hkeyword
      cases o.kind <;> decide
    · cases hn : o.name with
      | none => rfl
      | some n => simp [restyle, hn, Name.terminals] at hname
    · rw [group] at hvariables
      split at hvariables
      · rename_i hnil
        exact List.map_eq_nil_iff.1 hnil
      · simp [between] at hvariables
    · cases hd : o.directives with
      | nil => rfl
      | cons d ds => simp [restyle, hd, directiveTerminals, Directive.terminals] at hdirectives
  · exact IsBare.headText

/-- An operation is printed with its own terminals, a bare query as the selection set alone. -/
theorem Operation.prints {o : Operation} (hfits : o.Fits) (h : AllGenuine o.terminals) :
    Prints o.text (o.restyle .printed).terminals := by
  have hset : AllGenuine o.selectionSet.terminals := by
    rw [terminals] at h
    split at h
    · exact h
    · exact (allGenuine_append.1 h).2
  have htext : o.text = if o.headText = "query".toList then o.selectionSet.text else
      o.headText ++ ' ' :: o.selectionSet.text := rfl
  have hset := SelectionSet.prints hfits.selectionSet hset
  rw [htext, terminals]
  by_cases hbare : o.IsBare
  · have hshorthand : (o.restyle .printed).shorthand = true := decide_eq_true hbare
    rw [hshorthand, if_pos hbare.headText]
    exact hset
  -- a bare query is printed as its selection set, so the others need their head
  · have hlong : o.shorthand ≠ true := fun hs => hbare (hfits.shorthand hs)
    rw [terminals, if_neg hlong, allGenuine_append] at h
    have hshorthand : (o.restyle .printed).shorthand = false := decide_eq_false hbare
    rw [hshorthand, if_neg (mt (headText_eq_iff hfits h.1).1 hbare)]
    exact (prints_headText hfits h.1).append (hset.cons_blank rfl) (opens_cons _ rfl)

/-- A word and a space before a text. -/
theorem prints_word_before {w : String} (hw : (word w).Genuine) {text : List Char} {ts : List Terminal}
    (h : Prints text ts) : Prints (w.toList ++ ' ' :: text) (word w :: ts) :=
  (prints_word hw).append (h.cons_blank rfl) (opens_cons _ rfl)

private theorem Fragment.text_def (f : Fragment) : f.text = "fragment ".toList ++ f.name.value.toList ++
    " on ".toList ++ f.condition.typeName.value.toList ++ [' '] ++ wrap [] (directivesText f.directives) [' '] ++
    f.selectionSet.text := rfl

theorem Fragment.text_eq (f : Fragment) : f.text = "fragment".toList ++ ' ' :: (f.name.value.toList ++
    ' ' :: ("on".toList ++ ' ' :: (f.condition.typeName.value.toList ++
      ' ' :: (wrap [] (directivesText f.directives) [' '] ++ f.selectionSet.text)))) := by
  have hfirst : "fragment ".toList = "fragment".toList ++ [' '] := rfl
  have hsecond : " on ".toList = ' ' :: ("on".toList ++ [' ']) := rfl
  rw [text_def]
  simp only [hfirst, hsecond, List.append_assoc, List.cons_append, List.nil_append]

/-- A fragment is printed with its own terminals. -/
theorem Fragment.prints {f : Fragment} (hfits : f.Fits) (h : AllGenuine f.terminals) :
    Prints f.text (f.restyle .printed).terminals := by
  simp only [terminals, TypeCondition.terminals, Name.terminals, allGenuine_cons, allGenuine_append] at h
  obtain ⟨hfragment, ⟨⟨⟨hname, -⟩, hon, htype, -⟩, hdirectives⟩, hset⟩ := h
  have hset := SelectionSet.prints hfits.selectionSet hset
  have hbody : Prints (wrap [] (directivesText f.directives) [' '] ++ f.selectionSet.text)
      (directiveTerminals (f.directives.map (·.restyle .printed)) ++
        (f.selectionSet.restyle .printed).terminals) := by
    have hdirectives := prints_directives hfits.directives hdirectives
    rw [wrap]
    split
    · rename_i hempty
      rw [hempty] at hdirectives
      simpa [hdirectives.eq_nil] using hset
    · rw [List.nil_append, List.append_assoc]
      exact hdirectives.append (hset.cons_blank rfl) (opens_cons _ rfl)
  have hall := prints_word_before hfragment (prints_word_before hname (prints_word_before hon
    (prints_word_before htype hbody)))
  rw [text_eq]
  simpa [terminals, restyle, TypeCondition.restyle, TypeCondition.terminals, Name.terminals,
    Name.restyle] using hall

theorem Definition.prints {definition : Definition} (hfits : definition.Fits)
    (h : AllGenuine definition.terminals) :
    Prints definition.text (definition.restyle .printed).terminals := by
  cases definition with
  | operation o => exact Operation.prints hfits h
  | fragment f => exact Fragment.prints hfits h

/-- The canonical layout prints the document, in the style that the layout has for it. -/
theorem Document.prints {d : Document} (hfits : d.Fits) (h : AllGenuine d.terminals) :
    Prints d.text (d.restyle .printed).terminals := by
  rw [terminals, allGenuine_flatMap] at h
  rw [text, terminals, restyle, List.flatMap_map]
  exact .join (by simp [isBlank]) (opens_cons _ rfl) (by decide) fun definition hd =>
    Definition.prints (hfits.definitions definition hd) (h definition hd)

end GraphQL
