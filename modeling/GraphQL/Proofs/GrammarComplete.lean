import GraphQL.Proofs.ParseAccepts
import GraphQL.Proofs.Restyle

/-!
# What the grammar gives back

From the terminals that a document is written with, the grammar gives the document back up to its spans, where the
document meets what the grammar asks for (`document_accepts`). The parts of a document are accepted as long as
what follows is none of the signs with which the part could go on.
-/

namespace GraphQL

open Terminal

/-- Names with one text are the same but for their places. -/
theorem Name.restyle_erase {m n : Name} (h : m.value = n.value) : m.restyle .erase = n.restyle .erase := by
  simp [restyle, h]

/-- A string can be written quoted or as a block. -/
theorem kind_of_string_terminal {t : Token} {value : String} {block : Bool}
    (h : t.terminal = .string value block) :
    (∃ raw, t.kind = .string raw ∧ Quoted.cook raw = .ok value ∧ block = false) ∨
      ∃ raw, t.kind = .blockString raw ∧ Block.cook raw = .ok value ∧ block = true := by
  unfold Token.terminal Token.Kind.terminal at h
  split at h
  · split at h
    · simp_all
    · cases h
  · split at h
    · simp_all
    · cases h
  · cases h

private theorem Value.headAvoids {S : List Punctuator} (h : .dollar ∉ S ∧ .openBracket ∉ S ∧ .openBrace ∉ S)
    (v : Value) : HeadAvoids S v.terminals := by
  cases v with
  | var => exact headAvoids_cons (avoids_sign h.1)
  | list => exact headAvoids_cons (avoids_sign h.2.1)
  | object => exact headAvoids_cons (avoids_sign h.2.2)
  | boolean | null | enum => exact headAvoids_cons (avoids_word _ _)
  | int | float | string => exact headAvoids_cons ⟨by simp, by simp, by simp [sign]⟩

/-- A type reference starts with a word or with a bracket. -/
theorem TypeRef.headAvoids {S : List Punctuator} (h : .openBracket ∉ S) (t : TypeRef) :
    HeadAvoids S t.terminals := by
  cases t with
  | named => exact headAvoids_cons (avoids_word _ _)
  | list => exact headAvoids_cons (avoids_sign h)

private theorem headAvoids_arguments {S : List Punctuator} (h : .openParen ∉ S) (arguments : List Argument) :
    HeadAvoids S (argumentTerminals arguments) :=
  headAvoids_group h _ _

theorem headAvoids_directives {S : List Punctuator} (h : .atSign ∉ S) (directives : List Directive) :
    HeadAvoids S (directiveTerminals directives) :=
  .flatMap fun _ _ => headAvoids_cons (avoids_sign h)

private theorem SelectionSet.headAvoids {S : List Punctuator} (h : .openBrace ∉ S) (set : SelectionSet) :
    HeadAvoids S set.terminals := by
  rw [terminals_eq]
  exact headAvoids_cons (avoids_sign h)

private theorem Selection.headAvoids {S : List Punctuator} (h : .ellipsis ∉ S) (s : Selection) :
    HeadAvoids S s.terminals := by
  cases s with
  | field f =>
    rw [Selection.terminals_field, Field.terminals]
    cases f.aliasName <;> exact headAvoids_cons (avoids_word _ _)
  | spread => exact headAvoids_cons (avoids_sign h)
  | inline i =>
    rw [Selection.terminals_inline]
    exact headAvoids_cons (avoids_sign h)

private theorem Definition.headAvoids (definition : Definition) : HeadAvoids [] definition.terminals := by
  cases definition with
  | operation o =>
    simp only [terminals, Operation.terminals]
    split
    · exact o.selectionSet.headAvoids (by simp)
    · exact headAvoids_cons (avoids_word _ _)
  | fragment => exact headAvoids_cons (avoids_word _ _)

namespace Parse

/-- A string is read from any token that writes it. -/
theorem stringLiteral_accepts (value : String) (block : Bool) {S : List Punctuator} :
    Accepts stringLiteral [.string value block] S fun l => l.value = value ∧ l.block = block := by
  refine .peek (by simp) fun t ht => ?_
  rcases kind_of_string_terminal ht with ⟨raw, hkind, hcook, rfl⟩ | ⟨raw, hkind, hcook, rfl⟩
  · simp only [hkind, pure_bind, hcook]
    exact .advance (.pure ⟨rfl, rfl⟩)
  · simp only [hkind, pure_bind, hcook]
    exact .advance (.pure ⟨rfl, rfl⟩)

private theorem objectField_accepts {value : Parse Value} {f : ObjectField}
    (h : Accepts value f.value.terminals [] fun v => v.restyle .erase = f.value.restyle .erase) :
    Accepts (objectField value) f.terminals [] fun g => g.restyle .erase = f.restyle .erase := by
  refine (Accepts.name f.name.value).bind_closed (fun name hname => ?_) (headAvoids_cons (avoids_sign (by simp)))
  refine (Accepts.expect .colon).bind_closed (fun _ _ => ?_) (f.value.headAvoids (by simp))
  refine h.bind_nil fun v hv => (Accepts.spanFrom _).bind_nil fun span _ => .pure ?_
  simp [ObjectField.restyle, Name.restyle_erase hname, hv]

/-- A value is read from its terminals, as deep as it is nested, whatever comes after them. -/
private theorem value_accepts (place : ValuePlace) {n : Nat} {v : Value} (h : v.Fits place.forbids?.isNone n) :
    Accepts (value place n) v.terminals [] fun w => w.restyle .erase = v.restyle .erase := by
  induction n generalizing v with
  | zero => exact h.elim
  | succ n ih =>
    cases v with
    | var use =>
      refine .peek (by simp [sign]) fun t ht => ?_
      simp only [kind_of_terminal ht, Option.isNone_iff_eq_none.1 h]
      refine .advance ((Accepts.name use.name.value).bind_nil fun name hname => .pure ?_)
      simp [Value.restyle, VariableUse.restyle, Name.restyle_erase hname]
    | int raw span =>
      refine .peek (by simp) fun t ht => ?_
      simp only [kind_of_terminal ht]
      exact .advance (.pure rfl)
    | float raw span =>
      refine .peek (by simp) fun t ht => ?_
      simp only [kind_of_terminal ht]
      exact .advance (.pure rfl)
    | string l =>
      have hl : Accepts (stringLiteral >>= fun l => pure (Value.string l)) [.string l.value l.block] [] fun w =>
          w.restyle .erase = (Value.string l).restyle .erase :=
        (stringLiteral_accepts l.value l.block).bind_nil fun m hm => .pure (by
          simp [Value.restyle, StringLiteral.restyle, hm])
      refine .peek (by simp) fun t ht => ?_
      rcases kind_of_string_terminal ht with ⟨raw, hkind, -⟩ | ⟨raw, hkind, -⟩
      · simpa only [hkind] using hl
      · simpa only [hkind] using hl
    | boolean b span =>
      refine .peek (avoids_word [] _).1 fun t ht => ?_
      cases b with
      | true =>
        simp only [show t.kind = .trueWord from kind_of_terminal ht]
        exact .advance (.pure rfl)
      | false =>
        simp only [show t.kind = .falseWord from kind_of_terminal ht]
        exact .advance (.pure rfl)
    | null span =>
      refine .peek (avoids_word [] _).1 fun t ht => ?_
      simp only [show t.kind = .nullWord from kind_of_terminal ht]
      exact .advance (.pure rfl)
    | enum value span =>
      refine .peek (avoids_word [] _).1 fun t ht => ?_
      simp only [show t.kind = .name value from (kind_of_terminal ht).trans h]
      exact .advance (.pure rfl)
    | list items span =>
      rw [Value.terminals, Value.itemTerminals_eq]
      refine .peek (by simp [sign]) fun t ht => ?_
      simp only [kind_of_terminal ht]
      refine (Accepts.delimited (S := []) (k := (Value.restyle .erase ·)) (fun w hw => ih (h w hw))
        (fun w _ => w.terminals_ne_nil) (fun w _ => w.headAvoids (by simp)) (by simp) (.inr rfl)).bind_nil
          fun r hr => .pure ?_
      rw [Value.restyle_list, Value.restyle_list, hr]
      rfl
    | object fields span =>
      rw [Value.terminals, Value.fieldTerminals_eq]
      refine .peek (by simp [sign]) fun t ht => ?_
      simp only [kind_of_terminal ht]
      refine (Accepts.delimited (S := []) (k := (ObjectField.restyle .erase ·))
        (fun f hf => objectField_accepts (ih (h f hf))) (fun f _ => by simp [ObjectField.terminals])
          (fun f _ => headAvoids_cons (avoids_word _ _)) (by simp) (.inr rfl)).bind_nil fun r hr => .pure ?_
      rw [Value.restyle_object, Value.restyle_object, hr]
      rfl

private theorem argument_accepts (place : ValuePlace) {n : Nat} {a : Argument} (h : a.Fits place.forbids?.isNone n) :
    Accepts (argument place n) a.terminals [] fun b => b.restyle .erase = a.restyle .erase := by
  refine (Accepts.name a.name.value).bind_closed (fun name hname => ?_) (headAvoids_cons (avoids_sign (by simp)))
  refine (Accepts.expect .colon).bind_closed (fun _ _ => ?_) (a.value.headAvoids (by simp))
  refine (value_accepts place h).bind_nil fun v hv => (Accepts.spanFrom _).bind_nil fun span _ => .pure ?_
  simp [Argument.restyle, Name.restyle_erase hname, hv]

private theorem arguments_accepts (place : ValuePlace) {n : Nat} {arguments : List Argument}
    (h : ∀ a ∈ arguments, a.Fits place.forbids?.isNone n) {S : List Punctuator} (hsigns : .openParen ∈ S) :
    Accepts (Parse.arguments place n) (argumentTerminals arguments) S fun bs =>
      bs.map (·.restyle .erase) = arguments.map (·.restyle .erase) :=
  .delimitedIf (S := []) (fun a ha => argument_accepts place (h a ha)) (fun a _ => by simp [Argument.terminals])
    (fun a _ => headAvoids_cons (avoids_word _ _)) (by simp) hsigns

private theorem directive?_accepts (place : ValuePlace) {n : Nat} {d : Directive} (h : d.Fits place.forbids?.isNone n) :
    Accepts (directive? place n) d.terminals [.openParen] fun o =>
      ∃ e, o = some e ∧ e.restyle .erase = d.restyle .erase := by
  refine (Accepts.accept .atSign).bind_cons (fun o ho => ?_)
    ((headAvoids_cons (avoids_word _ _)).append (headAvoids_arguments (by simp) _))
  obtain ⟨sign, rfl⟩ := Option.isSome_iff_exists.1 ho
  refine (Accepts.name d.name.value).bind_closed (fun name hname => ?_) (headAvoids_arguments (by simp) _)
  refine (arguments_accepts place h (by simp)).bind_nil fun arguments hargs =>
    (Accepts.spanFrom _).bind_nil fun span _ => .pure ⟨_, rfl, ?_⟩
  simp [Directive.restyle, Name.restyle_erase hname, hargs]

/-- Directives are read from their terminals up to what starts none. -/
theorem directives_accepts (place : ValuePlace) {n : Nat} {directives : List Directive}
    (h : ∀ d ∈ directives, d.Fits place.forbids?.isNone n) {S : List Punctuator}
    (hsigns : [.openParen, .atSign] ⊆ S) :
    Accepts (Parse.directives place n) (directiveTerminals directives) S fun es =>
      es.map (·.restyle .erase) = directives.map (·.restyle .erase) := by
  rw [directiveTerminals, ← List.append_nil (directives.flatMap _)]
  refine .repeated (fun d hd => directive?_accepts place (h d hd)) (fun d _ => by simp [Directive.terminals])
    (fun d _ => headAvoids_cons (avoids_sign (by simp))) ?_ (headAvoids_nil _)
      fun _ => List.Subset.trans (by simp) hsigns
  refine (Accepts.accept_nil (hsigns (by simp))).bind_nil fun o ho => ?_
  subst ho
  exact .pure rfl

private theorem nullable_accepts (b : Bool) : Accepts nullable (bangTerminals b) [.bang] (· = b) := by
  cases b with
  | false => exact (Accepts.accept .bang).bind_nil fun o ho => .pure (by simpa using ho)
  | true =>
    refine (Accepts.accept_nil (by simp)).bind_nil fun o ho => .pure ?_
    rw [ho]
    rfl

private theorem headAvoids_bang {S : List Punctuator} (h : .bang ∉ S) (b : Bool) :
    HeadAvoids S (bangTerminals b) := by
  cases b with
  | false => exact headAvoids_cons (avoids_sign h)
  | true => exact headAvoids_nil _

private theorem wordKind_ne_punctuator (w : String) (p : Punctuator) : wordKind w ≠ .punctuator p := fun h => by
  have := asName?_wordKind w
  rw [h] at this
  cases this

/-- A type reference is read from its terminals, where no mark of a type without null follows. -/
theorem typeRef_accepts {n : Nat} {t : TypeRef} (h : t.Fits n) :
    Accepts (typeRef n) t.terminals [.bang] fun u => u.restyle .erase = t.restyle .erase := by
  induction n generalizing t with
  | zero => cases t <;> exact h.elim
  | succ n ih =>
    cases t with
    | named name nullable span =>
      refine .peek (avoids_word [] _).1 fun u hu => ?_
      have hkind : u.kind = wordKind name.value := kind_of_terminal hu
      rw [if_neg (by rw [hkind]; exact wordKind_ne_punctuator _ _), if_pos (by simp [hkind])]
      refine (Accepts.name name.value).bind_closed (fun m hm => ?_) (headAvoids_bang (by simp) nullable)
      refine (nullable_accepts nullable).bind_nil fun b hb => (Accepts.spanFrom _).bind_nil fun _ _ => .pure ?_
      simp [TypeRef.restyle, Name.restyle_erase hm, hb]
    | list element nullable span =>
      rw [TypeRef.terminals, between, List.cons_append, List.append_assoc]
      refine .peek (by simp [sign]) fun u hu => ?_
      rw [if_pos (kind_of_terminal hu)]
      refine .advance ((ih h).bind (fun e he => ?_) (headAvoids_cons (avoids_sign (by simp))) (by simp))
      refine .peek (by simp [sign]) fun close hclose => ?_
      rw [if_pos (kind_of_terminal hclose)]
      refine .advance ((nullable_accepts nullable).bind_nil fun b hb => (Accepts.spanFrom _).bind_nil
        fun _ _ => .pure ?_)
      simp [TypeRef.restyle, he, hb]

/-! ### Selections -/

private theorem kind_ne_on {t : Token} {w : String} (h : w ≠ "on") (ht : t.terminal = word w) :
    t.kind ≠ .name "on" := by
  intro hkind
  have hw := asName?_wordKind w
  rw [← kind_of_terminal ht, hkind] at hw
  exact h (by simpa [Token.Kind.asName?] using hw.symm)

private theorem typeCondition_accepts (c : TypeCondition) {S : List Punctuator} :
    Accepts typeCondition c.terminals S fun b => b.restyle .erase = c.restyle .erase := by
  refine (Accepts.keyword rfl).bind_closed (fun _ _ => ?_) (headAvoids_cons (avoids_word _ _))
  refine (Accepts.name c.typeName.value).bind_nil fun name hname => (Accepts.spanFrom _).bind_nil
    fun span _ => .pure ?_
  simp [TypeCondition.restyle, Name.restyle_erase hname]

/-- The signs with which a selection could go on. -/
def selectionSigns : List Punctuator := [.colon, .openParen, .atSign, .openBrace]

section
variable {n : Nat} {inner : SelectionSet → Prop} {set : Parse SelectionSet}

private theorem inlineRest_accepts
    (hset : ∀ x, inner x → Accepts set x.terminals [] fun y => y.restyle .erase = x.restyle .erase)
    (start : Span) (condition : Option TypeCondition) {i : InlineFragment} (h : (Selection.inline i).Fits n inner)
    (hcond : condition.map (·.restyle .erase) = i.condition.map (·.restyle .erase)) :
    Accepts (inlineRest n set start condition) (directiveTerminals i.directives ++ i.selectionSet.terminals)
      selectionSigns fun s => s.restyle .erase = (Selection.inline i).restyle .erase := by
  refine (directives_accepts .anywhere h.1 (List.Subset.refl _)).bind (fun directives hdirs => ?_)
    (i.selectionSet.headAvoids (by simp)) fun h => absurd h i.selectionSet.terminals_ne_nil
  refine ((hset _ h.2).weaken (List.nil_subset _)).bind_nil fun y hy => (Accepts.spanFrom _).bind_nil
    fun span _ => .pure ?_
  simp [Selection.restyle_inline, InlineFragment.restyle, hcond, hdirs, hy]

/-- What goes on behind dots with a condition, a directive or a brace is an inline fragment. -/
private theorem fragmentSelection_accepts_inline
    (hset : ∀ x, inner x → Accepts set x.terminals [] fun y => y.restyle .erase = x.restyle .erase)
    {i : InlineFragment} (h : (Selection.inline i).Fits n inner) :
    Accepts (fragmentSelection n set) (Selection.inline i).terminals selectionSigns fun s =>
      s.restyle .erase = (Selection.inline i).restyle .erase := by
  have hrest : HeadAvoids [] (directiveTerminals i.directives ++ i.selectionSet.terminals) :=
    (headAvoids_directives (by simp) _).append (i.selectionSet.headAvoids (by simp))
  rw [Selection.terminals_inline, List.append_assoc]
  cases hc : i.condition with
  | some condition =>
    rw [conditionTerminals, Option.toList_some, List.flatMap_singleton]
    refine (Accepts.expect .ellipsis).bind_closed (fun dots _ => ?_) (headAvoids_cons (avoids_word _ _))
    refine .peek (avoids_word [] _).1 fun t ht => ?_
    rw [if_pos (show t.kind = .name "on" from kind_of_terminal ht)]
    exact (typeCondition_accepts condition).bind_closed
      (fun c hcond => inlineRest_accepts hset _ _ h (by simp [hc, hcond])) hrest
  | none =>
    -- without a condition the next token tells a fragment from a spread: a directive or the selections
    refine (Accepts.expect .ellipsis).bind_cons (fun dots _ => ?_) hrest
    have hnext := inlineRest_accepts hset dots.span none h (by simp [hc])
    cases hd : i.directives with
    | nil =>
      rw [hd, i.selectionSet.terminals_eq] at hnext
      rw [i.selectionSet.terminals_eq]
      refine .peek (by simp [sign]) fun t ht => ?_
      have hkind : t.kind = .punctuator .openBrace := kind_of_terminal ht
      rw [if_neg (by simp [hkind]), if_pos (.inr hkind)]
      exact hnext
    | cons d ds =>
      rw [hd] at hnext
      refine .peek (by simp [sign]) fun t ht => ?_
      have hkind : t.kind = .punctuator .atSign := kind_of_terminal ht
      rw [if_neg (by simp [hkind]), if_pos (.inl hkind)]
      exact hnext

/-- Any name but `on` behind dots makes them a spread. -/
private theorem fragmentSelection_accepts_spread {s : FragmentSpread} (h : (Selection.spread s).Fits n inner) :
    Accepts (fragmentSelection n set) (Selection.spread s).terminals selectionSigns fun t =>
      t.restyle .erase = (Selection.spread s).restyle .erase := by
  refine (Accepts.expect .ellipsis).bind_cons (fun dots _ => ?_) (headAvoids_cons (avoids_word _ _))
  refine .peek (avoids_word [] _).1 fun t ht => ?_
  have hkind : t.kind = wordKind s.name.value := kind_of_terminal ht
  rw [if_neg (kind_ne_on h.1 ht), if_neg (by simp [hkind, wordKind_ne_punctuator]), if_pos (by simp [hkind])]
  refine (Accepts.name s.name.value).bind_closed (fun name hname => ?_) (headAvoids_directives (by simp) _)
  refine (directives_accepts .anywhere h.2 (by simp [selectionSigns])).bind_nil fun directives hdirs =>
    (Accepts.spanFrom _).bind_nil fun span _ => .pure ?_
  simp [Selection.restyle_spread, FragmentSpread.restyle, Name.restyle_erase hname, hdirs]

private theorem selectionSet?_accepts
    (hset : ∀ x, inner x → Accepts set x.terminals [] fun y => y.restyle .erase = x.restyle .erase)
    {o : Option SelectionSet} (h : ∀ x ∈ o, inner x) :
    Accepts (selectionSet? set) (o.toList.flatMap (·.terminals)) [.openBrace] fun p =>
      p.map (·.restyle .erase) = o.map (·.restyle .erase) := by
  cases o with
  | none => exact .nextIs_neg (by simp) (.pure rfl)
  | some x =>
    rw [Option.toList_some, List.flatMap_singleton]
    have hx := (hset x (h x rfl)).weaken (List.nil_subset [.openBrace])
    rw [x.terminals_eq] at hx ⊢
    exact .nextIs_pos (hx.map fun y hy => by simp [hy])

private theorem fieldRest_accepts
    (hset : ∀ x, inner x → Accepts set x.terminals [] fun y => y.restyle .erase = x.restyle .erase) (first : Name)
    (names : Option Name × Name) {f : Field} (h : (Selection.field f).Fits n inner)
    (hnames : names.1.map (·.restyle .erase) = f.aliasName.map (·.restyle .erase) ∧
      names.2.restyle .erase = f.name.restyle .erase) :
    Accepts (fieldRest n set first names) (argumentTerminals f.arguments ++ (directiveTerminals f.directives ++
      f.selectionSet.toList.flatMap (·.terminals))) selectionSigns
      fun g => g.restyle .erase = f.restyle .erase := by
  have hsets {S : List Punctuator} (hs : .openBrace ∉ S) :
      HeadAvoids S (f.selectionSet.toList.flatMap (·.terminals)) :=
    .flatMap fun x _ => x.headAvoids hs
  refine (arguments_accepts .anywhere h.1 (S := [.openParen]) (by simp)).bind (fun arguments hargs => ?_)
    ((headAvoids_directives (by simp) _).append (hsets (by simp))) fun _ => by simp [selectionSigns]
  refine (directives_accepts .anywhere h.2.1 (S := [.openParen, .atSign]) (by simp)).bind
    (fun directives hdirs => ?_) (hsets (by simp)) fun _ => by simp [selectionSigns]
  refine ((selectionSet?_accepts hset h.2.2).weaken (by simp [selectionSigns])).bind_nil fun o ho =>
    (Accepts.spanFrom _).bind_nil fun span _ => .pure ?_
  simp [Field.restyle, hnames, hargs, hdirs, ho]

/-- A field is read from its terminals, where nothing follows with which it could go on. -/
private theorem field_accepts
    (hset : ∀ x, inner x → Accepts set x.terminals [] fun y => y.restyle .erase = x.restyle .erase)
    {f : Field} (h : (Selection.field f).Fits n inner) :
    Accepts (field n set) f.terminals selectionSigns fun g => g.restyle .erase = f.restyle .erase := by
  have hrest {S : List Punctuator} (hs : .openParen ∉ S ∧ .atSign ∉ S ∧ .openBrace ∉ S) :
      HeadAvoids S (argumentTerminals f.arguments ++ (directiveTerminals f.directives ++
        f.selectionSet.toList.flatMap (·.terminals))) :=
    (headAvoids_arguments hs.1 _).append ((headAvoids_directives hs.2.1 _).append
      (HeadAvoids.flatMap fun x _ => SelectionSet.headAvoids hs.2.2 x))
  rw [field_eq, Field.terminals]
  simp only [List.append_assoc]
  cases ha : f.aliasName with
  | none =>
    refine (Accepts.name f.name.value).bind_closed (fun first hfirst => ?_) (hrest (by simp))
    rw [← List.nil_append (argumentTerminals f.arguments ++ _)]
    -- without an alias no colon may follow the name
    refine Accepts.bind (P := (· = (none, first))) (S := [.colon]) ?_ (fun names hnames => ?_) (hrest (by simp))
      fun _ => by simp [selectionSigns]
    · refine (Accepts.accept_nil (by simp)).bind_nil fun o ho => ?_
      subst ho
      exact .pure rfl
    · subst hnames
      exact fieldRest_accepts hset first _ h ⟨by simp [ha], Name.restyle_erase hfirst⟩
  | some a =>
    rw [aliasTerminals, Option.toList_some, List.flatMap_singleton, List.append_assoc]
    refine (Accepts.name a.value).bind_closed (fun first hfirst => ?_) (headAvoids_cons (avoids_sign (by simp)))
    rw [← List.append_assoc]
    refine Accepts.bind_closed (P := fun names => names.1 = some first ∧ names.2.value = f.name.value) ?_
      (fun names hnames => ?_) (hrest (by simp))
    · refine (Accepts.accept .colon).bind_closed (fun o ho => ?_) (headAvoids_cons (avoids_word _ _))
      obtain ⟨colon, rfl⟩ := Option.isSome_iff_exists.1 ho
      exact (Accepts.name f.name.value).bind_nil fun name hname => .pure ⟨rfl, hname⟩
    · exact fieldRest_accepts hset first names h
        ⟨by simp [ha, hnames.1, Name.restyle_erase hfirst], Name.restyle_erase hnames.2⟩

private theorem selection_accepts
    (hset : ∀ x, inner x → Accepts set x.terminals [] fun y => y.restyle .erase = x.restyle .erase)
    {s : Selection} (h : s.Fits n inner) :
    Accepts (selection n set) s.terminals selectionSigns fun t => t.restyle .erase = s.restyle .erase := by
  cases s with
  | field f =>
    have hf := (field_accepts hset h).bind_nil
      (Q := fun t => t.restyle .erase = (Selection.field f).restyle .erase)
      (f := fun g => pure (Selection.field g))
      fun g hg => .pure (by rw [Selection.restyle_field, hg, Selection.restyle_field])
    -- a field starts with a word, its alias or its name
    obtain ⟨w, ts, hw⟩ : ∃ w ts, f.terminals = word w :: ts := by
      unfold Field.terminals
      cases f.aliasName <;> exact ⟨_, _, rfl⟩
    rw [Selection.terminals_field, hw]
    rw [hw] at hf
    refine .peek (avoids_word [] _).1 fun t ht => ?_
    have hkind : t.kind = wordKind w := kind_of_terminal ht
    rw [if_neg (by rw [hkind]; exact wordKind_ne_punctuator _ _), if_pos (by simp [hkind])]
    exact hf
  | spread spread =>
    refine .peek (by simp [sign]) fun t ht => ?_
    rw [if_pos (kind_of_terminal ht)]
    exact fragmentSelection_accepts_spread h
  | inline i =>
    have hi := fragmentSelection_accepts_inline hset h
    rw [Selection.terminals_inline] at hi ⊢
    refine .peek (by simp [sign]) fun t ht => ?_
    rw [if_pos (kind_of_terminal ht)]
    exact hi

end

/-- A selection set is read from its terminals, as deep as it is nested. -/
private theorem selectionSet_accepts {n : Nat} {set : SelectionSet} (h : set.Fits n) :
    Accepts (selectionSet n) set.terminals [] fun t => t.restyle .erase = set.restyle .erase := by
  induction n generalizing set with
  | zero => exact h.elim
  | succ n ih =>
    rw [set.terminals_eq]
    refine (Accepts.delimited (S := selectionSigns) (k := (Selection.restyle .erase ·))
      (fun s hs => selection_accepts (fun x hx => ih hx) (h.2 s hs)) (fun s _ => s.terminals_ne_nil)
      (fun s _ => Selection.headAvoids (by simp [selectionSigns]) s) (by simp [selectionSigns])
      (.inl h.1)).bind_nil fun r hr => .pure ?_
    rw [SelectionSet.restyle_eq, SelectionSet.restyle_eq, hr]
    rfl

/-! ### Definitions -/

/-- The signs with which the definition of a variable could go on. -/
def variableSigns : List Punctuator := [.bang, .equals, .atSign, .openParen]

theorem default_accepts (place : ValuePlace) {o : Option Value}
    (h : ∀ v ∈ o, v.Fits place.forbids?.isNone maxDepth) : Accepts (behind? .equals (value place maxDepth))
      (o.toList.flatMap fun v => sign .equals :: v.terminals) [.equals] fun p =>
        p.map (·.restyle .erase) = o.map (·.restyle .erase) := by
  cases o with
  | none => exact (Accepts.behind?_none (by simp)).mono fun p hp => by simp [hp]
  | some v =>
    rw [Option.toList_some, List.flatMap_singleton]
    refine (Accepts.behind?_some (value_accepts place (h v rfl)) (v.headAvoids (by simp))).mono fun p hp => ?_
    obtain ⟨w, rfl, hw⟩ := hp
    simp [hw]

private theorem defaultValue?_accepts {o : Option Value} (h : ∀ v ∈ o, v.Fits false maxDepth) :
    Accepts defaultValue? (o.toList.flatMap fun v => sign .equals :: v.terminals) [.equals] fun p =>
      p.map (·.restyle .erase) = o.map (·.restyle .erase) :=
  default_accepts .variableDefault h

private theorem variableDefinition_accepts {v : VariableDefinition} (h : v.Fits) :
    Accepts variableDefinition v.terminals variableSigns fun w => w.restyle .erase = v.restyle .erase := by
  have hdefault {S : List Punctuator} (hs : .equals ∉ S) :
      HeadAvoids S (v.defaultValue.toList.flatMap fun v => sign .equals :: v.terminals) :=
    HeadAvoids.flatMap fun _ _ => headAvoids_cons (avoids_sign hs)
  rw [variableDefinition_eq, VariableDefinition.terminals, List.append_assoc]
  refine (Accepts.expect .dollar).bind_cons (fun dollar _ => ?_) (headAvoids_cons (avoids_word _ _))
  refine (Accepts.name v.name.value).bind_closed (fun name hname => ?_) (headAvoids_cons (avoids_sign (by simp)))
  refine (Accepts.expect .colon).bind_closed (fun _ _ => ?_)
    (HeadAvoids.append (v.type.headAvoids (by simp)) ((hdefault (by simp)).append
      (headAvoids_directives (by simp) _)))
  refine (typeRef_accepts h.type).bind (fun type htype => ?_)
    ((hdefault (by simp)).append (headAvoids_directives (by simp) _)) fun _ => by simp [variableSigns]
  refine (defaultValue?_accepts h.defaultValue).bind (fun default hd => ?_) (headAvoids_directives (by simp) _)
    fun _ => by simp [variableSigns]
  refine (directives_accepts .constDirective h.directives (by simp [variableSigns])).bind_nil
    fun directives hdirs => (Accepts.spanFrom _).bind_nil fun span _ => .pure ?_
  simp [VariableDefinition.restyle, Name.restyle_erase hname, htype, hd, hdirs]

/-- What follows the name of an operation is read from its terminals. -/
private theorem operationRest_accepts (start : Span) (name : Option Name) {o : Operation} (h : o.Fits)
    (hname : name.map (·.restyle .erase) = o.name.map (·.restyle .erase)) (hshorthand : o.shorthand = false) :
    Accepts (operationRest o.kind start name) (group .openParen .closeParen VariableDefinition.terminals
      o.variableDefinitions ++ (directiveTerminals o.directives ++ o.selectionSet.terminals)) [] fun p =>
        p.restyle .erase = o.restyle .erase := by
  refine Accepts.bind (S := [.openParen])
    (.delimitedIf (S := variableSigns) (k := (VariableDefinition.restyle .erase ·))
      (fun v hv => variableDefinition_accepts (h.variableDefinitions v hv))
      (fun v _ => by simp [VariableDefinition.terminals])
      (fun v _ => headAvoids_cons (avoids_sign (by simp [variableSigns]))) (by simp [variableSigns]) (by simp))
    (fun definitions hdefs => ?_)
    ((headAvoids_directives (by simp) _).append (o.selectionSet.headAvoids (by simp)))
      fun h => absurd (List.append_eq_nil_iff.1 h).2 o.selectionSet.terminals_ne_nil
  refine (directives_accepts .anywhere h.directives (List.Subset.refl _)).bind (fun directives hdirs => ?_)
    (o.selectionSet.headAvoids (by simp)) fun h => absurd h o.selectionSet.terminals_ne_nil
  refine (selectionSet_accepts h.selectionSet).bind_nil fun set hset => (Accepts.spanFrom _).bind_nil
    fun span _ => .pure ?_
  simp [Operation.restyle, hname, hdefs, hdirs, hset, hshorthand]

/-- After the name of an operation comes a sign. -/
theorem exists_sign_of_operation (o : Operation) :
    ∃ p ts, group .openParen .closeParen VariableDefinition.terminals o.variableDefinitions ++
      (directiveTerminals o.directives ++ o.selectionSet.terminals) = sign p :: ts := by
  unfold group
  split
  · cases o.directives with
    | nil => exact ⟨.openBrace, _, by rw [o.selectionSet.terminals_eq]; rfl⟩
    | cons d ds => exact ⟨.atSign, _, rfl⟩
  · exact ⟨.openParen, _, rfl⟩

private theorem keywordOperation_accepts {o : Operation} (h : o.Fits) (hshorthand : o.shorthand = false) :
    Accepts (keywordOperation o.kind) o.terminals [] fun p => p.restyle .erase = o.restyle .erase := by
  rw [keywordOperation_eq, Operation.terminals, hshorthand, if_neg Bool.false_ne_true, Operation.headTerminals]
  refine .peek (avoids_word [] _).1 fun start _ => .advance ?_
  obtain ⟨p, ts, hts⟩ := exists_sign_of_operation o
  simp only [List.append_eq, List.append_assoc]
  cases hname : o.name with
  | none =>
    have hrest := operationRest_accepts start.span none h (by simp [hname]) hshorthand
    -- the sign that comes next is not taken for a name
    rw [Option.toList_none, List.flatMap_nil, List.nil_append, operationName?, bind_assoc, hts]
    rw [hts] at hrest
    refine .peek (by simp [sign]) fun t ht => ?_
    rw [if_neg (by simp [show t.kind = .punctuator p from kind_of_terminal ht, Token.Kind.asName?]), pure_bind]
    exact hrest
  | some n =>
    rw [Option.toList_some, List.flatMap_singleton]
    refine Accepts.bind_closed (P := fun m => m.map (·.restyle .erase) = some (n.restyle .erase)) ?_
      (fun m hm => operationRest_accepts start.span m h (by simpa [hname] using hm) hshorthand) ?_
    · refine .peek (avoids_word [] _).1 fun t ht => ?_
      rw [if_pos (by simp [show t.kind = wordKind n.value from kind_of_terminal ht])]
      exact (Accepts.name n.value).map fun m hm => by simp [Name.restyle_erase hm]
    · rw [hts]
      exact headAvoids_cons (avoids_sign (by simp))

/-- A bare query is read from its selection set alone. -/
private theorem shorthandQuery_accepts {o : Operation} (h : o.Fits) (hshorthand : o.shorthand = true) :
    Accepts shorthandQuery o.terminals [] fun p => p.restyle .erase = o.restyle .erase := by
  obtain ⟨hkind, hname, hdefs, hdirs⟩ := h.shorthand hshorthand
  rw [Operation.terminals, if_pos hshorthand]
  refine (selectionSet_accepts h.selectionSet).bind_nil fun set hset => .pure ?_
  simp [Operation.restyle, hkind, hname, hdefs, hdirs, hset, hshorthand]

private theorem fragmentDefinition_accepts {f : Fragment} (h : f.Fits) :
    Accepts fragmentDefinition f.terminals [] fun g => g.restyle .erase = f.restyle .erase := by
  rw [Fragment.terminals]
  simp only [List.append_assoc]
  refine (Accepts.keyword rfl).bind_cons (fun start _ => ?_) (headAvoids_cons (avoids_word _ _))
  refine .peek (avoids_word [] _).1 fun t ht => ?_
  rw [if_neg (kind_ne_on h.name ht)]
  refine (Accepts.name f.name.value).bind_cons (fun name hname => ?_) (headAvoids_cons (avoids_word _ _))
  refine (typeCondition_accepts f.condition).bind_closed (fun condition hcond => ?_)
    ((headAvoids_directives (by simp) _).append (f.selectionSet.headAvoids (by simp)))
  refine (directives_accepts .anywhere h.directives (List.Subset.refl _)).bind (fun directives hdirs => ?_)
    (f.selectionSet.headAvoids (by simp)) fun h => absurd h f.selectionSet.terminals_ne_nil
  refine (selectionSet_accepts h.selectionSet).bind_nil fun set hset => (Accepts.spanFrom _).bind_nil
    fun span _ => .pure ?_
  simp [Fragment.restyle, Name.restyle_erase hname, hcond, hdirs, hset]

/-- A definition is read from its terminals; its first word tells which one it is. -/
private theorem definition_accepts {definition : Definition} (h : definition.Fits) :
    Accepts Parse.definition definition.terminals [] fun e => e.restyle .erase = definition.restyle .erase := by
  cases definition with
  | operation o =>
    cases hshorthand : o.shorthand with
    | true =>
      have ho := (shorthandQuery_accepts h hshorthand).bind_nil (f := fun p => pure (Definition.operation p))
        (Q := fun e => e.restyle .erase = (Definition.operation o).restyle .erase) fun p hp =>
          .pure (by simp [Definition.restyle, hp])
      rw [Operation.terminals, if_pos hshorthand, o.selectionSet.terminals_eq] at ho
      rw [Definition.terminals, Operation.terminals, if_pos hshorthand, o.selectionSet.terminals_eq]
      refine .peek (by simp [sign]) fun t ht => ?_
      simp only [kind_of_terminal ht]
      exact ho
    | false =>
      have ho := (keywordOperation_accepts h hshorthand).bind_nil (f := fun p => pure (Definition.operation p))
        (Q := fun e => e.restyle .erase = (Definition.operation o).restyle .erase) fun p hp =>
          .pure (by simp [Definition.restyle, hp])
      rw [Operation.terminals, hshorthand, if_neg Bool.false_ne_true, Operation.headTerminals] at ho
      rw [Definition.terminals, Operation.terminals, hshorthand, if_neg Bool.false_ne_true,
        Operation.headTerminals]
      refine .peek (avoids_word [] _).1 fun t ht => ?_
      have hkind : t.kind = .name o.kind.keyword := by
        rw [show t.kind = wordKind o.kind.keyword from kind_of_terminal ht]
        cases o.kind <;> rfl
      have hkeyword : OperationKind.ofKeyword? o.kind.keyword = some o.kind := by cases o.kind <;> rfl
      simp only [hkind, hkeyword]
      exact ho
  | fragment f =>
    have hf := (fragmentDefinition_accepts h).bind_nil (f := fun g => pure (Definition.fragment g))
      (Q := fun e => e.restyle .erase = (Definition.fragment f).restyle .erase) fun g hg =>
        .pure (by simp [Definition.restyle, hg])
    refine .peek (avoids_word [] _).1 fun t ht => ?_
    simp only [show t.kind = .name "fragment" from kind_of_terminal ht,
      show OperationKind.ofKeyword? "fragment" = none from rfl]
    exact hf

/-- From the terminals of a document and the end of the input, the grammar gives the document back. -/
theorem document_accepts {d : Document} (h : d.Fits) {ts : List Token} (hts : ts.map Token.terminal = d.terminals)
    {e : Token} (he : e.kind = .endOfInput) :
    ∃ d', document.run (ts ++ [e]) = .ok d' ∧ d'.restyle .erase = d.restyle .erase := by
  have hfollows (x : Definition) (us rest : List Token) (hus : us.map Token.terminal = x.terminals) :
      Follows [] (us ++ rest) := by
    cases us with
    | nil => exact absurd hus.symm x.terminals_ne_nil
    | cons u us =>
      have hu := x.headAvoids u.terminal (by rw [← hus]; rfl)
      refine fun t ht => ⟨fun cause hcause => hu.1 cause ?_, by simp⟩
      obtain rfl : u = t := by simpa using ht
      rw [Token.terminal, hcause]
      rfl
  obtain ⟨es, span, i, hrun, hes⟩ := definitions_accepts (F := Follows []) (p := Parse.definition)
    (k := (Definition.restyle .erase ·)) .executable (d.definitions.map fun x => (x, x.terminals))
    (by simpa using h.nonempty)
    (by simpa using fun x hx => AcceptsIf.of_accepts (definition_accepts (h.definitions x hx)) fun _ => id)
    (by simpa using fun x _ => x.terminals_ne_nil) (by simpa using fun x _ => x.headAvoids)
    (by simpa using fun x _ us rest => hfollows x us rest) he (by simp [Follows, he])
    (by simpa [List.flatMap_map, Document.terminals] using hts)
  have hdefinitions : es.map (·.restyle .erase) = d.definitions.map (·.restyle .erase) := by
    simpa [Function.comp_def] using hes
  refine ⟨⟨es, span⟩, ?_, by simp [Document.restyle, hdefinitions]⟩
  rw [Parse.run, document, run_bind_of_ok hrun]
  rfl

end Parse

end GraphQL
