import GraphQL.Proofs.GrammarSound
import GraphQL.Proofs.SchemaSteps
import GraphQL.Proofs.SchemaTerminals

/-!
# What the schema grammar accepts

A definition that is parsed from tokens is written with just their terminals, with or without a separator in front
of its list, and it meets what the grammar asks for beyond that (`typeSystemDefinition_consumes`). So does a whole
document (`schemaDocument_consumes`).
-/

namespace GraphQL

open Terminal

theorem terminal_of_keyword {t : Token} {w : String} (h : t.kind = .name w) (hw : wordKind w = .name w) :
    t.terminal = word w := by
  rw [Token.terminal, h, word, hw]
  rfl

namespace Parse

variable {α β : Type}

section
variable {item : Parse α} {g : α → List Terminal} {F : α → Prop}

/-- Items with separators between them are written with these, and there is one at least. -/
private theorem separated_consumes (h : Consumes item (Writes g F)) (separator : Punctuator) :
    Consumes (separated separator item) fun ts as =>
      as ≠ [] ∧ Writes (separatedTerminals separator g) (∀ a ∈ ·, F a) ts as := by
  have hstep : Consumes (behind? separator item)
      (Consumes.StepOf (Writes (fun a => sign separator :: g a) F) (· = [])) := by
    refine (h.behind? separator).mono fun ts o ho => ?_
    cases o with
    | none => exact ho
    | some a =>
      obtain ⟨t, us, rfl, ht, ha⟩ := ho
      exact ⟨by simp, by simp [terminal_of_sign ht, ha.terminals], ha.fits⟩
  refine h.bind fun a ts ha => (Consumes.repeated hstep).bind fun as us has => .pure ⟨by simp, ?_, ?_⟩
  · have hw := has.writes (e := []) (by simp)
    simpa [separatedTerminals, ha.terminals] using hw.terminals
  · have hw := has.writes (e := []) (by simp)
    simpa using ⟨ha.fits, hw.fits⟩

/-- A separator in front of the first item is consumed if it is there. -/
private theorem listed_consumes (h : Consumes item (Writes g F)) (separator : Punctuator) :
    Consumes (listed separator item) fun ts as =>
      as ≠ [] ∧ ∃ leading, Writes (listedTerminals leading separator g) (∀ a ∈ ·, F a) ts as := by
  refine (Consumes.accept separator).bind fun o ts ho => (separated_consumes h separator).mono fun us as has => ?_
  obtain ⟨hne, has⟩ := has
  cases o with
  | none =>
    obtain rfl : ts = [] := ho
    exact ⟨hne, false, by simpa [listedTerminals] using has.terminals, has.fits⟩
  | some t =>
    obtain ⟨rfl, ht⟩ := ho
    exact ⟨hne, true, by simpa [listedTerminals, terminal_of_sign ht] using has.terminals, has.fits⟩

end

private theorem nameWrites_consumes : Consumes name (Writes Name.terminals fun _ => True) :=
  name_consumes.mono fun ts n ⟨t, hts, ht, _⟩ => ⟨by simp [hts, ht, Name.terminals], trivial⟩

/-- What a look for a keyword finds decides what is done next. -/
theorem nextIsKeyword_bind {w : String} {f : Bool → Parse β} {Q : List Token → β → Prop}
    (htrue : ∀ t : Token, t.kind = .name w → ConsumesAt t (f true) Q) (hfalse : Consumes (f false) Q) :
    Consumes (nextIsKeyword w >>= f) Q := by
  rw [nextIsKeyword, bind_assoc]
  refine .peek fun t => ?_
  rw [pure_bind]
  by_cases ht : t.kind = .name w
  · rw [decide_eq_true ht]
    exact htrue t ht
  · rw [decide_eq_false ht]
    exact .of hfalse

private theorem description_consumes : Consumes description (Writes descriptionTerminals fun _ => True) := by
  have hstring : Consumes (some <$> stringLiteral) (Writes descriptionTerminals fun _ => True) :=
    stringLiteral_consumes.map fun ts l hl => ⟨by simpa [descriptionTerminals] using hl.terminals, trivial⟩
  refine .peek fun t => ?_
  split
  · exact .of hstring
  · exact .of hstring
  · exact .of (.pure ⟨rfl, trivial⟩)

private theorem constDirectives_consumes : Consumes constDirectives
    (Writes directiveTerminals (∀ d ∈ ·, Directive.Fits false maxDepth d)) :=
  directives_consumes .constDirective maxDepth

private theorem inputValueDefinition_consumes :
    Consumes inputValueDefinition (Writes InputValueDefinition.terminals InputValueDefinition.Fits) := by
  rw [inputValueDefinition_eq]
  refine description_consumes.bind fun description ts hd => nameWrites_consumes.bind fun name us hname =>
    (Consumes.expect .colon).bind fun colon vs hcolon => (typeRef_consumes maxDepth).bind fun type ws htype =>
      (default_consumes .inputDefault).bind fun default xs hdefault => constDirectives_consumes.bind
        fun directives ys hdirs => (Consumes.spanFrom _).bind fun span zs hspan => .pure
          ⟨?_, htype.fits, hdefault.fits, hdirs.fits⟩
  obtain ⟨rfl, hcolon⟩ := hcolon
  simp [InputValueDefinition.terminals, hd.terminals, hname.terminals, Name.terminals, terminal_of_sign hcolon,
    htype.terminals, hdefault.terminals, defaultTerminals, hdirs.terminals, hspan.1]

private theorem InputValueDefinition.terminals_ne_nil (v : InputValueDefinition) : v.terminals ≠ [] := by
  simp [InputValueDefinition.terminals]

private theorem argumentDefinitions_consumes :
    Consumes argumentDefinitions (Writes argumentDefinitionTerminals (∀ a ∈ ·, a.Fits)) :=
  delimitedIf_consumes inputValueDefinition_consumes InputValueDefinition.terminals_ne_nil

private theorem fieldDefinition_consumes :
    Consumes fieldDefinition (Writes FieldDefinition.terminals FieldDefinition.Fits) := by
  refine description_consumes.bind fun description ts hd => nameWrites_consumes.bind fun name us hname =>
    argumentDefinitions_consumes.bind fun arguments vs hargs => (Consumes.expect .colon).bind
      fun colon ws hcolon => (typeRef_consumes maxDepth).bind fun type xs htype => constDirectives_consumes.bind
        fun directives ys hdirs => (Consumes.spanFrom _).bind fun span zs hspan => .pure
          ⟨?_, hargs.fits, htype.fits, hdirs.fits⟩
  obtain ⟨rfl, hcolon⟩ := hcolon
  simp [FieldDefinition.terminals, hd.terminals, hname.terminals, Name.terminals, hargs.terminals,
    terminal_of_sign hcolon, htype.terminals, hdirs.terminals, hspan.1]

private theorem fieldDefinitions_consumes : Consumes fieldDefinitions
    (Writes (group .openBrace .closeBrace FieldDefinition.terminals) (∀ f ∈ ·, f.Fits)) :=
  delimitedIf_consumes fieldDefinition_consumes fun f => by simp [FieldDefinition.terminals]

/-- Any word but the three reserved ones is a name. -/
private theorem wordKind_eq_name {w : String}
    (h : ¬ (wordKind w = .trueWord ∨ wordKind w = .falseWord ∨ wordKind w = .nullWord)) :
    wordKind w = .name w := by
  unfold wordKind at h ⊢
  split
  · simp_all
  · split
    · simp_all
    · split
      · simp_all
      · rfl

/-- The name of an enum value is none of the reserved words. -/
theorem enumValueName_consumes :
    Consumes enumValueName (Writes Name.terminals fun n => wordKind n.value = .name n.value) := by
  refine .peek fun t => ?_
  split
  · exact .of (.fail _ _)
  · rename_i hreserved
    intro i n i' hi hshows h
    obtain ⟨ts, hts, rfl, hgenuine, hword, -⟩ := ConsumesAt.name t i n i' hi hshows h
    have hkind := hgenuine.eq_wordKind hword
    refine ⟨[t], hts, by simp [Name.terminals, Token.terminal, hkind, terminal_wordKind], ?_⟩
    rw [hkind] at hreserved
    exact wordKind_eq_name hreserved

/-- An enum value that is defined is none of the reserved words. -/
private theorem enumValueDefinition_consumes :
    Consumes enumValueDefinition (Writes EnumValueDefinition.terminals EnumValueDefinition.Fits) := by
  rw [enumValueDefinition_eq]
  refine description_consumes.bind fun description ts hd => enumValueName_consumes.bind fun name us hname =>
    constDirectives_consumes.bind fun directives vs hdirs => (Consumes.spanFrom _).bind fun span ws hspan => .pure
      ⟨?_, hname.fits, hdirs.fits⟩
  simp [EnumValueDefinition.terminals, hd.terminals, hname.terminals, Name.terminals, hdirs.terminals, hspan.1]

private theorem interfaces_consumes : Consumes interfaces fun ts is =>
    ∃ leading, ts.map Token.terminal = interfaceTerminals leading is := by
  rw [interfaces_eq]
  refine nextIsKeyword_bind (fun t ht => ?_) (.pure ⟨false, rfl⟩)
  refine .advance (by simp [ht]) fun _ => (listed_consumes nameWrites_consumes .ampersand).mono fun ts is his => ?_
  obtain ⟨hne, leading, hw⟩ := his
  exact ⟨leading, by simp [interfaceTerminals, hne, terminal_of_keyword ht rfl, hw.terminals]⟩

/-- The members of a union are written by their tokens, with a leading separator or without. -/
private theorem unionMembers_consumes : Consumes unionMembers fun ts ms =>
    ∃ leading, ts.map Token.terminal = memberTerminals leading ms := by
  rw [unionMembers_eq]
  refine (Consumes.accept .equals).bind fun o ts ho => ?_
  cases o with
  | none => exact .pure ⟨false, by simp [ho, memberTerminals]⟩
  | some t =>
    obtain ⟨rfl, ht⟩ := ho
    refine (listed_consumes nameWrites_consumes .pipe).mono fun us ms hms => ?_
    obtain ⟨hne, leading, hw⟩ := hms
    exact ⟨leading, by simp [memberTerminals, hne, terminal_of_sign ht, hw.terminals]⟩

/-- An extension is not accepted if it adds nothing. -/
private theorem requireAddition_consumes (isExtension nothing : Bool) (t : Token) (additions : String) :
    Consumes (requireAddition isExtension t nothing additions) fun ts _ =>
      ts = [] ∧ (isExtension = true → nothing = false) := by
  unfold requireAddition
  split
  · exact .fail _ _
  · rename_i hadds
    exact .pure ⟨rfl, by simpa using hadds⟩

/-! ### Type definitions -/

/-- What a definition or extension of a type has behind its name. -/
structure Body (isExtension : Bool) (kind : TypeKind) (ts : List Token) (r : List Directive × TypeBody) : Prop where
  kind : r.2.kind = kind
  terminals : ∃ leading, ts.map Token.terminal = r.2.terminals leading r.1
  directives : ∀ d ∈ r.1, d.Fits false maxDepth
  body : r.2.Fits
  addition : isExtension = true → r.1 = [] → ¬ r.2.IsEmpty

section
variable {kind : TypeKind} (isExtension : Bool) (t : Token)

private theorem fieldsBody_consumes (make : List Name → List FieldDefinition → TypeBody)
    (hkind : ∀ is fs, (make is fs).kind = kind)
    (hterminals : ∀ leading ds is fs, (make is fs).terminals leading ds = interfaceTerminals leading is ++
      (directiveTerminals ds ++ group .openBrace .closeBrace FieldDefinition.terminals fs))
    (hfits : ∀ is fs, (∀ f ∈ fs, f.Fits) → (make is fs).Fits)
    (hempty : ∀ is fs, (make is fs).IsEmpty → is = [] ∧ fs = []) :
    Consumes (fieldsBody make isExtension t) (Body isExtension kind) := by
  refine interfaces_consumes.bind fun is ts his => constDirectives_consumes.bind fun ds us hds =>
    fieldDefinitions_consumes.bind fun fs vs hfs => (requireAddition_consumes _ _ _ _).bind
      fun _ ws hadds => .pure ⟨hkind is fs, ?_, hds.fits, hfits is fs hfs.fits, ?_⟩
  · obtain ⟨leading, his⟩ := his
    exact ⟨leading, by simp [hterminals, his, hds.terminals, hfs.terminals, hadds.1]⟩
  · intro hext hnone hnothing
    obtain ⟨rfl, rfl⟩ := hempty is fs hnothing
    simpa [show ds = [] from hnone] using hadds.2 hext

private theorem partsBody_consumes (make : List α → TypeBody) {parts : Parse (List α)}
    {g : Bool → List α → List Terminal}
    {F : α → Prop}
    (h : Consumes parts fun ts as => (∃ leading, ts.map Token.terminal = g leading as) ∧ ∀ a ∈ as, F a)
    (hkind : ∀ as, (make as).kind = kind)
    (hterminals : ∀ leading ds as, (make as).terminals leading ds = directiveTerminals ds ++ g leading as)
    (hfits : ∀ as, (∀ a ∈ as, F a) → (make as).Fits) (hempty : ∀ as, (make as).IsEmpty → as = [])
    (additions : String) : Consumes (partsBody make parts additions isExtension t) (Body isExtension kind) := by
  refine constDirectives_consumes.bind fun ds ts hds => h.bind fun as us has =>
    (requireAddition_consumes _ _ _ _).bind fun _ vs hadds => .pure
      ⟨hkind as, ?_, hds.fits, hfits as has.2, ?_⟩
  · obtain ⟨leading, has⟩ := has.1
    exact ⟨leading, by simp [hterminals, has, hds.terminals, hadds.1]⟩
  · intro hext hnone hnothing
    obtain rfl := hempty as hnothing
    simpa [show ds = [] from hnone] using hadds.2 hext

/-- The body of a type of any kind is written by its tokens. -/
private theorem typeBody_consumes (kind : TypeKind) :
    Consumes (typeBody kind isExtension t) (Body isExtension kind) := by
  rw [typeBody_eq]
  cases kind with
  | scalar =>
    refine constDirectives_consumes.bind fun ds ts hds => (requireAddition_consumes _ _ _ _).bind
      fun _ us hadds => .pure ⟨rfl, ⟨false, ?_⟩, hds.fits, trivial, ?_⟩
    · simp [TypeBody.terminals, hds.terminals, hadds.1]
    · intro hext hnone
      simpa [show ds = [] from hnone] using hadds.2 hext
  | object =>
    exact fieldsBody_consumes isExtension t .object (fun _ _ => rfl) (fun _ _ _ _ => rfl) (fun _ _ h => h)
      fun _ _ h => h
  | interface =>
    exact fieldsBody_consumes isExtension t .interface (fun _ _ => rfl) (fun _ _ _ _ => rfl) (fun _ _ h => h)
      fun _ _ h => h
  | union =>
    exact partsBody_consumes isExtension t .union (F := fun _ => True)
      (unionMembers_consumes.mono fun _ _ hms => ⟨hms, fun _ _ => trivial⟩) (fun _ => rfl) (fun _ _ _ => rfl)
        (fun _ _ => trivial) (fun _ h => h) _
  | enum =>
    refine partsBody_consumes isExtension t .enum
      (g := fun _ => group .openBrace .closeBrace EnumValueDefinition.terminals)
      ((delimitedIf_consumes enumValueDefinition_consumes ?_).mono fun _ _ hvs => ⟨⟨false, hvs.terminals⟩, hvs.fits⟩)
        (fun _ => rfl) (fun _ _ _ => rfl) (fun _ h => h) (fun _ h => h) _
    exact fun v => by simp [EnumValueDefinition.terminals]
  | inputObject =>
    refine partsBody_consumes isExtension t .inputObject
      (g := fun _ => group .openBrace .closeBrace InputValueDefinition.terminals)
      ((delimitedIf_consumes inputValueDefinition_consumes ?_).mono fun _ _ hfs => ⟨⟨false, hfs.terminals⟩, hfs.fits⟩)
        (fun _ => rfl) (fun _ _ _ => rfl) (fun _ h => h) (fun _ h => h) _
    exact InputValueDefinition.terminals_ne_nil

end

/-- What a definition or extension of a type is, from its keyword on. -/
structure TypeWritten (isExtension : Bool) (description : Option StringLiteral) (ts : List Token)
    (t : TypeDefinition) : Prop where
  terminals : ∃ leading, ts.map Token.terminal = t.terminals leading
  description : t.description = description
  fits : t.Fits
  addition : isExtension = true → t.directives = [] → ¬ t.body.IsEmpty

/-- The definition of a type is written from its keyword on. -/
private theorem typeDefinition_consumesAt {kind : TypeKind} {t : Token} (ht : t.kind = .name kind.keyword)
    (isExtension : Bool) (description : Option StringLiteral) (start : Span) :
    ConsumesAt t (typeDefinition kind isExtension description start) (TypeWritten isExtension description) := by
  have hkeyword : t.terminal = word kind.keyword := terminal_of_keyword ht (by cases kind <;> rfl)
  refine .peek (.advance (by simp [ht]) fun _ => nameWrites_consumes.bind fun name us hname =>
    (typeBody_consumes isExtension t kind).bind fun r vs hr => (Consumes.spanFrom _).bind fun span ws hspan =>
      .pure ⟨?_, rfl, ⟨hr.directives, hr.body⟩, hr.addition⟩)
  obtain ⟨leading, hterminals⟩ := hr.terminals
  refine ⟨leading, ?_⟩
  simp [TypeDefinition.terminals, TypeBody.keyword, hr.kind, hkeyword, hname.terminals, Name.terminals, hterminals,
    hspan.1]

private theorem rootOperation_consumes : Consumes rootOperation (Writes RootOperation.terminals fun _ => True) := by
  refine .peek fun t => ?_
  split
  · rename_i kind hkind
    obtain ⟨w, hw, hkeyword⟩ := Option.bind_eq_some_iff.1 hkind
    have hne : t.kind ≠ .endOfInput := by
      intro hend
      rw [hend] at hw
      cases hw
    refine .advance hne fun hgenuine => (Consumes.expect .colon).bind fun colon ts hcolon =>
      nameWrites_consumes.bind fun name us hname => (Consumes.spanFrom _).bind fun span vs hspan => .pure
        ⟨?_, trivial⟩
    obtain ⟨rfl, hcolon⟩ := hcolon
    have hterminal : t.terminal = word kind.keyword := by
      rw [Token.terminal, hgenuine.eq_wordKind hw, terminal_wordKind, keyword_of_ofKeyword? hkeyword]
    simp [RootOperation.terminals, hterminal, terminal_of_sign hcolon, hname.terminals, hspan.1]
  · exact .of (.unexpected _ _)

private theorem rootOperations_consumes (isExtension : Bool) : Consumes (rootOperations isExtension) fun ts os =>
    ts.map Token.terminal = group .openBrace .closeBrace RootOperation.terminals os ∧
      (isExtension = false → os ≠ []) := by
  have hne (o : RootOperation) : o.terminals ≠ [] := by simp [RootOperation.terminals]
  cases isExtension with
  | true =>
    exact (delimitedIf_consumes rootOperation_consumes hne).mono fun ts os hos => ⟨hos.terminals, by simp⟩
  | false =>
    refine (Consumes.delimited (rootOperation_consumes.mono fun ts o ho => ⟨ho.ne_nil (hne o), ho⟩)).map
      fun ts r hr => ?_
    have hnonempty := hr.nonempty rfl
    exact ⟨by simp [hr.writes.terminals, group, hnonempty], fun _ => hnonempty⟩

private theorem schemaDefinition_consumes (isExtension : Bool) (description : Option StringLiteral) (start : Span) :
    Consumes (schemaDefinition isExtension description start) fun ts s =>
      ts.map Token.terminal = s.terminals ∧ s.description = description ∧
        (if isExtension then description = none → s.Extends else s.Fits) := by
  rw [schemaDefinition_eq]
  refine (Consumes.keyword "schema").bind fun t ts ht => constDirectives_consumes.bind fun ds us hds =>
    (rootOperations_consumes isExtension).bind fun os vs hos => (requireAddition_consumes _ _ _ _).bind
      fun _ ws hadds => (Consumes.spanFrom _).bind fun span xs hspan => .pure ⟨?_, rfl, ?_⟩
  · obtain ⟨rfl, ht⟩ := ht
    simp [SchemaDefinition.terminals, terminal_of_keyword ht rfl, hds.terminals, hos.1, hadds.1, hspan.1]
  · cases isExtension with
    | true =>
      refine fun hdescription => ⟨hds.fits, hdescription, fun hempty hnone => ?_⟩
      simpa [show ds = [] from hempty, show os = [] from hnone] using hadds.2 rfl
    | false => exact ⟨hds.fits, hos.2 rfl⟩

theorem DirectiveLocation.text_of_ofText? {w : String} {place : DirectiveLocation}
    (h : DirectiveLocation.ofText? w = some place) : place.text = w := by
  simpa using List.find?_some h

private theorem directiveLocation_consumes :
    Consumes directiveLocation (Writes LocatedPlace.terminals fun _ => True) := by
  refine .peek fun t => ?_
  split
  · exact .of (.unexpected _ _)
  · rename_i w hw
    split
    · exact .of (.fail _ _)
    · rename_i place hplace
      have hne : t.kind ≠ .endOfInput := by
        intro hend
        rw [hend] at hw
        cases hw
      refine .advance hne fun hgenuine => .pure ⟨?_, trivial⟩
      simp [LocatedPlace.terminals, Token.terminal, hgenuine.eq_wordKind hw, terminal_wordKind,
        DirectiveLocation.text_of_ofText? hplace]

private theorem repeatable_consumes : Consumes repeatable fun ts b =>
    ts.map Token.terminal = repeatableTerminals b := by
  refine nextIsKeyword_bind (fun t ht => ?_) (.pure rfl)
  refine .advance (by simp [ht]) fun _ => .pure ?_
  simp [repeatableTerminals, terminal_of_keyword ht rfl]

/-- The definition of a directive is written by its tokens, and names one place at least. -/
private theorem directiveDefinition_consumes (description : Option StringLiteral) (start : Span) :
    Consumes (directiveDefinition description start) fun ts d =>
      (∃ leading, ts.map Token.terminal = d.terminals leading) ∧ d.description = description ∧ d.Fits := by
  rw [directiveDefinition_eq]
  refine (Consumes.keyword "directive").bind fun t ts ht => (Consumes.expect .atSign).bind fun at' us hat =>
    nameWrites_consumes.bind fun name vs hname => argumentDefinitions_consumes.bind fun arguments ws hargs =>
      repeatable_consumes.bind fun b xs hb => (Consumes.keyword "on").bind fun on ys hon =>
        (listed_consumes directiveLocation_consumes .pipe).bind fun places zs hplaces =>
          (Consumes.spanFrom _).bind fun span rest hspan => .pure ⟨?_, rfl, hargs.fits, hplaces.1⟩
  obtain ⟨rfl, ht⟩ := ht
  obtain ⟨rfl, hat⟩ := hat
  obtain ⟨rfl, hon⟩ := hon
  obtain ⟨-, leading, hw⟩ := hplaces
  refine ⟨leading, ?_⟩
  simp [DirectiveDefinition.terminals, terminal_of_keyword ht rfl, terminal_of_sign hat, hname.terminals,
    Name.terminals, hargs.terminals, hb, terminal_of_keyword hon rfl, hw.terminals, hspan.1]

/-- The tokens write the definition, which meets what is asked of it. -/
def DefinitionWritten (ts : List Token) (d : TypeSystemDefinition) : Prop :=
  (∃ leading, ts.map Token.terminal = d.terminals leading) ∧ d.Fits

theorem TypeKind.keyword_of_ofKeyword? {w : String} {kind : TypeKind} (h : TypeKind.ofKeyword? w = some kind) :
    kind.keyword = w := by
  simpa using List.find?_some h

/-- An extension is written by its tokens. -/
private theorem extension_consumes : Consumes extension DefinitionWritten := by
  refine (Consumes.keyword "extend").bind fun extend ts hextend => .peek fun t => ?_
  obtain ⟨rfl, hextend⟩ := hextend
  have hword : extend.terminal = word "extend" := terminal_of_keyword hextend rfl
  split
  · refine .of ((schemaDefinition_consumes true none _).bind fun s us hs => .pure ⟨⟨false, ?_⟩, hs.2.2 rfl⟩)
    simp [TypeSystemDefinition.terminals, hword, hs.1]
  · rename_i w hkind
    split
    · rename_i kind hkeyword
      have ht : t.kind = .name kind.keyword := by rw [hkind, TypeKind.keyword_of_ofKeyword? hkeyword]
      refine .bind (typeDefinition_consumesAt ht true none _) fun d us hd => .pure ⟨?_, ?_⟩
      · obtain ⟨leading, hterminals⟩ := hd.terminals
        exact ⟨leading, by simp [TypeSystemDefinition.terminals, hword, hterminals]⟩
      · exact ⟨hd.fits, hd.description, hd.addition rfl⟩
    · exact .of (.unexpected _ _)
  · exact .of (.unexpected _ _)

theorem typeSystemDefinition_consumes : Consumes typeSystemDefinition DefinitionWritten := by
  refine description_consumes.bind fun description ts hd => .peek fun t => ?_
  split
  · exact .of (.fail _ _)
  · refine .of ((schemaDefinition_consumes false description _).bind fun s us hs => .pure ⟨⟨false, ?_⟩, hs.2.2⟩)
    simp [TypeSystemDefinition.terminals, hs.1, hs.2.1, hd.terminals]
  · refine .of ((directiveDefinition_consumes description _).bind fun d us hs => .pure ⟨?_, hs.2.2⟩)
    obtain ⟨leading, hterminals⟩ := hs.1
    exact ⟨leading, by simp [TypeSystemDefinition.terminals, hterminals, hs.2.1, hd.terminals]⟩
  · split
    · exact .of (.fail _ _)
    · have hnone : ts = [] := by simpa [descriptionTerminals] using hd.terminals
      subst hnone
      exact .of extension_consumes
  · rename_i w _ _ hkind
    split
    · rename_i kind hkeyword
      have ht : t.kind = .name kind.keyword := by rw [hkind, TypeKind.keyword_of_ofKeyword? hkeyword]
      refine .bind (typeDefinition_consumesAt ht false description _) fun d us hs => .pure ⟨?_, hs.fits⟩
      obtain ⟨leading, hterminals⟩ := hs.terminals
      exact ⟨leading, by simp [TypeSystemDefinition.terminals, hterminals, hs.description, hd.terminals]⟩
    · split
      · exact .of (.fail _ _)
      · exact .of (.unexpected _ _)
  · exact .of (.unexpected _ _)

/-- Definitions in sequence are spelled one after the other. -/
private theorem Sequence.spelled {ts : List Token} {ds : List TypeSystemDefinition}
    (h : Sequence DefinitionWritten (· = []) ts ds) :
    Spelled ds (ts.map Token.terminal) ∧ ∀ d ∈ ds, d.Fits := by
  induction h with
  | nil h =>
    subst h
    exact ⟨.nil, by simp⟩
  | cons h _ ih =>
    obtain ⟨⟨leading, hterminals⟩, hfits⟩ := h
    rw [List.map_append, hterminals]
    exact ⟨.cons leading ih.1, List.forall_mem_cons.2 ⟨hfits, ih.2⟩⟩

theorem DefinitionWritten.ne_nil {ts : List Token} {d : TypeSystemDefinition} (h : DefinitionWritten ts d) :
    ts ≠ [] := by
  rintro rfl
  obtain ⟨leading, hterminals⟩ := h.1
  exact d.terminals_ne_nil leading hterminals.symm

/-- A schema document is spelled by all tokens up to the end. -/
theorem schemaDocument_consumes : Consumes schemaDocument fun ts d =>
    Spelled d.definitions (ts.map Token.terminal) ∧ d.Fits := by
  refine (definitions_consumes (typeSystemDefinition_consumes.mono fun ts d hd => ⟨hd.ne_nil, hd⟩)).bind
    fun r ts hr => .pure ?_
  obtain ⟨hspelled, hfits⟩ := hr.2.spelled
  exact ⟨by simpa using hspelled, hr.1, hfits⟩

end Parse

end GraphQL
