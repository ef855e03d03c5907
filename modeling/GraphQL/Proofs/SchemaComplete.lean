import GraphQL.Proofs.GrammarComplete
import GraphQL.Proofs.SchemaSteps
import GraphQL.Proofs.SchemaTerminals

/-!
# What the schema grammar gives back

From the terminals that a schema document is written with, with any choice of leading separators, the grammar gives
the document back up to its spans, where it meets what the grammar asks for (`schemaDocument_accepts`). A
definition may end with its name or with a list, so that it depends on what follows where it ends (`Ends`): none of
the signs that could go on with it, and not the word that begins a list of interfaces.
-/

namespace GraphQL

open Terminal

private theorem headAvoids_described {S : List Punctuator} (description : Option StringLiteral) (w : String)
    (ts : List Terminal) : HeadAvoids S (descriptionTerminals description ++ word w :: ts) := by
  cases description with
  | none => exact headAvoids_cons (avoids_word _ _)
  | some l => exact headAvoids_cons ⟨by simp, by simp, by simp [sign]⟩

private theorem headAvoids_default {S : List Punctuator} (h : .equals ∉ S) (v : Option Value) :
    HeadAvoids S (defaultTerminals v) :=
  .flatMap fun _ _ => headAvoids_cons (avoids_sign h)

private theorem headAvoids_interfaces {S : List Punctuator} (leading : Bool) (is : List Name) :
    HeadAvoids S (interfaceTerminals leading is) := by
  unfold interfaceTerminals
  split
  · exact headAvoids_nil _
  · exact headAvoids_cons (avoids_word _ _)

private theorem headAvoids_members {S : List Punctuator} (h : .equals ∉ S) (leading : Bool) (members : List Name) :
    HeadAvoids S (memberTerminals leading members) := by
  unfold memberTerminals
  split
  · exact headAvoids_nil _
  · exact headAvoids_cons (avoids_sign h)

private theorem TypeBody.headAvoids (leading : Bool) (ds : List Directive) (body : TypeBody) :
    HeadAvoids [] (body.terminals leading ds) := by
  have hdirectives : HeadAvoids [] (directiveTerminals ds) := headAvoids_directives (by simp) _
  cases body with
  | scalar => exact hdirectives
  | object is fields | interface is fields =>
    exact (headAvoids_interfaces leading is).append (hdirectives.append (headAvoids_group (by simp) _ _))
  | union members => exact hdirectives.append (headAvoids_members (by simp) leading members)
  | enum values => exact hdirectives.append (headAvoids_group (by simp) _ _)
  | inputObject fields => exact hdirectives.append (headAvoids_group (by simp) _ _)

private theorem TypeSystemDefinition.headAvoids {S : List Punctuator} (leading : Bool) (d : TypeSystemDefinition) :
    HeadAvoids S (d.terminals leading) := by
  cases d with
  | schema s => exact headAvoids_described _ _ _
  | schemaExtension s => exact headAvoids_cons (avoids_word _ _)
  | type t => exact headAvoids_described _ _ _
  | typeExtension t => exact headAvoids_cons (avoids_word _ _)
  | directive d => exact headAvoids_described _ _ _

private theorem head_described_ne_implements (description : Option StringLiteral) {w : String}
    (h : word w ≠ word "implements") (ts : List Terminal) :
    ∀ u ∈ (descriptionTerminals description ++ word w :: ts).head?, u ≠ word "implements" := by
  cases description with
  | none => simpa [descriptionTerminals] using h
  | some l => simp [descriptionTerminals, word]

private theorem word_ne_implements {kind : TypeKind} : word kind.keyword ≠ word "implements" := by
  cases kind <;> simp [TypeKind.keyword, word, wordKind]

/-- No definition begins with the word in front of a list of interfaces. -/
theorem TypeSystemDefinition.head_ne_implements (leading : Bool) (d : TypeSystemDefinition) :
    ∀ u ∈ (d.terminals leading).head?, u ≠ word "implements" := by
  cases d with
  | schema s => exact head_described_ne_implements _ (by simp [word, wordKind]) _
  | schemaExtension s => simp [terminals, word, wordKind]
  | type t => exact head_described_ne_implements _ word_ne_implements _
  | typeExtension t => simp [terminals, word, wordKind]
  | directive d => exact head_described_ne_implements _ (by simp [word, wordKind]) _

namespace Parse

variable {α β γ : Type}

/-- A word is no string, so that a description is told by its first token. -/
private theorem string_ne_wordKind (w raw : String) : wordKind w ≠ .string raw ∧ wordKind w ≠ .blockString raw := by
  have hword := asName?_wordKind w
  constructor
  · intro h
    rw [h] at hword
    cases hword
  · intro h
    rw [h] at hword
    cases hword

/-- A description comes in front of a word, so that it is told from its absence. -/
theorem description_bind {F : List Token → Prop} {d : Option StringLiteral} {w : String} {ts : List Terminal}
    {f : Option StringLiteral → Parse β} {Q : β → Prop}
    (hf : ∀ d', d'.map (·.restyle .erase) = d.map (·.restyle .erase) → AcceptsIf F (f d') (word w :: ts) Q)
    (hF : ∀ rest, F rest → Follows [] rest) :
    AcceptsIf F (description >>= f) (descriptionTerminals d ++ word w :: ts) Q := by
  cases d with
  | none =>
    rw [description, bind_assoc]
    refine .peek (avoids_word [] _).1 fun t ht => ?_
    have hkind : t.kind = wordKind w := kind_of_terminal ht
    have hnone := hf none rfl
    rw [hkind]
    split
    · rename_i raw h
      exact absurd h (string_ne_wordKind w raw).1
    · rename_i raw h
      exact absurd h (string_ne_wordKind w raw).2
    · simpa using hnone
  | some l =>
    have hstring : Accepts (some <$> stringLiteral) [.string l.value l.block] [] fun d' =>
        d'.map (StringLiteral.restyle .erase) = some (l.restyle .erase) :=
      (stringLiteral_accepts l.value l.block).map fun m hm => by simp [StringLiteral.restyle, hm]
    have hdescription : Accepts description [.string l.value l.block] [] fun d' =>
        d'.map (StringLiteral.restyle .erase) = some (l.restyle .erase) := by
      refine .peek (by simp) fun t ht => ?_
      rcases kind_of_string_terminal ht with ⟨raw, hkind, -⟩ | ⟨raw, hkind, -⟩
      · simpa only [hkind] using hstring
      · simpa only [hkind] using hstring
    exact .bind hdescription hf (headAvoids_cons (avoids_word _ _)) hF

/-- A look for a keyword finds another word. -/
theorem nextIsKeyword_bind_of_ne {F : List Token → Prop} {w v : String} (hne : wordKind v ≠ .name w)
    {ts : List Terminal} {f : Bool → Parse β} {Q : β → Prop} (hf : AcceptsIf F (f false) (word v :: ts) Q) :
    AcceptsIf F (nextIsKeyword w >>= f) (word v :: ts) Q := by
  rw [nextIsKeyword, bind_assoc]
  refine .peek (avoids_word [] _).1 fun t ht => ?_
  have hkind : t.kind ≠ .name w := by rwa [kind_of_terminal ht]
  rwa [pure_bind, decide_eq_false hkind]

private theorem nextIsKeyword_bind_of_eq {F : List Token → Prop} {w : String} (hw : wordKind w = .name w)
    {ts : List Terminal} {f : Bool → Parse β} {Q : β → Prop} (hf : AcceptsIf F (f true) (word w :: ts) Q) :
    AcceptsIf F (nextIsKeyword w >>= f) (word w :: ts) Q := by
  rw [nextIsKeyword, bind_assoc]
  refine .peek (avoids_word [] _).1 fun t ht => ?_
  rwa [pure_bind, decide_eq_true ((kind_of_terminal ht).trans hw)]

section
variable {g : α → List Terminal} {k : α → γ} {items : List α} {item : Parse α} {separator : Punctuator}

/-- Items with separators between them are read one after the other. -/
private theorem separated_accepts (hne : items ≠ []) (hitem : ∀ a ∈ items, Accepts item (g a) [] fun b => k b = k a)
    (hg : ∀ a ∈ items, HeadAvoids [] (g a)) :
    Accepts (separated separator item) (separatedTerminals separator g items) [separator]
      (·.map k = items.map k) := by
  obtain ⟨a, as, rfl⟩ := List.exists_cons_of_ne_nil hne
  have hstep : ∀ b ∈ as, Accepts (behind? separator item) (sign separator :: g b) [] fun o =>
      ∃ c, o = some c ∧ k c = k b :=
    fun b hb => .behind?_some (hitem b (by simp [hb])) (hg b (by simp [hb]))
  have hrest : Accepts (repeated (behind? separator item))
      (as.flatMap (fun b => sign separator :: g b) ++ []) [separator] (·.map k = as.map k) :=
    .repeated hstep (by simp) (fun b _ => headAvoids_cons (avoids_sign (by simp))) (.behind?_none (by simp))
      (headAvoids_nil _) (by simp)
  rw [List.append_nil] at hrest
  rw [separatedTerminals]
  refine (hitem a (by simp)).bind_closed (fun b hb => ?_)
    (.flatMap fun b _ => headAvoids_cons (avoids_sign (by simp)))
  exact hrest.bind_nil fun bs hbs => .pure (by simp [hb, hbs])

/-- A separator in front of a list is taken if it is there. -/
theorem listed_accepts (leading : Bool) (hne : items ≠ [])
    (hitem : ∀ a ∈ items, Accepts item (g a) [] fun b => k b = k a) (hnil : ∀ a ∈ items, g a ≠ [])
    (hg : ∀ a ∈ items, HeadAvoids [separator] (g a)) :
    Accepts (listed separator item) (listedTerminals leading separator g items) [separator]
      (·.map k = items.map k) := by
  have hhead : HeadAvoids [separator] (separatedTerminals separator g items) := by
    obtain ⟨a, as, rfl⟩ := List.exists_cons_of_ne_nil hne
    obtain ⟨u, us, hu⟩ := List.exists_cons_of_ne_nil (hnil a (by simp))
    have ha := hg a (by simp)
    rw [separatedTerminals, hu]
    rw [hu] at ha
    exact ha
  have hweak : ∀ a ∈ items, HeadAvoids [] (g a) := fun a ha u hu => (hg a ha u hu).mono (by simp)
  have hseparated : Accepts (separated separator item) (separatedTerminals separator g items) [separator]
      (·.map k = items.map k) := separated_accepts hne hitem hweak
  unfold listedTerminals
  cases leading with
  | true =>
    refine (Accepts.accept separator).bind_closed (fun _ _ => hseparated) ?_
    exact fun u hu => (hhead u hu).mono (by simp)
  | false => exact (Accepts.accept_nil (by simp)).bind (fun _ _ => hseparated) hhead fun _ => List.Subset.refl _

end

/-! ### Parts of definitions -/

/-- The signs with which a part of a definition could go on: its type, its default value and its directives. -/
def partSigns : List Punctuator := [.bang, .equals, .atSign, .openParen]

private theorem name_accepts (n : Name) {S : List Punctuator} :
    Accepts name n.terminals S fun m => m.restyle .erase = n.restyle .erase :=
  (Accepts.name n.value).mono fun _ hm => Name.restyle_erase hm

private theorem constDirectives_accepts {ds : List Directive} (h : ∀ d ∈ ds, d.Fits false maxDepth)
    {S : List Punctuator}
    (hsigns : [.openParen, .atSign] ⊆ S) : Accepts constDirectives (directiveTerminals ds) S fun es =>
      es.map (·.restyle .erase) = ds.map (·.restyle .erase) :=
  directives_accepts .constDirective h hsigns

private theorem follows_nil {S : List Punctuator} {rest : List Token} (h : Follows S rest) : Follows [] rest :=
  h.mono (List.nil_subset _)

private theorem inputValueDefinition_accepts {v : InputValueDefinition} (h : v.Fits) :
    Accepts inputValueDefinition v.terminals partSigns fun w => w.restyle .erase = v.restyle .erase := by
  have htail {S : List Punctuator} (hequals : .equals ∉ S) (hat : .atSign ∉ S) :
      HeadAvoids S (defaultTerminals v.defaultValue ++ directiveTerminals v.directives) :=
    (headAvoids_default hequals _).append (headAvoids_directives hat _)
  rw [inputValueDefinition_eq, InputValueDefinition.terminals]
  refine description_bind (fun description hd => ?_) fun rest => follows_nil
  refine (Accepts.name v.name.value).bind_cons (fun name hname => ?_) (headAvoids_cons (avoids_sign (by simp)))
  refine (Accepts.expect .colon).bind_cons (fun _ _ => ?_)
    ((v.type.headAvoids (by simp)).append (htail (by simp) (by simp)))
  refine (typeRef_accepts h.type).bind (fun type htype => ?_) (htail (by simp) (by simp))
    fun _ => by simp [partSigns]
  refine (default_accepts .inputDefault h.defaultValue).bind (fun default hdefault => ?_)
    (headAvoids_directives (by simp) _) fun _ => by simp [partSigns]
  refine (constDirectives_accepts h.directives (by simp [partSigns])).bind_nil fun directives hdirs =>
    (Accepts.spanFrom _).bind_nil fun span _ => .pure ?_
  simp [InputValueDefinition.restyle, hd, Name.restyle_erase hname, htype, hdefault, hdirs]

private theorem argumentDefinitions_accepts {arguments : List InputValueDefinition} (h : ∀ a ∈ arguments, a.Fits)
    {S : List Punctuator} (hsigns : .openParen ∈ S) :
    Accepts argumentDefinitions (argumentDefinitionTerminals arguments) S fun bs =>
      bs.map (·.restyle .erase) = arguments.map (·.restyle .erase) :=
  .delimitedIf (S := partSigns) (fun a ha => inputValueDefinition_accepts (h a ha))
    (fun a _ => by simp [InputValueDefinition.terminals]) (fun a _ => headAvoids_described _ _ _)
      (by simp [partSigns]) hsigns

private theorem headAvoids_argumentDefinitions {S : List Punctuator} (h : .openParen ∉ S)
    (arguments : List InputValueDefinition) : HeadAvoids S (argumentDefinitionTerminals arguments) :=
  headAvoids_group h _ _

private theorem fieldDefinition_accepts {f : FieldDefinition} (h : f.Fits) :
    Accepts fieldDefinition f.terminals partSigns fun g => g.restyle .erase = f.restyle .erase := by
  rw [FieldDefinition.terminals]
  refine description_bind (fun description hd => ?_) fun rest => follows_nil
  refine (Accepts.name f.name.value).bind_cons (fun name hname => ?_)
    ((headAvoids_argumentDefinitions (by simp) _).append (headAvoids_cons (avoids_sign (by simp))))
  refine (argumentDefinitions_accepts h.arguments (S := [.openParen]) (by simp)).bind (fun arguments hargs => ?_)
    (headAvoids_cons (avoids_sign (by simp))) fun h => by cases h
  refine (Accepts.expect .colon).bind_cons (fun _ _ => ?_)
    ((f.type.headAvoids (by simp)).append (headAvoids_directives (by simp) _))
  refine (typeRef_accepts h.type).bind (fun type htype => ?_) (headAvoids_directives (by simp) _)
    fun _ => by simp [partSigns]
  refine (constDirectives_accepts h.directives (by simp [partSigns])).bind_nil fun directives hdirs =>
    (Accepts.spanFrom _).bind_nil fun span _ => .pure ?_
  simp [FieldDefinition.restyle, hd, Name.restyle_erase hname, hargs, htype, hdirs]

private theorem enumValueName_accepts {w : String} (hw : wordKind w = .name w) {S : List Punctuator} :
    Accepts enumValueName [word w] S (·.value = w) := by
  refine .peek (avoids_word [] _).1 fun t ht => ?_
  have hkind : t.kind = .name w := (kind_of_terminal ht).trans hw
  rw [if_neg (by simp [hkind])]
  exact .name w

private theorem enumValueDefinition_accepts {v : EnumValueDefinition} (h : v.Fits) :
    Accepts enumValueDefinition v.terminals partSigns fun w => w.restyle .erase = v.restyle .erase := by
  rw [enumValueDefinition_eq, EnumValueDefinition.terminals]
  refine description_bind (fun description hd => ?_) fun rest => follows_nil
  refine (enumValueName_accepts h.name).bind_cons (fun name hname => ?_) (headAvoids_directives (by simp) _)
  refine (constDirectives_accepts h.directives (by simp [partSigns])).bind_nil fun directives hdirs =>
    (Accepts.spanFrom _).bind_nil fun span _ => .pure ?_
  simp [EnumValueDefinition.restyle, hd, Name.restyle_erase hname, hdirs]

private theorem names_accepts (leading : Bool) (separator : Punctuator) {names : List Name} (h : names ≠ []) :
    Accepts (listed separator name) (listedTerminals leading separator Name.terminals names) [separator] fun ms =>
      ms.map (·.restyle .erase) = names.map (·.restyle .erase) :=
  listed_accepts leading h (fun n _ => name_accepts n) (fun n _ => by simp [Name.terminals])
    fun n _ => headAvoids_cons (avoids_word _ _)

/-- The members of a union are read with a leading separator or without. -/
private theorem unionMembers_accepts (leading : Bool) (members : List Name) :
    Accepts unionMembers (memberTerminals leading members) [.equals, .pipe] fun ms =>
      ms.map (·.restyle .erase) = members.map (·.restyle .erase) := by
  rw [unionMembers_eq]
  by_cases h : members = []
  · subst h
    refine (Accepts.accept_nil (by simp)).bind_nil fun o ho => ?_
    subst ho
    exact .pure rfl
  · rw [memberTerminals, if_neg h]
    have hnames : Accepts (listed .pipe name) (listedTerminals leading .pipe Name.terminals members)
        [.equals, .pipe] fun ms => ms.map (·.restyle .erase) = members.map (·.restyle .erase) :=
      (names_accepts leading .pipe h).weaken (by simp)
    have hhead : HeadAvoids [] (listedTerminals leading .pipe Name.terminals members) := by
      obtain ⟨n, ns, rfl⟩ := List.exists_cons_of_ne_nil h
      cases leading with
      | true => exact headAvoids_cons (avoids_sign (by simp))
      | false => exact headAvoids_cons (avoids_word _ _)
    refine (Accepts.accept .equals).bind_cons (fun o ho => ?_) hhead
    obtain ⟨t, rfl⟩ := Option.isSome_iff_exists.1 ho
    exact hnames

/-- The signs with which a definition could go on. -/
def endSigns : List Punctuator := [.ampersand, .pipe, .equals, .atSign, .openParen, .openBrace]

/-- What follows is no error, none of the signs with which a definition could go on, and not the word that begins a
list of interfaces. -/
def Ends (rest : List Token) : Prop := Follows endSigns rest ∧ ∀ t ∈ rest.head?, t.kind ≠ .name "implements"

/-- What ends a definition shuts out each of the signs with which it could go on. -/
private theorem Ends.follows {S : List Punctuator} (hsub : S ⊆ endSigns) (rest : List Token) (h : Ends rest) :
    Follows S rest :=
  h.1.mono hsub

/-- Terminals that are empty or begin with a sign. -/
def SignFirst (ts : List Terminal) : Prop := ∀ u ∈ ts.head?, ∃ p, u = sign p

private theorem SignFirst.append {ts us : List Terminal} (ht : SignFirst ts) (hu : SignFirst us) :
    SignFirst (ts ++ us) := by
  cases ts with
  | nil => exact hu
  | cons t ts => exact ht

private theorem signFirst_directives (ds : List Directive) : SignFirst (directiveTerminals ds) := by
  cases ds with
  | nil => simp [SignFirst, directiveTerminals]
  | cons d ds => exact fun u hu => ⟨.atSign, by simpa [directiveTerminals, Directive.terminals] using hu.symm⟩

private theorem signFirst_group (opening close : Punctuator) (g : α → List Terminal) (items : List α) :
    SignFirst (group opening close g items) := by
  unfold group
  split
  · simp [SignFirst]
  · exact fun u hu => ⟨opening, by simpa [between] using hu.symm⟩

/-- Interfaces are listed behind their keyword. Where a type has none, what comes next is not that keyword. -/
theorem interfaces_bind (leading : Bool) {is : List Name} {us : List Terminal} {f : List Name → Parse β}
    {Q : β → Prop}
    (hf : ∀ is', is'.map (·.restyle .erase) = is.map (·.restyle .erase) → AcceptsIf Ends (f is') us Q)
    (hus : HeadAvoids [.ampersand] us) (hsign : SignFirst us) :
    AcceptsIf Ends (interfaces >>= f) (interfaceTerminals leading is ++ us) Q := by
  rw [interfaces_eq]
  by_cases h : is = []
  · subst h
    rw [interfaceTerminals, if_pos rfl, List.nil_append]
    intro vs rest last hvs hrest
    -- the next token is a sign, or it is behind the definition
    have hpeek : ∃ t, StateT.run peek ⟨vs ++ rest, last⟩ = .ok (t, ⟨vs ++ rest, last⟩) ∧
        t.kind ≠ .name "implements" := by
      cases vs with
      | nil =>
        cases rest with
        | nil => exact ⟨_, rfl, by simp⟩
        | cons t rest =>
          have ht := hrest.1 t rfl
          exact ⟨t, run_peek_cons ht.1 rest last, hrest.2 t rfl⟩
      | cons v vs =>
        obtain ⟨p, hp⟩ := hsign v.terminal (by rw [← hvs]; rfl)
        have hkind : v.kind = .punctuator p := kind_of_terminal hp
        exact ⟨v, run_peek_cons (by simp [hkind]) _ _, by simp [hkind]⟩
    obtain ⟨t, hpeek, ht⟩ := hpeek
    obtain ⟨b, last', hrun, hb⟩ := hf [] rfl vs rest last hvs hrest
    refine ⟨b, last', ?_, hb⟩
    rw [nextIsKeyword, bind_assoc, bind_assoc, run_bind_of_ok hpeek, pure_bind, decide_eq_false ht]
    exact hrun
  · have hlisted : Accepts (advance >>= fun _ => listed .ampersand name) (interfaceTerminals leading is) [.ampersand]
        fun is' => is'.map (·.restyle .erase) = is.map (·.restyle .erase) := by
      rw [interfaceTerminals, if_neg h]
      exact .advance (names_accepts leading .ampersand h)
    have hbind := AcceptsIf.bind hlisted hf hus (Ends.follows (by simp [endSigns]))
    rw [interfaceTerminals, if_neg h, List.cons_append] at hbind ⊢
    rw [bind_assoc]
    exact nextIsKeyword_bind_of_eq rfl (by simpa using hbind)

/-- An extension that adds something is let through. -/
theorem requireAddition_accepts {isExtension nothing : Bool} (h : isExtension = true → nothing = false) (t : Token)
    (additions : String) {S : List Punctuator} :
    Accepts (requireAddition isExtension t nothing additions) [] S fun _ => True := by
  have hlet : (isExtension && nothing) = false := by
    cases isExtension with
    | true => simpa using h rfl
    | false => rfl
  rw [requireAddition, hlet]
  exact .pure trivial

/-! ### Type definitions -/

/-- What is given back for what stands behind the name of a type. -/
def SameBody (ds : List Directive) (body : TypeBody) (r : List Directive × TypeBody) : Prop :=
  r.1.map (·.restyle .erase) = ds.map (·.restyle .erase) ∧ r.2.restyle .erase = body.restyle .erase

private theorem fieldDefinitions_accepts {fields : List FieldDefinition} (h : ∀ f ∈ fields, f.Fits)
    {S : List Punctuator} (hsigns : .openBrace ∈ S) :
    Accepts fieldDefinitions (group .openBrace .closeBrace FieldDefinition.terminals fields) S fun gs =>
      gs.map (·.restyle .erase) = fields.map (·.restyle .erase) :=
  .delimitedIf (S := partSigns) (fun f hf => fieldDefinition_accepts (h f hf))
    (fun f _ => by simp [FieldDefinition.terminals]) (fun f _ => headAvoids_described _ _ _)
      (by simp [partSigns]) hsigns

section
variable (leading isExtension : Bool) (t : Token) {ds : List Directive}

/-- The body of an object type or an interface. -/
theorem fieldsBody_accepts {is : List Name} {fields : List FieldDefinition}
    (hds : ∀ d ∈ ds, d.Fits false maxDepth) (hfields : ∀ f ∈ fields, f.Fits)
    (hadds : isExtension = true → ds = [] → ¬ (is = [] ∧ fields = []))
    {make : List Name → List FieldDefinition → TypeBody}
    (hmake : ∀ is' fields', is'.map (Name.restyle .erase) = is.map (Name.restyle .erase) →
      fields'.map (FieldDefinition.restyle .erase) = fields.map (FieldDefinition.restyle .erase) →
        (make is' fields').restyle .erase = (make is fields).restyle .erase) :
    AcceptsIf Ends (fieldsBody make isExtension t) (interfaceTerminals leading is ++ (directiveTerminals ds ++
      group .openBrace .closeBrace FieldDefinition.terminals fields)) (SameBody ds (make is fields)) := by
  have hgroup {S : List Punctuator} (h : .openBrace ∉ S) :
      HeadAvoids S (group .openBrace .closeBrace FieldDefinition.terminals fields) := headAvoids_group h _ _
  have hnothing : isExtension = true → (is.isEmpty && ds.isEmpty && fields.isEmpty) = false := by
    intro hext
    have := hadds hext
    cases is <;> cases ds <;> cases fields <;> simp_all
  refine interfaces_bind leading (fun is' his => ?_) ((headAvoids_directives (by simp) _).append (hgroup (by simp)))
    ((signFirst_directives _).append (signFirst_group _ _ _ _))
  refine .bind (constDirectives_accepts hds (List.Subset.refl _)) (fun ds' hds' => ?_) (hgroup (by simp))
    (Ends.follows (by simp [endSigns]))
  refine .of_accepts ((fieldDefinitions_accepts hfields (S := [.openBrace]) (by simp)).bind_nil
    fun fields' hfields' => ?_) (Ends.follows (by simp [endSigns]))
  rw [isEmpty_of_map_eq his, isEmpty_of_map_eq hds', isEmpty_of_map_eq hfields']
  exact (requireAddition_accepts hnothing t _).bind_nil fun _ _ => .pure
    ⟨hds', hmake is' fields' his hfields'⟩

/-- A body with one list of parts. -/
theorem partsBody_accepts {as : List α} {parts : Parse (List α)} {k : α → γ} {ts : List Terminal}
    {S : List Punctuator} (hds : ∀ d ∈ ds, d.Fits false maxDepth)
    (hparts : Accepts parts ts S fun bs => bs.map k = as.map k) (hS : S ⊆ endSigns)
    (hhead : HeadAvoids [.openParen, .atSign] ts) (hadds : isExtension = true → ds = [] → as ≠ [])
    {make : List α → TypeBody}
    (hmake : ∀ bs, bs.map k = as.map k → (make bs).restyle .erase = (make as).restyle .erase)
    (additions : String) :
    AcceptsIf Ends (partsBody make parts additions isExtension t) (directiveTerminals ds ++ ts)
      (SameBody ds (make as)) := by
  have hnothing : isExtension = true → (ds.isEmpty && as.isEmpty) = false := by
    intro hext
    have := hadds hext
    cases ds <;> cases as <;> simp_all
  refine .bind (constDirectives_accepts hds (List.Subset.refl _)) (fun ds' hds' => ?_) hhead
    (Ends.follows (by simp [endSigns]))
  refine .of_accepts (hparts.bind_nil fun bs hbs => ?_) (Ends.follows hS)
  rw [isEmpty_of_map_eq hds', isEmpty_of_map_eq hbs]
  exact (requireAddition_accepts hnothing t _).bind_nil fun _ _ => .pure ⟨hds', hmake bs hbs⟩

/-- The body of a type is read from its terminals up to the end of the definition; an extension has to add something.
-/
private theorem typeBody_accepts {body : TypeBody} (hds : ∀ d ∈ ds, d.Fits false maxDepth) (hbody : body.Fits)
    (hadds : isExtension = true → ds = [] → ¬ body.IsEmpty) :
    AcceptsIf Ends (typeBody body.kind isExtension t) (body.terminals leading ds) (SameBody ds body) := by
  rw [typeBody_eq]
  cases body with
  | scalar =>
    have hdirectives := constDirectives_accepts hds (List.Subset.refl _)
    refine .of_accepts (hdirectives.bind_nil fun ds' hds' => ?_) (Ends.follows (by simp [endSigns]))
    rw [isEmpty_of_map_eq hds']
    have hnothing : isExtension = true → ds.isEmpty = false := by
      intro hext
      have := hadds hext
      cases ds <;> simp_all [TypeBody.IsEmpty]
    exact (requireAddition_accepts hnothing t _).bind_nil fun _ _ => .pure ⟨hds', rfl⟩
  | object is fields =>
    exact fieldsBody_accepts leading isExtension t hds hbody hadds fun is' fields' his hfields => by
      simp [TypeBody.restyle, his, hfields]
  | interface is fields =>
    exact fieldsBody_accepts leading isExtension t hds hbody hadds fun is' fields' his hfields => by
      simp [TypeBody.restyle, his, hfields]
  | union members =>
    exact partsBody_accepts isExtension t hds (unionMembers_accepts leading members) (by simp [endSigns])
      (headAvoids_members (by simp) _ _) hadds (fun ms hms => by simp [TypeBody.restyle, hms]) _
  | enum values =>
    have hvalues : Accepts (delimitedIf .openBrace .closeBrace "enum values" enumValueDefinition)
        (group .openBrace .closeBrace EnumValueDefinition.terminals values) [.openBrace] fun ws =>
          ws.map (EnumValueDefinition.restyle .erase) = values.map (EnumValueDefinition.restyle .erase) :=
      .delimitedIf (S := partSigns) (fun v hv => enumValueDefinition_accepts (hbody v hv))
        (fun v _ => by simp [EnumValueDefinition.terminals]) (fun v _ => headAvoids_described _ _ _)
          (by simp [partSigns]) (by simp)
    exact partsBody_accepts isExtension t hds hvalues (by simp [endSigns]) (headAvoids_group (by simp) _ _) hadds
      (fun ws hws => by simp [TypeBody.restyle, hws]) _
  | inputObject fields =>
    have hfields : Accepts (delimitedIf .openBrace .closeBrace "input fields" inputValueDefinition)
        (group .openBrace .closeBrace InputValueDefinition.terminals fields) [.openBrace] fun ws =>
          ws.map (InputValueDefinition.restyle .erase) = fields.map (InputValueDefinition.restyle .erase) :=
      .delimitedIf (S := partSigns) (fun v hv => inputValueDefinition_accepts (hbody v hv))
        (fun v _ => by simp [InputValueDefinition.terminals]) (fun v _ => headAvoids_described _ _ _)
          (by simp [partSigns]) (by simp)
    exact partsBody_accepts isExtension t hds hfields (by simp [endSigns]) (headAvoids_group (by simp) _ _) hadds
      (fun ws hws => by simp [TypeBody.restyle, hws]) _

end

/-- A definition or extension of a type is given back with the description that was parsed before it. -/
theorem typeDefinition_accepts (leading isExtension : Bool) {t : TypeDefinition} (h : t.Fits)
    (hadds : isExtension = true → t.directives = [] → ¬ t.body.IsEmpty) {description : Option StringLiteral}
    (hd : description.map (·.restyle .erase) = t.description.map (·.restyle .erase)) (start : Span) :
    AcceptsIf Ends (typeDefinition t.body.kind isExtension description start) (t.terminals leading) fun u =>
      u.restyle .erase = t.restyle .erase := by
  refine .peek (avoids_word [] _).1 fun sign _ => .advance ?_
  have hname := name_accepts t.name (S := [])
  refine .bind hname (fun name hname => ?_) (TypeBody.headAvoids _ _ _) (Ends.follows (by simp))
  refine (typeBody_accepts leading isExtension sign h.directives h.body hadds).bind_nil fun ⟨ds, body⟩ hbody => ?_
  refine (AcceptsIf.spanFrom start).bind_nil fun span _ => .pure ?_
  simp [TypeDefinition.restyle, hd, hname, hbody.1, hbody.2]

private theorem rootOperation_accepts (o : RootOperation) :
    Accepts rootOperation o.terminals [] fun p => p.restyle .erase = o.restyle .erase := by
  have hword : (wordKind o.kind.keyword).asName?.bind OperationKind.ofKeyword? = some o.kind := by
    cases o.kind <;> rfl
  refine .peek (avoids_word [] _).1 fun t ht => ?_
  have hkind : t.kind = wordKind o.kind.keyword := kind_of_terminal ht
  simp only [hkind, hword]
  refine .advance ((Accepts.expect .colon).bind_cons (fun _ _ => ?_) (headAvoids_cons (avoids_word _ _)))
  refine (name_accepts o.typeName).bind_nil fun name hname => (Accepts.spanFrom _).bind_nil fun span _ => .pure ?_
  simp [RootOperation.restyle, hname]

private theorem rootOperations_accepts (isExtension : Bool) {os : List RootOperation}
    (h : isExtension = false → os ≠ []) :
    Accepts (rootOperations isExtension) (group .openBrace .closeBrace RootOperation.terminals os) [.openBrace]
      fun ps => ps.map (·.restyle .erase) = os.map (·.restyle .erase) := by
  have hne : ∀ o ∈ os, o.terminals ≠ [] := fun o _ => by simp [RootOperation.terminals]
  have hhead : ∀ o ∈ os, HeadAvoids [.closeBrace] o.terminals := fun o _ => headAvoids_cons (avoids_word _ _)
  cases isExtension with
  | true => exact .delimitedIf (S := []) (fun o _ => rootOperation_accepts o) hne hhead (by simp) (by simp)
  | false =>
    have hnonempty := h rfl
    rw [group, if_neg hnonempty]
    exact (Accepts.delimited (S := []) (fun o _ => rootOperation_accepts o) hne hhead (by simp)
      (.inl hnonempty)).map fun r hr => hr

/-- The definition of the schema is read from its terminals; an extension has to add something. -/
private theorem schemaDefinition_accepts (isExtension : Bool) {s : SchemaDefinition}
    (hds : ∀ d ∈ s.directives, d.Fits false maxDepth) (hroots : isExtension = false → s.rootOperations ≠ [])
    (hadds : isExtension = true → s.directives = [] → s.rootOperations ≠ []) {description : Option StringLiteral}
    (hd : description.map (·.restyle .erase) = s.description.map (·.restyle .erase)) (start : Span) :
    Accepts (schemaDefinition isExtension description start) s.terminals endSigns fun u =>
      u.restyle .erase = s.restyle .erase := by
  have hgroup : HeadAvoids [.openParen, .atSign]
      (group .openBrace .closeBrace RootOperation.terminals s.rootOperations) := headAvoids_group (by simp) _ _
  have hnothing : isExtension = true → (s.directives.isEmpty && s.rootOperations.isEmpty) = false := by
    intro hext
    have := hadds hext
    cases hdirectives : s.directives <;> cases hrootOperations : s.rootOperations <;> simp_all
  rw [schemaDefinition_eq, SchemaDefinition.terminals]
  refine (Accepts.keyword rfl).bind_cons (fun sign _ => ?_)
    ((headAvoids_directives (by simp) _).append (headAvoids_group (by simp) _ _))
  refine (constDirectives_accepts hds (List.Subset.refl _)).bind (fun ds hds' => ?_) hgroup
    fun _ => by simp [endSigns]
  refine ((rootOperations_accepts isExtension hroots).weaken (by simp [endSigns])).bind_nil fun os hos => ?_
  rw [isEmpty_of_map_eq hds', isEmpty_of_map_eq hos]
  refine (requireAddition_accepts hnothing sign _).bind_nil fun _ _ => (Accepts.spanFrom _).bind_nil
    fun span _ => .pure ?_
  simp [SchemaDefinition.restyle, hd, hds', hos]

private theorem ofText?_text (place : DirectiveLocation) : DirectiveLocation.ofText? place.text = some place := by
  cases place <;> rfl

private theorem directiveLocation_accepts (p : LocatedPlace) :
    Accepts directiveLocation p.terminals [] fun q => q.restyle .erase = p.restyle .erase := by
  refine .peek (avoids_word [] _).1 fun t ht => ?_
  have hkind : t.kind = wordKind p.place.text := kind_of_terminal ht
  simp only [hkind, asName?_wordKind, ofText?_text]
  exact .advance (.pure rfl)

/-- Whether a directive is repeatable is told by the word in front of `on`. -/
theorem repeatable_bind {F : List Token → Prop} (b : Bool) {ts : List Terminal} {f : Bool → Parse β} {Q : β → Prop}
    (hf : AcceptsIf F (f b) (word "on" :: ts) Q) :
    AcceptsIf F (repeatable >>= f) (repeatableTerminals b ++ word "on" :: ts) Q := by
  rw [repeatable, bind_assoc]
  cases b with
  | true =>
    refine nextIsKeyword_bind_of_eq rfl ?_
    rw [if_pos rfl, bind_assoc]
    exact .advance hf
  | false => exact nextIsKeyword_bind_of_ne (by decide) (by simpa using hf)

/-- The definition of a directive is read from its terminals. -/
private theorem directiveDefinition_accepts (leading : Bool) {d : DirectiveDefinition} (h : d.Fits)
    {description : Option StringLiteral}
    (hd : description.map (·.restyle .erase) = d.description.map (·.restyle .erase)) (start : Span) :
    Accepts (directiveDefinition description start) (d.terminals leading) endSigns fun u =>
      u.restyle .erase = d.restyle .erase := by
  have hplaces : Accepts (listed .pipe directiveLocation)
      (listedTerminals leading .pipe LocatedPlace.terminals d.locations) [.pipe] fun ps =>
        ps.map (LocatedPlace.restyle .erase) = d.locations.map (LocatedPlace.restyle .erase) :=
    listed_accepts leading h.nonempty (fun p _ => directiveLocation_accepts p)
      (fun p _ => by simp [LocatedPlace.terminals]) fun p _ => headAvoids_cons (avoids_word _ _)
  have hlisted : HeadAvoids [] (listedTerminals leading .pipe LocatedPlace.terminals d.locations) := by
    obtain ⟨p, ps, hp⟩ := List.exists_cons_of_ne_nil h.nonempty
    rw [hp]
    cases leading with
    | true => exact headAvoids_cons (avoids_sign (by simp))
    | false => exact headAvoids_cons (avoids_word _ _)
  have htail {S : List Punctuator} : HeadAvoids S (repeatableTerminals d.repeatable ++
      word "on" :: listedTerminals leading .pipe LocatedPlace.terminals d.locations) := by
    cases d.repeatable <;> exact headAvoids_cons (avoids_word _ _)
  rw [directiveDefinition_eq, DirectiveDefinition.terminals]
  refine (Accepts.keyword rfl).bind_cons (fun _ _ => ?_) (headAvoids_cons (avoids_sign (by simp)))
  refine (Accepts.expect .atSign).bind_cons (fun _ _ => ?_) (headAvoids_cons (avoids_word _ _))
  refine (Accepts.name d.name.value).bind_cons (fun name hname => ?_)
    ((headAvoids_argumentDefinitions (by simp) _).append htail)
  refine (argumentDefinitions_accepts h.arguments (S := [.openParen]) (by simp)).bind (fun arguments hargs => ?_)
    htail fun _ => by simp [endSigns]
  refine repeatable_bind d.repeatable ?_
  have hrest : Accepts (keyword "on" >>= fun _ => listed .pipe directiveLocation >>= fun ps =>
      spanFrom start >>= fun span =>
        pure (⟨description, name, arguments, d.repeatable, ps, span⟩ : DirectiveDefinition))
      (word "on" :: listedTerminals leading .pipe LocatedPlace.terminals d.locations) endSigns fun u =>
        u.restyle .erase = d.restyle .erase := by
    refine (Accepts.keyword rfl).bind_cons (fun _ _ => ?_) hlisted
    refine (hplaces.weaken (by simp [endSigns])).bind_nil fun ps hps => (Accepts.spanFrom _).bind_nil
      fun span _ => .pure ?_
    simp [DirectiveDefinition.restyle, hd, Name.restyle_erase hname, hargs, hps]
  exact hrest

private theorem extension_accepts_schema {s : SchemaDefinition} (h : s.Extends) :
    AcceptsIf Ends extension (word "extend" :: s.terminals) fun e =>
      e.restyle .erase = (TypeSystemDefinition.schemaExtension s).restyle .erase := by
  have hextend : Accepts (keyword "extend") [word "extend"] [] fun _ => True := .keyword rfl
  refine AcceptsIf.bind hextend (fun extend _ => ?_) (headAvoids_cons (avoids_word _ _)) (Ends.follows (by simp))
  have hs := AcceptsIf.of_accepts (schemaDefinition_accepts true h.directives (by simp) (fun _ => h.addition)
    (by rw [h.description]) extend.span) (Ends.follows (List.Subset.refl _))
  refine .peek (avoids_word [] _).1 fun t ht => ?_
  have hkind : t.kind = .name "schema" := kind_of_terminal ht
  simp only [hkind]
  exact hs.bind_nil fun u hu => .pure (by simp [TypeSystemDefinition.restyle, hu])

/-- A token of the keyword of a kind of type. -/
theorem kind_of_keyword {t : Token} {kind : TypeKind} (h : t.terminal = word kind.keyword) :
    t.kind = .name kind.keyword := by
  rw [show t.kind = wordKind kind.keyword from kind_of_terminal h]
  cases kind <;> rfl

/-- An extension of a type is read from its terminals. -/
private theorem extension_accepts_type (leading : Bool) {t : TypeDefinition} (h : t.Extends) :
    AcceptsIf Ends extension (word "extend" :: t.terminals leading) fun e =>
      e.restyle .erase = (TypeSystemDefinition.typeExtension t).restyle .erase := by
  have hextend : Accepts (keyword "extend") [word "extend"] [] fun _ => True := .keyword rfl
  refine AcceptsIf.bind hextend (fun extend _ => ?_) (headAvoids_cons (avoids_word _ _)) (Ends.follows (by simp))
  have ht := (typeDefinition_accepts leading true h.toFits (fun _ => h.addition) (by rw [h.description])
    extend.span).bind_nil (f := fun u => pure (TypeSystemDefinition.typeExtension u))
    (Q := fun e => e.restyle .erase = (TypeSystemDefinition.typeExtension t).restyle .erase)
    fun u hu => .pure (by simp [TypeSystemDefinition.restyle, hu])
  refine .peek (avoids_word [] _).1 fun next hnext => ?_
  have hkind := kind_of_keyword hnext
  cases hbody : t.body.kind <;> rw [hbody] at hkind ht <;> simp only [hkind] <;> exact ht

/-- An extension has no description, and its keyword comes first. -/
theorem typeSystemDefinition_accepts_extension {ts : List Terminal} {Q : TypeSystemDefinition → Prop}
    (h : AcceptsIf Ends extension (word "extend" :: ts) Q) :
    AcceptsIf Ends typeSystemDefinition (word "extend" :: ts) Q := by
  rw [← List.nil_append (word "extend" :: ts)]
  refine description_bind (d := none) (fun description hd => ?_) (Ends.follows (by simp))
  obtain rfl : description = none := by simpa using hd
  refine .peek (avoids_word [] _).1 fun t ht => ?_
  have hkind : t.kind = .name "extend" := kind_of_terminal ht
  simp only [hkind]
  exact h

/-- Any definition of a schema document is read from its terminals. -/
private theorem typeSystemDefinition_accepts (leading : Bool) {d : TypeSystemDefinition} (h : d.Fits) :
    AcceptsIf Ends typeSystemDefinition (d.terminals leading) fun e => e.restyle .erase = d.restyle .erase := by
  have hends (rest : List Token) (hrest : Ends rest) : Follows [] rest := Ends.follows (by simp) rest hrest
  cases d with
  | schema s =>
    refine description_bind (fun description hd => ?_) hends
    refine .peek (avoids_word [] _).1 fun t ht => ?_
    have hkind : t.kind = .name "schema" := kind_of_terminal ht
    simp only [hkind]
    have hs := AcceptsIf.of_accepts (schemaDefinition_accepts false h.directives (fun _ => h.nonempty) (by simp) hd
      ((description.map (·.span)).getD t.span)) (Ends.follows (List.Subset.refl _))
    exact hs.bind_nil fun u hu => .pure (by simp [TypeSystemDefinition.restyle, hu])
  | directive d =>
    refine description_bind (fun description hd => ?_) hends
    refine .peek (avoids_word [] _).1 fun t ht => ?_
    have hkind : t.kind = .name "directive" := kind_of_terminal ht
    simp only [hkind]
    have hdirective := AcceptsIf.of_accepts (directiveDefinition_accepts leading h hd
      ((description.map (·.span)).getD t.span)) (Ends.follows (List.Subset.refl _))
    exact hdirective.bind_nil fun u hu => .pure (by simp [TypeSystemDefinition.restyle, hu])
  | type t =>
    refine description_bind (fun description hd => ?_) hends
    refine .peek (avoids_word [] _).1 fun next hnext => ?_
    have ht := (typeDefinition_accepts leading false h (by simp) hd
      ((description.map (·.span)).getD next.span)).bind_nil (f := fun u => pure (TypeSystemDefinition.type u))
      (Q := fun e => e.restyle .erase = (TypeSystemDefinition.type t).restyle .erase)
      fun u hu => .pure (by simp [TypeSystemDefinition.restyle, hu])
    have hkind := kind_of_keyword hnext
    cases hbody : t.body.kind <;> rw [hbody] at hkind ht <;> simp only [hkind] <;> exact ht
  | schemaExtension s => exact typeSystemDefinition_accepts_extension (extension_accepts_schema h)
  | typeExtension t => exact typeSystemDefinition_accepts_extension (extension_accepts_type leading h)

/-- A spelling gives each definition its terminals. -/
theorem exists_items_of_spelled {ds : List TypeSystemDefinition} {ts : List Terminal} (h : Spelled ds ts) :
    ∃ items : List (TypeSystemDefinition × List Terminal), items.map (·.1) = ds ∧ items.flatMap (·.2) = ts ∧
      ∀ x ∈ items, ∃ leading, x.2 = x.1.terminals leading := by
  induction h with
  | nil => exact ⟨[], rfl, rfl, by simp⟩
  | @cons d ds ts leading _ ih =>
    obtain ⟨items, rfl, rfl, hitems⟩ := ih
    exact ⟨(d, d.terminals leading) :: items, rfl, rfl, List.forall_mem_cons.2 ⟨⟨leading, rfl⟩, hitems⟩⟩

/-- A definition does not begin like something that could go on with the one before it. -/
theorem ends_of_terminals {leading : Bool} {d : TypeSystemDefinition} {us : List Token}
    (h : us.map Token.terminal = d.terminals leading) (rest : List Token) : Ends (us ++ rest) := by
  cases us with
  | nil => exact absurd h.symm (d.terminals_ne_nil leading)
  | cons u us =>
    have hhead : u.terminal ∈ (d.terminals leading).head? := by rw [← h]; rfl
    have hu : Avoids endSigns u.terminal := d.headAvoids leading u.terminal hhead
    have hword : u.terminal ≠ word "implements" := d.head_ne_implements leading u.terminal hhead
    constructor
    · intro t ht
      obtain rfl : u = t := by simpa using ht
      refine ⟨fun cause hcause => hu.1 cause ?_, fun p hp hkind => hu.2.2 p hp (terminal_of_sign hkind)⟩
      rw [Token.terminal, hcause]
      rfl
    · intro t ht hkind
      obtain rfl : u = t := by simpa using ht
      exact hword (by rw [Token.terminal, hkind]; rfl)

/-- From any spelling of a schema document and the end of the input, the grammar gives the document back. -/
theorem schemaDocument_accepts {d : SchemaDocument} (h : d.Fits) {ts : List Token}
    (hts : Spelled d.definitions (ts.map Token.terminal)) {e : Token} (he : e.kind = .endOfInput) :
    ∃ d', schemaDocument.run (ts ++ [e]) = .ok d' ∧ d'.restyle .erase = d.restyle .erase := by
  obtain ⟨items, hitems, hflat, hleading⟩ := exists_items_of_spelled hts
  have hfits : ∀ x ∈ items, x.1.Fits := by
    intro x hx
    exact h.definitions x.1 (hitems ▸ List.mem_map_of_mem hx)
  have hnonempty : items ≠ [] := by
    rintro rfl
    exact h.nonempty hitems.symm
  have hparts : ∀ x ∈ items, AcceptsIf Ends typeSystemDefinition x.2 (fun y => y.restyle .erase = x.1.restyle .erase) ∧
      x.2 ≠ [] ∧ HeadAvoids [] x.2 ∧ ∀ us rest, us.map Token.terminal = x.2 → Ends (us ++ rest) := by
    intro x hx
    obtain ⟨leading, hx2⟩ := hleading x hx
    rw [hx2]
    exact ⟨typeSystemDefinition_accepts leading (hfits x hx), x.1.terminals_ne_nil leading,
      x.1.headAvoids leading, fun us rest hus => ends_of_terminals hus rest⟩
  have hend : Ends [e] := by simp [Ends, Follows, he]
  obtain ⟨es, span, i, hrun, hes⟩ :=
    definitions_accepts .schema items hnonempty (fun x hx => (hparts x hx).1) (fun x hx => (hparts x hx).2.1)
      (fun x hx => (hparts x hx).2.2.1) (fun x hx => (hparts x hx).2.2.2) he hend hflat.symm
  refine ⟨⟨es, span⟩, ?_, ?_⟩
  · rw [Parse.run, schemaDocument, run_bind_of_ok hrun]
    rfl
  · have hdefinitions : es.map (·.restyle .erase) = d.definitions.map (·.restyle .erase) := by
      rw [← hitems, List.map_map]
      exact hes
    simp [SchemaDocument.restyle, hdefinitions]

end Parse

end GraphQL
