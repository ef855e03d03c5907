import GraphQL.Proofs.ParseSteps
import GraphQL.Proofs.Restyle

/-!
# Parsing relocated tokens

A relocation moves the places of a source to other places in the same order and writes its block strings otherwise,
with the same values. `Moves m k p q` says that on relocated tokens the step `q` does what `p` does on the tokens
themselves: the result is the one that `k` makes of the result of `p`, or the same fault is found at the relocated
place. A parse step moves to itself, since no step looks at a place but to tell which of two comes first
(`Relocation.span_merge`). That is proved along the steps of the parser: `Moves.bind` for one step after the other,
`Moves.peek_cases` for a look at the next token, and `Moves.repeated`, `Moves.separated` and `Moves.delimited` for
lists.
-/

namespace GraphQL

/-- Another place for each place, and another literal for each block string. -/
structure Relocation where
  place : Position → Position
  block : String → String
  place_origin : place .origin = .origin
  /-- Places stay in order; two places may become one. -/
  ordered : ∀ p q, p.offset ≤ q.offset → place p = place q ∨ (place p).offset < (place q).offset
  cook_block : ∀ raw, Block.cook (block raw) = Block.cook raw

namespace Relocation

variable (m : Relocation)

def span (s : Span) : Span := ⟨m.place s.first, m.place s.stop⟩

def kind : Token.Kind → Token.Kind
  | .blockString raw => .blockString (m.block raw)
  | kind => kind

def token (t : Token) : Token := ⟨m.kind t.kind, m.span t.span⟩

def fault : ParseFault → ParseFault
  | .unexpected expected found => .unexpected expected (m.kind found)
  | .unclosed close construct opened => .unclosed close construct (m.span opened)
  | fault => fault

def error (e : ParseError) : ParseError := ⟨m.fault e.fault, m.span e.span⟩

/-- The change that a relocation makes to a syntax tree: only spans are others. -/
def restyle : Restyle := ⟨m.span, fun _ block => block, (·.shorthand)⟩

/-- The span at no place stays. -/
theorem span_nowhere : m.span .nowhere = .nowhere := by
  rw [span, Span.nowhere, m.place_origin]

private theorem place_first (p q : Position) :
    m.place (if q.offset < p.offset then q else p) =
      if (m.place q).offset < (m.place p).offset then m.place q else m.place p := by
  by_cases h : q.offset < p.offset
  · rw [if_pos h]
    rcases m.ordered q p (Nat.le_of_lt h) with heq | hlt
    · rw [heq, ite_self]
    · rw [if_pos hlt]
  · rw [if_neg h]
    rcases m.ordered p q (Nat.le_of_not_lt h) with heq | hlt
    · rw [heq, ite_self]
    · rw [if_neg (Nat.lt_asymm hlt)]

private theorem place_last (p q : Position) :
    m.place (if p.offset < q.offset then q else p) =
      if (m.place p).offset < (m.place q).offset then m.place q else m.place p := by
  by_cases h : p.offset < q.offset
  · rw [if_pos h]
    rcases m.ordered p q (Nat.le_of_lt h) with heq | hlt
    · rw [heq, ite_self]
    · rw [if_pos hlt]
  · rw [if_neg h]
    rcases m.ordered q p (Nat.le_of_not_lt h) with heq | hlt
    · rw [heq, ite_self]
    · rw [if_neg (Nat.lt_asymm hlt)]

/-- The smallest span over both is the smallest over both that are relocated. -/
theorem span_merge (a b : Span) : m.span (a.merge b) = (m.span a).merge (m.span b) := by
  have hfirst := m.place_first a.first b.first
  have hlast := m.place_last a.stop b.stop
  change Span.mk _ _ = Span.mk _ _
  exact congr (congrArg Span.mk hfirst) hlast

@[simp] theorem token_kind (t : Token) : (m.token t).kind = m.kind t.kind := rfl

/-- All kinds stay but those of block strings. -/
theorem kind_cases (kind : Token.Kind) : m.kind kind = kind ∨ ∃ raw, kind = .blockString raw := by
  cases kind <;> simp [Relocation.kind]

/-- Where block strings stay, all kinds stay. -/
theorem kind_eq_self (h : ∀ raw, m.block raw = raw) (kind : Token.Kind) : m.kind kind = kind := by
  rcases m.kind_cases kind with heq | ⟨raw, rfl⟩
  · exact heq
  · exact congrArg Token.Kind.blockString (h raw)

/-- A test of a kind for one that is no block string goes the same way. -/
theorem kind_eq_iff {kind kind' : Token.Kind} (h : ∀ raw, kind' ≠ .blockString raw) :
    m.kind kind = kind' ↔ kind = kind' := by
  rcases m.kind_cases kind with heq | ⟨raw, rfl⟩
  · rw [heq]
  · exact ⟨fun heq => absurd heq.symm (h _), fun heq => absurd heq.symm (h _)⟩

/-- Signs stay signs. -/
@[simp] theorem kind_eq_punctuator {kind : Token.Kind} {sign : Punctuator} :
    m.kind kind = .punctuator sign ↔ kind = .punctuator sign := m.kind_eq_iff (by simp)

@[simp] theorem kind_eq_name {kind : Token.Kind} {w : String} : m.kind kind = .name w ↔ kind = .name w :=
  m.kind_eq_iff (by simp)

@[simp] theorem kind_eq_endOfInput {kind : Token.Kind} : m.kind kind = .endOfInput ↔ kind = .endOfInput :=
  m.kind_eq_iff (by simp)

/-- The reserved words stay. -/
@[simp] theorem kind_eq_trueWord {kind : Token.Kind} : m.kind kind = .trueWord ↔ kind = .trueWord :=
  m.kind_eq_iff (by simp)

@[simp] theorem kind_eq_falseWord {kind : Token.Kind} : m.kind kind = .falseWord ↔ kind = .falseWord :=
  m.kind_eq_iff (by simp)

@[simp] theorem kind_eq_nullWord {kind : Token.Kind} : m.kind kind = .nullWord ↔ kind = .nullWord :=
  m.kind_eq_iff (by simp)

/-- Words stay words. -/
@[simp] theorem asName?_kind (kind : Token.Kind) : (m.kind kind).asName? = kind.asName? := by
  rcases m.kind_cases kind with heq | ⟨raw, rfl⟩
  · rw [heq]
  · rfl

/-- Errors stay errors. -/
@[simp] theorem isError_kind (kind : Token.Kind) : (m.kind kind).isError = kind.isError := by
  rcases m.kind_cases kind with heq | ⟨raw, rfl⟩
  · rw [heq]
  · rfl

/-- Messages speak of a relocated token in the same way. -/
@[simp] theorem display_kind (kind : Token.Kind) : (m.kind kind).display = kind.display := by
  rcases m.kind_cases kind with heq | ⟨raw, rfl⟩
  · rw [heq]
  · rfl

end Relocation

namespace Parse

variable {α β γ δ : Type}

/-- The relocated input. -/
def Input.relocate (m : Relocation) (i : Input) : Input := ⟨i.tokens.map m.token, i.last.map m.span⟩

/-- What a step comes to, relocated. -/
def relocated (m : Relocation) (k : α → β) : Except ParseError (α × Input) → Except ParseError (β × Input)
  | .ok (a, i) => .ok (k a, Input.relocate m i)
  | .error e => .error (m.error e)

/-- On relocated inputs the step `q` comes to what `p` comes to, relocated. -/
def Moves (m : Relocation) (k : α → β) (p : Parse α) (q : Parse β) : Prop :=
  ∀ i, StateT.run q (Input.relocate m i) = relocated m k (StateT.run p i)

namespace Moves

variable {m : Relocation} {k : α → β} {l : γ → δ} {p p' : Parse α} {q q' : Parse β}

/-- Two steps move along with the places if each of them does. -/
theorem bind {f : α → Parse γ} {g : β → Parse δ} (hp : Moves m k p q) (hf : ∀ a, Moves m l (f a) (g (k a))) :
    Moves m l (p >>= f) (q >>= g) := by
  intro i
  rw [StateT.run_bind, StateT.run_bind, hp i]
  cases StateT.run p i with
  | error e => rfl
  | ok r => exact hf r.1 r.2

theorem pure {a : α} {b : β} (h : k a = b) : Moves m k (pure a) (pure b) := by
  subst h
  exact fun _ => rfl

theorem map {f : α → γ} {g : β → δ} (hp : Moves m k p q) (hf : ∀ a, l (f a) = g (k a)) :
    Moves m l (f <$> p) (g <$> q) := by
  rw [map_eq_pure_bind, map_eq_pure_bind]
  exact hp.bind fun a => pure (hf a)

theorem fail {fault fault' : ParseFault} {s : Span} (h : m.fault fault = fault') :
    Moves m k (fail fault s) (fail fault' (m.span s)) := by
  subst h
  exact fun _ => rfl

/-- After a fault nothing is done. -/
theorem fail_bind {f : α → Parse γ} {g : β → Parse δ} {fault fault' : ParseFault} {s : Span}
    (h : m.fault fault = fault') : Moves m l (Parse.fail fault s >>= f) (Parse.fail fault' (m.span s) >>= g) := by
  subst h
  exact fun _ => rfl

/-- A choice moves along if its condition does not depend on the places. -/
theorem ite {c c' : Prop} [Decidable c] [Decidable c'] (hc : c' ↔ c) (hp : c → Moves m k p q)
    (hp' : ¬ c → Moves m k p' q') : Moves m k (if c then p else p') (if c' then q else q') := by
  by_cases h : c
  · rw [if_pos h, if_pos (hc.2 h)]
    exact hp h
  · rw [if_neg h, if_neg (mt hc.1 h)]
    exact hp' h

/-! ### Single tokens -/

/-- A look at the next token shows the relocated token. -/
theorem peek : Moves m m.token peek peek := by
  intro ⟨ts, last⟩
  cases ts with
  | nil =>
    cases last with
    | none =>
      have hspan : m.span .nowhere = .nowhere := m.span_nowhere
      change Except.ok _ = Except.ok _
      simp [Input.relocate, Input.endSpan, Relocation.token, Relocation.kind, hspan]
    | some s => rfl
  | cons t ts =>
    obtain ⟨kind, s⟩ := t
    cases kind <;> rfl

/-- A look at the next token, which shows either the same kind of token or another block string. -/
theorem peek_cases {f : Token → Parse γ} {g : Token → Parse δ}
    (hplain : ∀ kind s, m.kind kind = kind → Moves m l (f ⟨kind, s⟩) (g ⟨kind, m.span s⟩))
    (hblock : ∀ raw s, Moves m l (f ⟨.blockString raw, s⟩) (g ⟨.blockString (m.block raw), m.span s⟩)) :
    Moves m l (Parse.peek >>= f) (Parse.peek >>= g) := by
  refine peek.bind fun t => ?_
  obtain ⟨kind, s⟩ := t
  rcases m.kind_cases kind with hkind | ⟨raw, rfl⟩
  · have := hplain kind s hkind
    rwa [Relocation.token, hkind]
  · exact hblock raw s

/-- An unexpected token is reported at its new place, and named as before. -/
theorem unexpected (t : Token) (expected : List String) :
    Moves m k (unexpected t expected) (unexpected (m.token t) expected) :=
  fail rfl

theorem unexpected_of_eq {kind : Token.Kind} (h : m.kind kind = kind) (s : Span) (expected : List String) :
    Moves m k (Parse.unexpected ⟨kind, s⟩ expected) (Parse.unexpected ⟨kind, m.span s⟩ expected) := by
  have := unexpected (k := k) (m := m) ⟨kind, s⟩ expected
  rwa [Relocation.token, h] at this

private theorem advance : Moves m id advance advance := by
  intro ⟨ts, last⟩
  cases ts <;> rfl

theorem advance_bind {f : Unit → Parse γ} {g : Unit → Parse δ} (h : Moves m l (f ()) (g ())) :
    Moves m l (Parse.advance >>= f) (Parse.advance >>= g) :=
  advance.bind fun _ => h

/-- The span of a node is relocated with the places of its first and last token. -/
theorem spanFrom (start : Span) : Moves m m.span (spanFrom start) (spanFrom (m.span start)) := by
  intro ⟨ts, last⟩
  cases last <;> rfl

theorem tooDeep : Moves m k tooDeep tooDeep := peek.bind fun _ => fail rfl

theorem nextIs (sign : Punctuator) : Moves m id (nextIs sign) (nextIs sign) := peek.bind fun _ => pure (by simp)

theorem nextIsKeyword (word : String) : Moves m id (nextIsKeyword word) (nextIsKeyword word) :=
  peek.bind fun _ => pure (by simp)

private theorem accept (sign : Punctuator) : Moves m (Option.map m.token) (accept sign) (accept sign) :=
  peek.bind fun _ => ite (by simp) (fun _ => advance_bind (pure rfl)) fun _ => pure rfl

/-- What is done after an optional sign. -/
theorem accept_bind {sign : Punctuator} {f : Option Token → Parse γ} {g : Option Token → Parse δ}
    (hnone : Moves m l (f none) (g none)) (hsome : ∀ t, Moves m l (f (some t)) (g (some (m.token t)))) :
    Moves m l (Parse.accept sign >>= f) (Parse.accept sign >>= g) := by
  refine (accept sign).bind fun o => ?_
  cases o with
  | none => exact hnone
  | some t => exact hsome t

/-- What stands behind a sign moves along with it. -/
theorem behind? (sign : Punctuator) (hp : Moves m k p q) : Moves m (Option.map k) (behind? sign p) (behind? sign q) :=
  accept_bind (pure rfl) fun _ => hp.map fun _ => rfl

theorem expect (sign : Punctuator) : Moves m m.token (expect sign) (expect sign) :=
  peek.bind fun t => ite (by simp) (fun _ => advance_bind (pure rfl)) fun _ => unexpected t _

theorem keyword (word : String) : Moves m m.token (keyword word) (keyword word) :=
  peek.bind fun t => ite (by simp) (fun _ => advance_bind (pure rfl)) fun _ => unexpected t _

theorem name : Moves m (Name.restyle m.restyle) name name := by
  refine peek.bind fun t => ?_
  rw [m.token_kind, m.asName?_kind]
  split
  · exact advance_bind (pure rfl)
  · exact unexpected t _

private theorem repeatUpTo {step : Parse (Option α)} {step' : Parse (Option β)} (h : Moves m (Option.map k) step step')
    (n : Nat) : Moves m (List.map k) (repeatUpTo step n) (repeatUpTo step' n) := by
  induction n with
  | zero => exact pure rfl
  | succ n ih =>
    refine h.bind fun o => ?_
    cases o with
    | none => exact pure rfl
    | some a => exact ih.bind fun _ => pure rfl

/-- A repetition moves along if its step does. -/
theorem repeated {step : Parse (Option α)} {step' : Parse (Option β)} (h : Moves m (Option.map k) step step') :
    Moves m (List.map k) (repeated step) (repeated step') := by
  intro i
  have hbound := repeatUpTo h (i.tokens.length + 1) i
  have hlength : (Input.relocate m i).tokens.length = i.tokens.length := List.length_map _
  rw [Parse.repeated, Parse.repeated, StateT.run_bind, StateT.run_bind]
  simp only [StateT.run_get, pure_bind, hlength]
  exact hbound

theorem separated {separator : Punctuator} (h : Moves m k p q) :
    Moves m (List.map k) (separated separator p) (separated separator q) :=
  h.bind fun _ => (repeated (h.behind? separator)).bind fun _ => pure rfl

/-- Items between signs move along; an unclosed construct is reported where it is opened now. -/
theorem delimited {opening close : Punctuator} {construct : String} {allowEmpty : Bool} (h : Moves m k p q) :
    Moves m (fun r => (r.1.map k, m.span r.2)) (delimited opening close construct allowEmpty p)
      (delimited opening close construct allowEmpty q) := by
  refine (expect opening).bind fun first => (repeated (k := k) ?_).bind fun items =>
    (spanFrom first.span).bind fun span => ?_
  · refine peek.bind fun t => ite (by simp) (fun _ => advance_bind (pure rfl)) fun _ => ?_
    exact ite (by simp) (fun _ => fail rfl) fun _ => h.map fun _ => rfl
  · exact ite (by simp) (fun _ => fail_bind rfl) fun _ => pure rfl

theorem delimitedIf {opening close : Punctuator} {construct : String} (h : Moves m k p q) :
    Moves m (List.map k) (delimitedIf opening close construct p) (delimitedIf opening close construct q) :=
  (nextIs opening).bind fun _ => ite Iff.rfl (fun _ => (delimited h).bind fun _ => pure rfl) fun _ => pure rfl

end Moves

variable {m : Relocation}

private theorem stringLiteral_moves : Moves m (StringLiteral.restyle m.restyle) stringLiteral stringLiteral := by
  refine .peek_cases (fun kind s hkind => ?_) fun raw s => ?_
  · cases kind with
    | string raw =>
      simp only [pure_bind]
      split
      · exact .advance_bind (.pure rfl)
      · exact .fail rfl
    | blockString raw =>
      obtain hraw : m.block raw = raw := Token.Kind.blockString.inj hkind
      simp only [pure_bind]
      split
      · exact .advance_bind (.pure rfl)
      · exact .fail rfl
    | _ => exact .fail_bind (congrArg (ParseFault.unexpected _) hkind)
  · simp only [pure_bind, m.cook_block]
    split
    · exact .advance_bind (.pure rfl)
    · exact .fail rfl

private theorem objectField_moves {value : Parse Value} (h : Moves m (Value.restyle m.restyle) value value) :
    Moves m (ObjectField.restyle m.restyle) (objectField value) (objectField value) :=
  Moves.name.bind fun name => (Moves.expect .colon).bind fun _ => h.bind fun _ =>
    (Moves.spanFrom name.span).bind fun _ => .pure rfl

/-- Reading a value moves along, where a block string may be another literal of the same value. -/
theorem value_moves (place : ValuePlace) (n : Nat) :
    Moves m (Value.restyle m.restyle) (value place n) (value place n) := by
  induction n with
  | zero => exact .tooDeep
  | succ n ih =>
    have hstring : Moves m (Value.restyle m.restyle) (stringLiteral >>= fun l => pure (Value.string l))
        (stringLiteral >>= fun l => pure (Value.string l)) :=
      stringLiteral_moves.bind fun _ => .pure rfl
    refine .peek_cases (fun kind s hkind => ?_) fun raw s => hstring
    dsimp only
    split
    · split
      · exact .fail rfl
      · exact .advance_bind (Moves.name.bind fun name =>
          .pure (congrArg (fun span => Value.var ⟨name.restyle m.restyle, span⟩) (m.span_merge s name.span)))
    · exact .advance_bind (.pure rfl)
    · exact .advance_bind (.pure rfl)
    · exact hstring
    · exact hstring
    · exact .advance_bind (.pure rfl)
    · exact .advance_bind (.pure rfl)
    · exact .advance_bind (.pure rfl)
    · exact .advance_bind (.pure rfl)
    · exact (Moves.delimited ih).bind fun r => .pure (Value.restyle_list _ r.1 r.2)
    · exact (Moves.delimited (objectField_moves ih)).bind fun r => .pure (Value.restyle_object _ r.1 r.2)
    · exact .unexpected_of_eq hkind s _

theorem description_moves : Moves m (Option.map (StringLiteral.restyle m.restyle)) description description := by
  have hstring : Moves m (Option.map (StringLiteral.restyle m.restyle)) (some <$> stringLiteral)
      (some <$> stringLiteral) := stringLiteral_moves.map fun _ => rfl
  refine .peek_cases (fun kind s hkind => ?_) fun raw s => hstring
  dsimp only
  split
  · exact hstring
  · exact hstring
  · exact .pure rfl

private theorem argument_moves (place : ValuePlace) (n : Nat) :
    Moves m (Argument.restyle m.restyle) (argument place n) (argument place n) :=
  Moves.name.bind fun name => (Moves.expect .colon).bind fun _ => (value_moves place n).bind fun _ =>
    (Moves.spanFrom name.span).bind fun _ => .pure rfl

theorem arguments_moves (place : ValuePlace) (n : Nat) :
    Moves m (List.map (Argument.restyle m.restyle)) (arguments place n) (arguments place n) :=
  .delimitedIf (argument_moves place n)

private theorem directive?_moves (place : ValuePlace) (n : Nat) :
    Moves m (Option.map (Directive.restyle m.restyle)) (directive? place n) (directive? place n) :=
  .accept_bind (.pure rfl) fun sign => Moves.name.bind fun _ => (arguments_moves place n).bind fun _ =>
    (Moves.spanFrom sign.span).bind fun _ => .pure rfl

theorem directives_moves (place : ValuePlace) (n : Nat) :
    Moves m (List.map (Directive.restyle m.restyle)) (directives place n) (directives place n) :=
  .repeated (directive?_moves place n)

private theorem nullable_moves : Moves m id nullable nullable := .accept_bind (.pure rfl) fun _ => .pure rfl

/-- Reading a type reference moves along. -/
theorem typeRef_moves (n : Nat) : Moves m (TypeRef.restyle m.restyle) (typeRef n) (typeRef n) := by
  induction n with
  | zero => exact .tooDeep
  | succ n ih =>
    refine Moves.peek.bind fun t => .ite (by simp) (fun _ => ?_) fun _ => .ite (by simp) (fun _ => ?_) fun _ =>
      .unexpected t _
    · refine .advance_bind (ih.bind fun element => Moves.peek.bind fun close => ?_)
      have hrest : Moves m (TypeRef.restyle m.restyle)
          (nullable >>= fun b => spanFrom t.span >>= fun span => pure (.list element b span))
          (nullable >>= fun b => spanFrom (m.span t.span) >>= fun span =>
            pure (.list (element.restyle m.restyle) b span)) :=
        nullable_moves.bind fun _ => (Moves.spanFrom t.span).bind fun _ => .pure rfl
      exact .ite (by simp) (fun _ => .advance_bind hrest) fun _ => .ite (by simp) (fun _ => .fail_bind rfl) fun _ =>
        .fail_bind rfl
    · exact Moves.name.bind fun name => nullable_moves.bind fun _ => (Moves.spanFrom name.span).bind fun _ => .pure rfl

end Parse

end GraphQL
