import GraphQL.Proofs.Terminals

/-!
# What a parse step consumes

`Consumes p Q` says that a parse which goes well takes a list of tokens off the input that `Q` relates to the
result. It is proved along the steps of a parser: `Consumes.bind` for one step after the other, `Consumes.peek` for
a look at the next token, and `Consumes.repeated` and `Consumes.delimited` for lists, whose items stand one after
the other (`Sequence`).
-/

namespace GraphQL.Parse

variable {α β : Type}

/-- A look at the input gives the token. -/
def Input.Shows (i : Input) (t : Token) : Prop := StateT.run peek i = .ok (t, i)

def Input.Genuine (i : Input) : Prop := ∀ t ∈ i.tokens, t.kind.Genuine

theorem peek_run {i i' : Input} {t : Token} (h : StateT.run peek i = .ok (t, i')) :
    i' = i ∧ ((∃ rest, i.tokens = t :: rest) ∨ t.kind = .endOfInput) := by
  obtain ⟨tokens, last⟩ := i
  cases tokens with
  | nil =>
    simp only [peek, StateT.run_bind, StateT.run_get, pure_bind, StateT.run_pure] at h
    obtain ⟨rfl, rfl⟩ := Prod.mk.inj (Except.ok.inj h)
    exact ⟨rfl, .inr rfl⟩
  | cons u rest =>
    simp only [peek, StateT.run_bind, StateT.run_get, pure_bind] at h
    split at h
    · cases h
    · simp only [StateT.run_pure] at h
      obtain ⟨rfl, rfl⟩ := Prod.mk.inj (Except.ok.inj h)
      exact ⟨rfl, .inl ⟨rest, rfl⟩⟩

/-- Takes a list of tokens that stands in the relation to the result, from inputs whose next token is `t`. -/
def ConsumesAt (t : Token) (p : Parse α) (Q : List Token → α → Prop) : Prop :=
  ∀ i a i', Input.Genuine i → Input.Shows i t → StateT.run p i = .ok (a, i') →
    ∃ ts, i.tokens = ts ++ i'.tokens ∧ Q ts a

/-- Takes a list of tokens that stands in the relation to the result. -/
def Consumes (p : Parse α) (Q : List Token → α → Prop) : Prop :=
  ∀ i a i', Input.Genuine i → StateT.run p i = .ok (a, i') → ∃ ts, i.tokens = ts ++ i'.tokens ∧ Q ts a

/-- Two steps go well if each of them does. -/
theorem run_bind_ok {p : Parse α} {f : α → Parse β} {i i' : Input} {b : β}
    (h : StateT.run (p >>= f) i = .ok (b, i')) :
    ∃ a j, StateT.run p i = .ok (a, j) ∧ StateT.run (f a) j = .ok (b, i') := by
  rw [StateT.run_bind] at h
  cases hp : StateT.run p i with
  | error e => rw [hp] at h; cases h
  | ok r => exact ⟨r.1, r.2, rfl, by rw [hp] at h; exact h⟩

theorem Input.Genuine.of_append {i i' : Input} {ts : List Token} (hi : Genuine i)
    (h : i.tokens = ts ++ i'.tokens) :
    Genuine i' := fun t ht => hi t (h ▸ List.mem_append_right _ ht)

theorem ConsumesAt.of {t : Token} {p : Parse α} {Q : List Token → α → Prop} (h : Consumes p Q) :
    ConsumesAt t p Q :=
  fun i a i' hi _ hp => h i a i' hi hp

namespace Consumes

/-- Two steps consume what each of them consumes, one after the other. -/
theorem bind {p : Parse α} {f : α → Parse β} {P : List Token → α → Prop} {Q : List Token → β → Prop}
    (hp : Consumes p P) (hf : ∀ a ts, P ts a → Consumes (f a) fun us b => Q (ts ++ us) b) :
    Consumes (p >>= f) Q := by
  intro i b i' hi h
  obtain ⟨a, j, hpa, hfb⟩ := run_bind_ok h
  obtain ⟨ts, hts, hP⟩ := hp i a j hi hpa
  obtain ⟨us, hus, hQ⟩ := hf a ts hP j b i' (hi.of_append hts) hfb
  exact ⟨ts ++ us, by rw [hts, hus, List.append_assoc], hQ⟩

theorem mono {p : Parse α} {P Q : List Token → α → Prop} (h : Consumes p P) (hPQ : ∀ ts a, P ts a → Q ts a) :
    Consumes p Q := by
  intro i a i' hi hp
  obtain ⟨ts, hts, hP⟩ := h i a i' hi hp
  exact ⟨ts, hts, hPQ ts a hP⟩

/-- A result at hand consumes nothing. -/
theorem pure {Q : List Token → α → Prop} {a : α} (h : Q [] a) : Consumes (pure a) Q := by
  intro i b i' _ hp
  obtain ⟨rfl, rfl⟩ := Prod.mk.inj (Except.ok.inj hp)
  exact ⟨[], rfl, h⟩

theorem fail {Q : List Token → α → Prop} (fault : ParseFault) (span : Span) : Consumes (fail fault span) Q :=
  fun _ _ _ _ hp => nomatch hp

theorem unexpected {Q : List Token → α → Prop} (t : Token) (expected : List String) :
    Consumes (unexpected t expected) Q :=
  fail _ _

/-- After a look at the next token, what a step does is told for inputs that show it. -/
theorem peek {f : Token → Parse β} {Q : List Token → β → Prop} (h : ∀ t, ConsumesAt t (f t) Q) :
    Consumes (peek >>= f) Q := by
  intro i b i' hi hp
  obtain ⟨t, j, hpeek, hf⟩ := run_bind_ok hp
  obtain ⟨rfl, -⟩ := peek_run hpeek
  exact h t j b i' hi hpeek hf

theorem map {p : Parse α} {f : α → β} {P : List Token → α → Prop} {Q : List Token → β → Prop} (hp : Consumes p P)
    (hf : ∀ ts a, P ts a → Q ts (f a)) : Consumes (f <$> p) Q := by
  rw [map_eq_pure_bind]
  exact hp.bind fun a ts ha => pure (by simpa using hf ts a ha)

/-- A span from the first token of a node on takes no token. -/
theorem spanFrom (start : Span) :
    Consumes (spanFrom start) fun ts span => ts = [] ∧ span.first = start.first := by
  intro i span i' _ hp
  obtain ⟨rfl, rfl⟩ := Prod.mk.inj (Except.ok.inj hp)
  refine ⟨[], rfl, rfl, ?_⟩
  cases i.last <;> rfl

theorem tooDeep {Q : List Token → α → Prop} : Consumes tooDeep Q := peek fun _ => .of (fail _ _)

end Consumes

/-- A token that the input shows and that is not its end is taken by `advance`. -/
theorem ConsumesAt.advance {t : Token} {f : Unit → Parse β} {Q : List Token → β → Prop}
    (ht : t.kind ≠ .endOfInput) (hf : t.kind.Genuine → Consumes (f ()) fun us b => Q (t :: us) b) :
    ConsumesAt t (advance >>= f) Q := by
  intro i b i' hi hshows h
  obtain ⟨⟨⟩, j, hadvance, hfb⟩ := run_bind_ok h
  rcases (peek_run hshows).2 with ⟨rest, hrest⟩ | hend
  · obtain ⟨-, rfl⟩ := Prod.mk.inj (Except.ok.inj hadvance)
    simp only [hrest] at hfb
    have hgenuine : Input.Genuine ⟨rest, some t.span⟩ := fun u hu => hi u (by simp [hrest, hu])
    obtain ⟨us, hus, hQ⟩ := hf (hi t (by simp [hrest])) _ b i' hgenuine hfb
    exact ⟨t :: us, by rw [hrest, List.cons_append]; exact congrArg _ hus, hQ⟩
  · exact absurd hend ht

/-- A second look gives the same token. -/
theorem ConsumesAt.peek {t : Token} {f : Token → Parse β} {Q : List Token → β → Prop} (h : ConsumesAt t (f t) Q) :
    ConsumesAt t (peek >>= f) Q := by
  intro i b i' hi hshows hp
  obtain ⟨u, j, hpeek, hf⟩ := run_bind_ok hp
  obtain ⟨rfl, rfl⟩ := Prod.mk.inj (Except.ok.inj (hpeek.symm.trans hshows))
  exact h j b i' hi hshows hf

/-- Two steps consume what each of them consumes, where the first token is known. -/
theorem ConsumesAt.bind {t : Token} {p : Parse α} {f : α → Parse β} {P : List Token → α → Prop}
    {Q : List Token → β → Prop} (hp : ConsumesAt t p P)
    (hf : ∀ a ts, P ts a → Consumes (f a) fun us b => Q (ts ++ us) b) : ConsumesAt t (p >>= f) Q := by
  intro i b i' hi hshows h
  obtain ⟨a, j, hpa, hfb⟩ := run_bind_ok h
  obtain ⟨ts, hts, hP⟩ := hp i a j hi hshows hpa
  obtain ⟨us, hus, hQ⟩ := hf a ts hP j b i' (hi.of_append hts) hfb
  exact ⟨ts ++ us, by rw [hts, hus, List.append_assoc], hQ⟩

/-! ### Single tokens -/

/-- Consumes a token of the kind, which has to come next: the common form of `expect` and `keyword`. -/
def tokenOf (kind : Token.Kind) (expected : List String) : Parse Token := do
  let t ← peek
  if t.kind = kind then
    advance
    return t
  else unexpected t expected

/-- A name is read from one token, which is its text. -/
theorem ConsumesAt.name (t : Token) : ConsumesAt t name fun ts n =>
    ts = [t] ∧ t.kind.Genuine ∧ t.kind.asName? = some n.value ∧ t.span = n.span := by
  refine .peek ?_
  split
  · rename_i text htext
    exact .advance (by rintro h; simp [h, Token.Kind.asName?] at htext) fun hgenuine =>
      .pure ⟨rfl, hgenuine, htext, rfl⟩
  · exact .of (.unexpected _ _)

namespace Consumes

theorem nextIs (sign : Punctuator) : Consumes (nextIs sign) fun ts _ => ts = [] :=
  peek fun _ => .of (pure rfl)

/-- A sign is consumed if it comes next. -/
theorem accept (sign : Punctuator) :
    Consumes (accept sign) fun ts o => match o with
      | some t => ts = [t] ∧ t.kind = .punctuator sign
      | none => ts = [] := by
  refine peek fun t => ?_
  split
  · rename_i hkind
    exact ConsumesAt.advance (by simp [hkind]) fun _ => pure ⟨rfl, hkind⟩
  · exact .of (pure rfl)

private theorem tokenOf {kind : Token.Kind} (h : kind ≠ .endOfInput) (expected : List String) :
    Consumes (tokenOf kind expected) fun ts t => ts = [t] ∧ t.kind = kind := by
  refine peek fun t => ?_
  split
  · rename_i hkind
    exact ConsumesAt.advance (hkind ▸ h) fun _ => pure ⟨rfl, hkind⟩
  · exact .of (unexpected _ _)

theorem expect (sign : Punctuator) : Consumes (expect sign) fun ts t => ts = [t] ∧ t.kind = .punctuator sign :=
  tokenOf (by simp) _

theorem keyword (word : String) : Consumes (keyword word) fun ts t => ts = [t] ∧ t.kind = .name word :=
  tokenOf (by simp) _

end Consumes

/-- Tokens of items that stand one after the other, with tokens in `N` after the last. -/
inductive Sequence (Q : List Token → α → Prop) (N : List Token → Prop) : List Token → List α → Prop where
  | nil {us : List Token} (h : N us) : Sequence Q N us []
  | cons {ts us : List Token} {a : α} {as : List α} (h : Q ts a) (rest : Sequence Q N us as) :
    Sequence Q N (ts ++ us) (a :: as)

namespace Consumes

/-- What a step of a repetition consumes: the tokens of an item, or what ends the repetition. -/
def StepOf (Q : List Token → α → Prop) (N : List Token → Prop) (ts : List Token) : Option α → Prop
  | some a => ts ≠ [] ∧ Q ts a
  | none => N ts

/-- Every item takes a token, so the bound on the number of items is not reached. -/
theorem repeatUpTo {step : Parse (Option α)} {Q : List Token → α → Prop} {N : List Token → Prop}
    (h : Consumes step (StepOf Q N)) (n : Nat) (i : Input) (as : List α) (i' : Input) (hi : Input.Genuine i)
    (hn : i.tokens.length < n) (hp : StateT.run (Parse.repeatUpTo step n) i = .ok (as, i')) :
    ∃ ts, i.tokens = ts ++ i'.tokens ∧ Sequence Q N ts as := by
  induction n generalizing i as with
  | zero => omega
  | succ n ih =>
    obtain ⟨o, j, hstep, hrest⟩ := run_bind_ok hp
    obtain ⟨ts, hts, ho⟩ := h i o j hi hstep
    cases o with
    | none =>
      obtain ⟨rfl, rfl⟩ := Prod.mk.inj (Except.ok.inj hrest)
      exact ⟨ts, hts, .nil ho⟩
    | some a =>
      obtain ⟨as', j', hmore, hpure⟩ := run_bind_ok hrest
      obtain ⟨rfl, rfl⟩ := Prod.mk.inj (Except.ok.inj hpure)
      have hpos : 0 < ts.length := List.length_pos_iff.2 ho.1
      have hlen := congrArg List.length hts
      rw [List.length_append] at hlen
      obtain ⟨us, hus, hseq⟩ := ih j as' (hi.of_append hts) (by omega) hmore
      exact ⟨ts ++ us, by rw [hts, hus, List.append_assoc], .cons ho.2 hseq⟩

/-- A repetition consumes the tokens of its items, and then what ends it. -/
theorem repeated {step : Parse (Option α)} {Q : List Token → α → Prop} {N : List Token → Prop}
    (h : Consumes step (StepOf Q N)) : Consumes (repeated step) (Sequence Q N) :=
  fun i as i' hi hp => repeatUpTo h _ i as i' hi (Nat.lt_succ_self _) hp

/-- Items between two signs, the span starting at the first. -/
structure Delimited (opening close : Punctuator) (allowEmpty : Bool) (Q : List Token → α → Prop) (ts : List Token)
    (r : List α × Span) : Prop where
  exists_tokens : ∃ o us, ts = o :: us ∧ o.kind = .punctuator opening ∧ r.2.first = o.span.first ∧
    Sequence Q (fun vs => ∃ c, vs = [c] ∧ c.kind = .punctuator close) us r.1
  nonempty : allowEmpty = false → r.1 ≠ []

/-- Items between two signs are consumed with the signs. -/
theorem delimited {opening close : Punctuator} {construct : String} {allowEmpty : Bool} {item : Parse α}
    {Q : List Token → α → Prop} (h : Consumes item fun ts a => ts ≠ [] ∧ Q ts a) :
    Consumes (delimited opening close construct allowEmpty item) (Delimited opening close allowEmpty Q) := by
  refine (expect opening).bind fun first ts hfirst => ?_
  refine (repeated (Q := Q) (N := fun vs => ∃ c, vs = [c] ∧ c.kind = .punctuator close) ?_).bind
    fun items us hitems => (spanFrom first.span).bind fun span vs hspan => ?_
  · refine peek fun t => ?_
    split
    · rename_i hkind
      exact ConsumesAt.advance (by simp [hkind]) fun _ => pure ⟨t, rfl, hkind⟩
    · split
      · exact .of (fail _ _)
      · exact .of (h.map fun _ _ ha => ha)
  · split
    · exact (fail _ _).bind (P := fun _ _ => False) fun _ _ h => h.elim
    · rename_i hempty
      refine pure ⟨⟨first, us, ?_, hfirst.2, hspan.2, hitems⟩, fun hallow => ?_⟩
      · simp [hfirst.1, hspan.1]
      · simpa [hallow] using hempty

end Consumes

/-- What stands behind a sign, if the sign is there. -/
def behind? (sign : Punctuator) (p : Parse α) : Parse (Option α) := do
  match ← accept sign with
  | some _ => some <$> p
  | none => return none

/-- What stands behind a sign is consumed with the sign, or nothing is. -/
theorem Consumes.behind? (sign : Punctuator) {p : Parse α} {Q : List Token → α → Prop} (h : Consumes p Q) :
    Consumes (behind? sign p) fun ts o => match o with
      | some a => ∃ t us, ts = t :: us ∧ t.kind = .punctuator sign ∧ Q us a
      | none => ts = [] := by
  refine (accept sign).bind fun o ts ho => ?_
  cases o with
  | none => exact pure (by simpa using ho)
  | some t => exact h.map fun us a ha => ⟨t, us, by simp [ho.1], ho.2, ha⟩

/-- The alias and the name of a field that begins with the name `first`. -/
def fieldNames (first : Name) : Parse (Option Name × Name) := do
  match ← accept .colon with
  | some _ => return (some first, ← name)
  | none => return (none, first)

/-- A selection set, if a brace opens one. -/
def selectionSet? (set : Parse SelectionSet) : Parse (Option SelectionSet) := do
  if ← nextIs .openBrace then some <$> set else return none

/-- What follows the names of a field. -/
def fieldRest (depth : Nat) (set : Parse SelectionSet) (first : Name) (names : Option Name × Name) :
    Parse Field := do
  let arguments ← arguments .anywhere depth
  let directives ← directives .anywhere depth
  let set ← selectionSet? set
  return ⟨names.1, names.2, arguments, directives, set, ← spanFrom first.span⟩

/-- A field in its three steps. -/
theorem field_eq (depth : Nat) (set : Parse SelectionSet) :
    field depth set = name >>= fun first => fieldNames first >>= fieldRest depth set first := by
  refine bind_congr fun first => ?_
  rw [fieldNames, bind_assoc]
  refine bind_congr fun o => ?_
  cases o with
  | none =>
    simp only [fieldRest, selectionSet?, bind_assoc, pure_bind]
    refine bind_congr fun arguments => bind_congr fun directives => bind_congr fun b => ?_
    cases b <;> rfl
  | some _ =>
    simp only [fieldRest, selectionSet?, bind_assoc, pure_bind]
    refine bind_congr fun name => bind_congr fun arguments => bind_congr fun directives => bind_congr fun b => ?_
    cases b <;> rfl

/-- The default value of a variable, if there is one. -/
def defaultValue? : Parse (Option Value) := do
  match ← accept .equals with
  | some _ => some <$> value .variableDefault maxDepth
  | none => return none

theorem variableDefinition_eq : variableDefinition = do
    let dollar ← expect .dollar
    let name ← name
    let _ ← expect .colon
    let type ← typeRef maxDepth
    let defaultValue ← defaultValue?
    let directives ← directives .constDirective maxDepth
    return ⟨name, dollar.span.merge name.span, type, defaultValue, directives, ← spanFrom dollar.span⟩ := by
  refine bind_congr fun dollar => bind_congr fun name => bind_congr fun _ => bind_congr fun type => ?_
  rw [defaultValue?, bind_assoc]
  refine bind_congr fun o => ?_
  cases o <;> rfl

/-- The name of an operation, if it has one. -/
def operationName? : Parse (Option Name) := do
  if (← peek).kind.asName?.isSome then some <$> name else return none

/-- What follows the name of an operation. -/
def operationRest (kind : OperationKind) (start : Span) (name : Option Name) : Parse Operation := do
  let definitions ← delimitedIf .openParen .closeParen "variable definitions" variableDefinition
  let directives ← directives .anywhere maxDepth
  let set ← selectionSet maxDepth
  return ⟨kind, name, definitions, directives, set, false, ← spanFrom start⟩

theorem keywordOperation_eq (kind : OperationKind) : keywordOperation kind =
    peek >>= fun start => advance >>= fun _ => operationName? >>= operationRest kind start.span := by
  refine bind_congr fun start => bind_congr fun _ => ?_
  rw [operationName?, bind_assoc]
  refine bind_congr fun t => ?_
  split <;> rfl

end GraphQL.Parse
