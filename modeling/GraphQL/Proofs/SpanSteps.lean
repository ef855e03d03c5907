import GraphQL.Proofs.SchemaSound
import GraphQL.Proofs.SyntaxTree
import GraphQL.Proofs.Tiling

/-!
# Where a node ends

A node ends where the token consumed last ends, so a statement about spans has to follow that token through a parse.
`After us p Q` says that a parse that goes well from an input behind the tokens `us` takes more of them, with all of
which `Q` holds of the result, and remembers the last of them. `Takes p g` is the case of nothing taken so far and
a result that is located as the trees `g`. A definition is a chain of steps (`Part.next`): the parts passed so far
are located from the start of the node on (`Part`), and what closes the chain gives the node its span
(`Part.node`).
-/

namespace GraphQL.Parse

open SyntaxTree

variable {α β : Type}

/-- An input behind the tokens `us`, the last of which it remembers. -/
structure Input.Behind (us : List Token) (i : Input) : Prop where
  genuine : Genuine i
  ordered : InOrder (us ++ i.tokens)
  last : us ≠ [] → i.last = us.getLast?.map (·.span)

/-- The tokens on the way from one input to another, the last of which is remembered. None of them is one after which
nothing is read. -/
structure Input.Passes (i : Input) (ts : List Token) (i' : Input) : Prop where
  tokens : i.tokens = ts ++ i'.tokens
  last : i'.last = (ts.getLast?.map (·.span)).or i.last
  inside : ∀ t ∈ ts, ¬ t.kind.IsLast

namespace Input

private theorem Passes.refl (i : Input) : Passes i [] i := ⟨rfl, rfl, by simp⟩

/-- The tokens on the way in two parts stand one after the other. -/
private theorem Passes.trans {i j k : Input} {ts us : List Token} (h : Passes i ts j) (h' : Passes j us k) :
    Passes i (ts ++ us) k := by
  refine ⟨by rw [h.tokens, h'.tokens, List.append_assoc], ?_, fun t ht => ?_⟩
  · rw [h'.last, h.last, List.getLast?_append, Option.map_or, Option.or_assoc]
  · exact (List.mem_append.1 ht).elim (h.inside t) (h'.inside t)

private theorem Behind.pass {us ts : List Token} {i i' : Input} (h : Behind us i) (hp : Passes i ts i') :
    Behind (us ++ ts) i' := by
  refine ⟨h.genuine.of_append hp.tokens, ?_, fun hne => ?_⟩
  · rw [List.append_assoc, ← hp.tokens]
    exact h.ordered
  · rw [hp.last, List.getLast?_append, Option.map_or]
    cases ts with
    | nil =>
      rw [List.append_nil] at hne
      exact h.last hne
    | cons t ts => simp [List.getLast?_cons]

/-- The token that is shown is the first, and it is no error. -/
theorem Shows.of_head? {i : Input} {t u : Token} (h : Shows i t) (hu : i.tokens.head? = some u) :
    u = t ∧ u.kind.isError = false := by
  obtain ⟨tokens, last⟩ := i
  obtain ⟨rest, rfl⟩ := List.head?_eq_some_iff.1 hu
  simp only [Shows, peek, StateT.run_bind, StateT.run_get, pure_bind] at h
  split at h
  · cases h
  · rename_i hkind
    simp only [StateT.run_pure] at h
    refine ⟨(Prod.mk.inj (Except.ok.inj h)).1, ?_⟩
    cases hu : u.kind with
    | error cause => exact absurd hu (hkind cause)
    | _ => rfl

/-- What an input is behind may be forgotten. -/
theorem Behind.afresh {us : List Token} {i : Input} (h : Behind us i) : Behind [] i :=
  ⟨h.genuine, h.ordered.sublist (List.sublist_append_right _ _), fun hne => absurd rfl hne⟩

end Input

/-- From behind the tokens `us`, takes more tokens; all of them stand in the relation to the result. -/
def After (us : List Token) (p : Parse α) (Q : List Token → α → Prop) : Prop :=
  ∀ i a i', Input.Behind us i → StateT.run p i = .ok (a, i') → ∃ ts, Input.Passes i ts i' ∧ Q (us ++ ts) a

/-- The same of inputs whose next token is `t`. -/
def AfterAt (us : List Token) (t : Token) (p : Parse α) (Q : List Token → α → Prop) : Prop :=
  ∀ i a i', Input.Behind us i → Input.Shows i t → StateT.run p i = .ok (a, i') →
    ∃ ts, Input.Passes i ts i' ∧ Q (us ++ ts) a

namespace After

variable {us : List Token}

theorem bind {p : Parse α} {f : α → Parse β} {P : List Token → α → Prop} {Q : List Token → β → Prop}
    (hp : After us p P) (hf : ∀ a vs, P vs a → After vs (f a) Q) : After us (p >>= f) Q := by
  intro i b i' hi h
  obtain ⟨a, j, hpa, hfb⟩ := run_bind_ok h
  obtain ⟨ts, hts, hP⟩ := hp i a j hi hpa
  obtain ⟨vs, hvs, hQ⟩ := hf a _ hP j b i' (hi.pass hts) hfb
  exact ⟨ts ++ vs, hts.trans hvs, by rwa [← List.append_assoc]⟩

/-- A step that stands for itself does the same behind any tokens. -/
theorem of_afresh {p : Parse α} {P Q : List Token → α → Prop} (hp : After [] p P)
    (hQ : ∀ a ts, P ts a → Q (us ++ ts) a) : After us p Q := by
  intro i a i' hi h
  obtain ⟨ts, hts, hP⟩ := hp i a i' hi.afresh h
  exact ⟨ts, hts, hQ a ts hP⟩

theorem mono {p : Parse α} {P Q : List Token → α → Prop} (hp : After us p P) (hPQ : ∀ ts a, P ts a → Q ts a) :
    After us p Q := by
  intro i a i' hi h
  obtain ⟨ts, hts, hP⟩ := hp i a i' hi h
  exact ⟨ts, hts, hPQ _ a hP⟩

theorem pure {Q : List Token → α → Prop} {a : α} (h : Q us a) : After us (pure a) Q := by
  intro i b i' _ hp
  obtain ⟨rfl, rfl⟩ := Prod.mk.inj (Except.ok.inj hp)
  exact ⟨[], .refl i, by rwa [List.append_nil]⟩

theorem map {p : Parse α} {f : α → β} {P : List Token → α → Prop} {Q : List Token → β → Prop}
    (hp : After us p P) (hf : ∀ ts a, P ts a → Q ts (f a)) : After us (f <$> p) Q := by
  rw [map_eq_pure_bind]
  exact hp.bind fun a ts ha => pure (hf ts a ha)

theorem fail {Q : List Token → α → Prop} (fault : ParseFault) (span : Span) : After us (fail fault span) Q :=
  fun _ _ _ _ hp => nomatch hp

theorem unexpected {Q : List Token → α → Prop} (t : Token) (expected : List String) :
    After us (unexpected t expected) Q :=
  fail _ _

theorem fail_bind {f : α → Parse β} {Q : List Token → β → Prop} (fault : ParseFault) (span : Span) :
    After us (Parse.fail fault span >>= f) Q :=
  (fail (Q := fun _ _ => False) fault span).bind fun _ _ h => h.elim

theorem peek {f : Token → Parse β} {Q : List Token → β → Prop} (h : ∀ t, AfterAt us t (f t) Q) :
    After us (peek >>= f) Q := by
  intro i b i' hi hp
  obtain ⟨t, j, hpeek, hf⟩ := run_bind_ok hp
  obtain ⟨rfl, -⟩ := peek_run hpeek
  exact h t j b i' hi hpeek hf

/-- The tokens passed so far stand in order. -/
theorem ordered {p : Parse α} {Q : List Token → α → Prop} (h : InOrder us → After us p Q) : After us p Q :=
  fun i a i' hi hp => h (hi.ordered.sublist (List.sublist_append_left _ _)) i a i' hi hp

/-- A node that starts at `start` ends with the last of the tokens. -/
theorem spanFrom (start : Span) (hus : us ≠ []) :
    After us (spanFrom start) fun vs span => vs = us ∧ ∃ last ∈ us.getLast?, span = start.through last.span := by
  intro i span i' hi hp
  obtain ⟨rfl, rfl⟩ := Prod.mk.inj (Except.ok.inj hp)
  refine ⟨[], .refl i, List.append_nil us, us.getLast hus, List.getLast?_eq_some_getLast hus, ?_⟩
  simp [hi.last hus, List.getLast?_eq_some_getLast hus]

theorem tooDeep {Q : List Token → α → Prop} : After us tooDeep Q := peek fun _ _ _ _ _ _ hp => nomatch hp

end After

namespace AfterAt

variable {us : List Token} {t : Token}

theorem of {p : Parse α} {Q : List Token → α → Prop} (h : After us p Q) : AfterAt us t p Q :=
  fun i a i' hi _ hp => h i a i' hi hp

theorem bind {p : Parse α} {f : α → Parse β} {P : List Token → α → Prop} {Q : List Token → β → Prop}
    (hp : AfterAt us t p P) (hf : ∀ a vs, P vs a → After vs (f a) Q) : AfterAt us t (p >>= f) Q := by
  intro i b i' hi hshows h
  obtain ⟨a, j, hpa, hfb⟩ := run_bind_ok h
  obtain ⟨ts, hts, hP⟩ := hp i a j hi hshows hpa
  obtain ⟨vs, hvs, hQ⟩ := hf a _ hP j b i' (hi.pass hts) hfb
  exact ⟨ts ++ vs, hts.trans hvs, by rwa [← List.append_assoc]⟩

/-- A token that the input shows and that is not its end is taken by `advance`. -/
theorem advance {f : Unit → Parse β} {Q : List Token → β → Prop} (ht : t.kind ≠ .endOfInput)
    (hf : t.kind.Genuine → After (us ++ [t]) (f ()) Q) : AfterAt us t (advance >>= f) Q := by
  intro i b i' hi hshows h
  obtain ⟨⟨⟩, j, hadvance, hfb⟩ := run_bind_ok h
  rcases (peek_run hshows).2 with ⟨rest, hrest⟩ | hend
  · obtain ⟨-, rfl⟩ := Prod.mk.inj (Except.ok.inj hadvance)
    simp only [hrest] at hfb
    have herror : t.kind.isError = false := (hshows.of_head? (by rw [hrest]; rfl)).2
    have hinside : ¬ t.kind.IsLast := by
      rintro (hend | hend)
      · exact ht hend
      · rw [herror] at hend
        cases hend
    have hpass : Input.Passes i [t] ⟨rest, some t.span⟩ := ⟨hrest, rfl, by simpa using hinside⟩
    obtain ⟨vs, hvs, hQ⟩ := hf (hi.genuine t (by simp [hrest])) _ b i' (hi.pass hpass) hfb
    exact ⟨[t] ++ vs, hpass.trans hvs, by rwa [← List.append_assoc]⟩
  · exact absurd hend ht

/-- A second look gives the same token. -/
theorem peek {f : Token → Parse β} {Q : List Token → β → Prop} (h : AfterAt us t (f t) Q) :
    AfterAt us t (peek >>= f) Q := by
  intro i b i' hi hshows hp
  obtain ⟨u, j, hpeek, hf⟩ := run_bind_ok hp
  obtain ⟨rfl, rfl⟩ := Prod.mk.inj (Except.ok.inj (hpeek.symm.trans hshows))
  exact h j b i' hi hshows hf

end AfterAt

/-- What a step consumes and what is passed are the same tokens. -/
theorem After.and {p : Parse α} {P Q : List Token → α → Prop} (h : After [] p P) (hc : Consumes p Q) :
    After [] p fun ts a => P ts a ∧ Q ts a := by
  intro i a i' hi hp
  obtain ⟨ts, hts, hP⟩ := h i a i' hi hp
  obtain ⟨us, hus, hQ⟩ := hc i a i' hi.genuine hp
  obtain rfl : ts = us := List.append_cancel_right (hts.tokens.symm.trans hus)
  exact ⟨ts, hts, hP, hQ⟩

/-- The first token that is passed is the one that was looked at. -/
theorem AfterAt.head {t : Token} {p : Parse α} {Q : List Token → α → Prop} (h : After [] p Q) :
    AfterAt [] t p fun ts a => Q ts a ∧ ∀ u ∈ ts.head?, u = t := by
  intro i a i' hi hshows hp
  obtain ⟨ts, hts, hQ⟩ := h i a i' hi hp
  refine ⟨ts, hts, hQ, fun u hu => ?_⟩
  obtain ⟨rest, rfl⟩ := List.head?_eq_some_iff.1 hu
  have hhead : i.tokens.head? = some u := by simp [hts.tokens]
  exact (hshows.of_head? hhead).1

/-- Takes tokens in which the trees of the result are located. -/
def Takes (p : Parse α) (g : α → List SyntaxTree) : Prop := After [] p fun ts a => Located (g a) ts

/-- Trees that are located in the tokens, the first of which starts where a node does. -/
structure Part (start : Span) (trees : List SyntaxTree) (ts : List Token) : Prop where
  located : Located trees ts
  head : ∃ first ∈ ts.head?, first.span.first = start.first

/-- A token is a node of its own. -/
theorem part_token {t : Token} {terminal : Terminal} (h : t.terminal = terminal) :
    Part t.span [.node t.span [.leaf terminal]] [t] :=
  ⟨located_node.2 ⟨h ▸ .singleton t, t, rfl, t, rfl, rfl⟩, t, rfl, rfl⟩

theorem part_leaf {t : Token} {terminal : Terminal} (h : t.terminal = terminal) :
    Part t.span [.leaf terminal] [t] :=
  ⟨h ▸ .singleton t, t, rfl, rfl⟩

theorem part_sign {t : Token} {p : Punctuator} (h : t.kind = .punctuator p) : Part t.span [.sign p] [t] :=
  part_leaf (terminal_of_sign h)

theorem part_word {t : Token} {w : String} (h : t.kind = .name w) (hw : wordKind w = .name w) :
    Part t.span [.word w] [t] :=
  part_leaf (terminal_of_keyword h hw)

/-- A token that is taken makes up a node. -/
theorem token_takes {t : Token} {terminal : Terminal} {a : α} {g : α → List SyntaxTree}
    (hne : t.kind ≠ .endOfInput) (hg : g a = [.node t.span [.leaf terminal]])
    (ht : t.kind.Genuine → t.terminal = terminal) :
    AfterAt [] t (advance >>= fun _ => pure a) fun ts b => Located (g b) ts := by
  refine .advance hne fun hgenuine => .pure ?_
  rw [hg]
  exact (part_token (ht hgenuine)).located

/-- A node starts where it is said to. -/
theorem Part.of_node {span : Span} {parts : List SyntaxTree} {ts : List Token} (h : Located [.node span parts] ts) :
    Part span [.node span parts] ts := by
  obtain ⟨first, hfirst, last, -, hspan⟩ := (located_node.1 h).2
  exact ⟨h, first, hfirst, by rw [hspan, Span.through]⟩

namespace Part

variable {start : Span} {trees trees' : List SyntaxTree} {ts us : List Token}

private theorem ne_nil (h : Part start trees ts) : ts ≠ [] := by
  rintro rfl
  obtain ⟨first, hfirst, -⟩ := h.head
  cases hfirst

theorem append (h : Part start trees ts) (h' : Located trees' us) : Part start (trees ++ trees') (ts ++ us) := by
  obtain ⟨first, hfirst, hstart⟩ := h.head
  exact ⟨h.located.append h', first, by simpa using .inl hfirst, hstart⟩

/-- A node that starts with the first token covers all that have been taken. -/
private theorem covers (h : Part start trees ts) {span : Span}
    (hspan : ∃ last ∈ ts.getLast?, span = start.through last.span) : span.Covers ts := by
  obtain ⟨first, hfirst, hstart⟩ := h.head
  obtain ⟨last, hlast, rfl⟩ := hspan
  exact ⟨first, hfirst, last, hlast, by rw [Span.through, Span.through, hstart]⟩

/-- The next part of a node. -/
theorem next {p : Parse α} {f : α → Parse β} {g : α → List SyntaxTree} {Q : List Token → β → Prop}
    (h : Part start trees us) (hp : Takes p g) (hf : ∀ a vs, Part start (trees ++ g a) vs → After vs (f a) Q) :
    After us (p >>= f) Q :=
  (hp.of_afresh fun _ _ ha => h.append ha).bind hf

/-- The parts make up a node, which takes its span from its start and the token consumed last. -/
theorem node {make : Span → α} {Q : List Token → α → Prop} (h : Part start trees us)
    (hQ : ∀ s, Located [.node s trees] us → Q us (make s)) :
    After us (spanFrom start >>= fun s => Pure.pure (make s)) Q := by
  refine (After.spanFrom start h.ne_nil).bind fun s vs hs => .pure ?_
  obtain ⟨rfl, hlast⟩ := hs
  exact hQ s (located_node.2 ⟨h.located, h.covers hlast⟩)

end Part

/-! ### Single tokens -/

private theorem name_taken : After [] name fun ts n =>
    ∃ t, ts = [t] ∧ t.kind ≠ .endOfInput ∧ t.terminal = Terminal.word n.value ∧ t.span = n.span := by
  refine .peek fun t => ?_
  split
  · rename_i text htext
    have hne : t.kind ≠ .endOfInput := by
      rintro h
      simp [h, Token.Kind.asName?] at htext
    refine .advance hne fun hgenuine => .pure ⟨t, rfl, hne, ?_, rfl⟩
    rw [Token.terminal, hgenuine.eq_wordKind htext, terminal_wordKind]
  · exact .of (.unexpected _ _)

private theorem located_name {t : Token} {n : Name} (ht : t.terminal = Terminal.word n.value)
    (hspan : t.span = n.span) : Located [n.tree] [t] := by
  rw [Name.tree, ← hspan]
  exact (part_token ht).located

theorem name_takes : Takes name fun n => [n.tree] := by
  refine name_taken.mono fun ts n hn => ?_
  obtain ⟨t, rfl, -, ht, hspan⟩ := hn
  exact located_name ht hspan

theorem accept_taken (p : Punctuator) : After [] (accept p) fun ts o => match o with
    | some t => ts = [t] ∧ t.kind = .punctuator p
    | none => ts = [] := by
  refine .peek fun t => ?_
  split
  · rename_i hkind
    exact .advance (by simp [hkind]) fun _ => .pure ⟨rfl, hkind⟩
  · exact .of (.pure rfl)

theorem accept_takes (p : Punctuator) : Takes (accept p) fun o => o.toList.map fun _ => .sign p := by
  refine (accept_taken p).mono fun ts o ho => ?_
  cases o with
  | none =>
    obtain rfl : ts = [] := ho
    exact .nil
  | some t =>
    obtain ⟨rfl, hkind⟩ := ho
    exact (part_sign hkind).located

private theorem tokenOf_taken {kind : Token.Kind} (h : kind ≠ .endOfInput) (expected : List String) :
    After [] (tokenOf kind expected) fun ts t => ts = [t] ∧ t.kind = kind := by
  refine .peek fun t => ?_
  split
  · rename_i hkind
    exact .advance (hkind ▸ h) fun _ => .pure ⟨rfl, hkind⟩
  · exact .of (.unexpected _ _)

theorem expect_taken (p : Punctuator) : After [] (expect p) fun ts t => ts = [t] ∧ t.kind = .punctuator p :=
  tokenOf_taken (by simp) _

theorem expect_starts (p : Punctuator) : After [] (expect p) fun ts t => Part t.span [.sign p] ts := by
  refine (expect_taken p).mono fun ts t ht => ?_
  obtain ⟨rfl, hkind⟩ := ht
  exact part_sign hkind

theorem expect_takes (p : Punctuator) : Takes (expect p) fun _ => [.sign p] :=
  (expect_starts p).mono fun _ _ h => h.located

theorem keyword_starts {w : String} (hw : wordKind w = .name w) :
    After [] (keyword w) fun ts t => Part t.span [.word w] ts := by
  have htaken : After [] (keyword w) fun ts t => ts = [t] ∧ t.kind = .name w := tokenOf_taken (by simp) _
  refine htaken.mono fun ts t ht => ?_
  obtain ⟨rfl, hkind⟩ := ht
  exact part_word hkind hw

theorem keyword_takes {w : String} (hw : wordKind w = .name w) : Takes (keyword w) fun _ => [.word w] :=
  (keyword_starts hw).mono fun _ _ h => h.located

/-- A look at the next sign decides what is done next. -/
theorem nextIs_bind {p : Punctuator} {us : List Token} {f : Bool → Parse β} {Q : List Token → β → Prop}
    (h : ∀ b, After us (f b) Q) : After us (nextIs p >>= f) Q := by
  rw [nextIs, bind_assoc]
  refine .peek fun t => .of ?_
  rw [pure_bind]
  exact h _

/-- A keyword that comes next is taken by the step behind it. -/
theorem nextIsKeyword_after {w : String} {us : List Token} {f : Bool → Parse β} {Q : List Token → β → Prop}
    (htrue : ∀ t : Token, t.kind = .name w → AfterAt us t (f true) Q) (hfalse : After us (f false) Q) :
    After us (nextIsKeyword w >>= f) Q := by
  rw [nextIsKeyword, bind_assoc]
  refine .peek fun t => ?_
  rw [pure_bind]
  by_cases ht : t.kind = .name w
  · rw [decide_eq_true ht]
    exact htrue t ht
  · rw [decide_eq_false ht]
    exact .of hfalse

/-- A name behind its dollar sign is one node with it. -/
theorem variable_after {dollar : Token} (hdollar : dollar.kind = .punctuator .dollar) {f : Name → Parse β}
    {Q : List Token → β → Prop}
    (hf : ∀ n vs, Part dollar.span [VariableUse.tree ⟨n, dollar.span.merge n.span⟩] vs → After vs (f n) Q) :
    After [dollar] (name >>= f) Q := by
  have hname : After [dollar] name fun vs n => ∃ t, vs = [dollar, t] ∧ t.kind ≠ .endOfInput ∧
      t.terminal = Terminal.word n.value ∧ t.span = n.span := by
    refine name_taken.of_afresh fun n ts hn => ?_
    obtain ⟨t, rfl, ht⟩ := hn
    exact ⟨t, rfl, ht⟩
  refine hname.bind fun n vs hn => .ordered fun hordered => hf n vs ?_
  obtain ⟨t, rfl, hne, ht, hspan⟩ := hn
  have hstop : dollar.span.stop.offset ≤ t.span.first.offset :=
    (List.pairwise_cons.1 hordered.apart).1 t (by simp)
  have hproper := hordered.proper t (by simp) hne
  have hproper' := hordered.proper dollar (by simp) (by simp [hdollar])
  -- the tokens stand apart, so the smallest span over both goes from the one to the other
  have hmerge : dollar.span.merge n.span = dollar.span.through t.span := by
    rw [← hspan, Span.merge, Span.through, if_neg (by omega), if_pos (by omega)]
  refine ⟨?_, dollar, rfl, rfl⟩
  rw [VariableUse.tree, hmerge]
  exact located_node.2 ⟨(part_sign hdollar).located.append (located_name ht hspan), dollar, rfl, t, rfl, rfl⟩

private theorem After.repeatUpTo {step : Parse (Option α)} {Q : List Token → α → Prop} {N : List Token → Prop}
    (h : After [] step (Consumes.StepOf Q N)) {n : Nat} {i i' : Input} {as : List α} (hi : Input.Behind [] i)
    (hn : i.tokens.length < n) (hp : StateT.run (Parse.repeatUpTo step n) i = .ok (as, i')) :
    ∃ ts, Input.Passes i ts i' ∧ Sequence Q N ts as := by
  induction n generalizing i as with
  | zero => omega
  | succ n ih =>
    obtain ⟨o, j, hstep, hrest⟩ := run_bind_ok hp
    obtain ⟨ts, hts, ho⟩ := h i o j hi hstep
    cases o with
    | none =>
      obtain ⟨rfl, rfl⟩ := Prod.mk.inj (Except.ok.inj hrest)
      exact ⟨ts, hts, .nil ho⟩
    | some a =>
      obtain ⟨as', j', hmore, hpure⟩ := run_bind_ok hrest
      obtain ⟨rfl, rfl⟩ := Prod.mk.inj (Except.ok.inj hpure)
      -- the item took a token, so that the bound is not reached
      have hpos : 0 < ts.length := List.length_pos_iff.2 ho.1
      have hlen := congrArg List.length hts.tokens
      rw [List.length_append] at hlen
      obtain ⟨us, hus, hseq⟩ := ih (hi.pass hts).afresh (by omega) hmore
      exact ⟨ts ++ us, hts.trans hus, .cons ho.2 hseq⟩

theorem After.repeated {step : Parse (Option α)} {Q : List Token → α → Prop} {N : List Token → Prop}
    (h : After [] step (Consumes.StepOf Q N)) : After [] (repeated step) (Sequence Q N) :=
  fun _ _ _ hi hp => h.repeatUpTo hi (Nat.lt_succ_self _) hp

/-- Each item of a sequence has a stretch of its tokens. -/
theorem Sequence.exists_stretch {Q : List Token → α → Prop} {N : List Token → Prop} {ts : List Token}
    {as : List α} (h : Sequence Q N ts as) : ∀ a ∈ as, ∃ before us after, ts = before ++ us ++ after ∧ Q us a := by
  induction h with
  | nil => simp
  | @cons us vs a as ha _ ih =>
    refine List.forall_mem_cons.2 ⟨⟨[], us, vs, rfl, ha⟩, fun b hb => ?_⟩
    obtain ⟨before, ws, after, rfl, hb⟩ := ih b hb
    exact ⟨us ++ before, ws, after, by simp only [List.append_assoc], hb⟩

/-- Items in sequence are located one after the other. -/
theorem Sequence.located {Q : List Token → α → Prop} {N : List Token → Prop} {g : α → List SyntaxTree}
    {e : List SyntaxTree} {ts : List Token} {as : List α} (h : Sequence Q N ts as)
    (hQ : ∀ ts a, Q ts a → Located (g a) ts) (hN : ∀ ts, N ts → Located e ts) :
    Located (as.flatMap g ++ e) ts := by
  induction h with
  | nil h => exact hN _ h
  | cons h _ ih =>
    rw [List.flatMap_cons, List.append_assoc]
    exact (hQ _ _ h).append ih

/-- The trees of repeated items are located in their tokens. -/
theorem repeated_takes {step : Parse (Option α)} {g : α → List SyntaxTree} {e : List SyntaxTree}
    (h : After [] step (Consumes.StepOf (fun ts a => Located (g a) ts) (Located e))) :
    Takes (repeated step) fun as => as.flatMap g ++ e :=
  (After.repeated h).mono fun _ _ has => has.located (fun _ _ h => h) fun _ h => h

section
variable {item : Parse α} {tree : α → SyntaxTree}

/-- Items between two signs are located as a node that has the span of both. -/
theorem delimited_takes {opening close : Punctuator} {construct : String} {allowEmpty : Bool}
    (h : Takes item fun a => [tree a]) (htree : ∀ a, (tree a).TakesToken) :
    After [] (delimited opening close construct allowEmpty item) fun ts r =>
      Located [.node r.2 (between opening close (r.1.map tree))] ts ∧ (allowEmpty = false → r.1 ≠ []) := by
  refine (expect_starts opening).bind fun first ts hfirst => hfirst.next
    (repeated_takes (g := fun a => [tree a]) (e := [.sign close]) ?_) fun items us hitems => ?_
  · refine .peek fun t => ?_
    split
    · rename_i hkind
      exact .advance (by simp [hkind]) fun _ => .pure (part_sign hkind).located
    · split
      · exact .of (.fail _ _)
      · exact .of (h.map fun ts a ha => ⟨Located.ne_nil ha (htree a), ha⟩)
  · rw [← List.append_assoc, ← List.map_eq_flatMap] at hitems
    refine (After.spanFrom first.span hitems.ne_nil).bind fun span vs hspan => ?_
    obtain ⟨rfl, hlast⟩ := hspan
    split
    · exact .fail_bind _ _
    · rename_i hempty
      refine .pure ⟨located_node.2 ⟨hitems.located, hitems.covers hlast⟩, fun hallow => ?_⟩
      simpa [hallow] using hempty

theorem delimitedIf_takes {opening close : Punctuator} {construct : String} (h : Takes item fun a => [tree a])
    (htree : ∀ a, (tree a).TakesToken) :
    Takes (delimitedIf opening close construct item) (group opening close tree) := by
  refine nextIs_bind fun b => ?_
  split
  · refine (delimited_takes h htree).bind fun r ts hr => .pure ?_
    rw [group, if_neg (hr.2 rfl)]
    exact (located_node.1 hr.1).1
  · exact .pure .nil

/-- What stands behind a sign, if the sign is there. -/
theorem behind?_takes {g : α → List SyntaxTree} (h : Takes item g) (p : Punctuator) :
    Takes (behind? p item) fun o => o.toList.flatMap fun a => [.sign p] ++ g a := by
  refine (accept_taken p).bind fun o ts ho => ?_
  cases o with
  | none =>
    obtain rfl : ts = [] := ho
    exact .pure .nil
  | some t =>
    obtain ⟨rfl, hkind⟩ := ho
    refine (h.of_afresh fun a us ha => ?_).map (fun vs a ha => ?_) (P := fun vs a => Located ([.sign p] ++ g a) vs)
    · exact (part_sign hkind).located.append ha
    · simpa using ha

/-- Items with separators, one of which may stand in front. -/
theorem listed_takes (h : Takes item fun a => [tree a]) (p : Punctuator) :
    After [] (Parse.listed p item) fun ts as => as ≠ [] ∧ Located (SyntaxTree.listed p tree as) ts := by
  have hleading : After [] (accept p) fun ts _ => Located [.optional (Terminal.sign p)] ts := by
    refine (accept_taken p).mono fun ts o ho => ?_
    cases o with
    | none =>
      obtain rfl : ts = [] := ho
      exact .skipped _ .nil
    | some t =>
      obtain ⟨rfl, hkind⟩ := ho
      rw [← terminal_of_sign hkind]
      exact .taken t .nil
  have hstep : After [] (behind? p item)
      (Consumes.StepOf (fun ts a => Located [.sign p, tree a] ts) (Located [])) := by
    refine (behind?_takes h p).mono fun ts o ho => ?_
    cases o with
    | none => exact ho
    | some a =>
      have hsign : Located [.sign p, tree a] ts := by simpa using ho
      exact ⟨hsign.ne_nil trivial, hsign⟩
  refine hleading.bind fun _ ts hts => ?_
  have hitem : After ts item fun us a => Located ([.optional (Terminal.sign p)] ++ [tree a]) us :=
    h.of_afresh fun a us ha => hts.append ha
  refine hitem.bind fun first us hfirst => ?_
  have hrest : After us (repeated (behind? p item)) fun vs as =>
      Located ([.optional (Terminal.sign p)] ++ [tree first] ++ as.flatMap fun b => [.sign p, tree b]) vs :=
    (repeated_takes hstep).of_afresh fun as vs has => by simpa using hfirst.append has
  exact hrest.bind fun rest vs hlocated => .pure ⟨by simp, hlocated⟩

end

end GraphQL.Parse
