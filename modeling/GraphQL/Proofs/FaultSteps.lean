import GraphQL.Proofs.ParseAccepts
import GraphQL.Proofs.SchemaSteps
import GraphQL.Proofs.SyntaxTree
import GraphQL.Proofs.Tiling

/-!
# Where a parse stops

A parse that fails has found its fault at some tokens: an error token that came up next, or a stretch of tokens that
are no errors (`ParseError.PlacedIn`). `Yields ts us p Q` says this of a parse step `p` that goes on from behind the
tokens `us` of the source's tokens `ts`; where the step goes well, it is still within `ts` and `Q` holds of the
result. The tokens behind are kept because a construct that must not be empty is found to be so only behind it.
-/

namespace GraphQL

/-- What a fault of the grammar speaks of, besides its own place, are tokens. -/
def ParseFault.PointsInto (ts : List Token) : ParseFault → Prop
  | .lexical _ => False
  | .unclosed _ _ opened => ∃ t ∈ ts, t.span = opened
  | _ => True

/-- An error is that of an error token, or it covers tokens that are no errors. -/
inductive ParseError.PlacedIn (ts : List Token) : ParseError → Prop where
  | lexical {cause : LexicalError} {span : Span} (mem : ⟨.error cause, span⟩ ∈ ts) : PlacedIn ts ⟨.lexical cause, span⟩
  | grammar {fault : ParseFault} {span : Span} {before us after : List Token} (split : ts = before ++ us ++ after)
    (covers : span.Covers us) (sound : ∀ t ∈ us, t.kind.isError = false) (points : fault.PointsInto ts) :
    PlacedIn ts ⟨fault, span⟩

namespace Parse

variable {α β : Type} {ts us : List Token}

/-- What is left of the tokens `ts` behind `us`, with the end still to come. -/
structure Input.Within (ts us : List Token) (i : Input) : Prop where
  split : ts = us ++ i.tokens
  last : us ≠ [] → i.last = us.getLast?.map (·.span)
  inside : ∀ t ∈ us, ¬ t.kind.IsLast
  ends : ∃ t ∈ i.tokens, t.kind.IsLast

/-- A step from behind `us` goes on within the tokens with a result for which `Q` holds, or it stops at a place in
them. -/
def ComesTo (ts us : List Token) (Q : α → Prop) : Except ParseError (α × Input) → Prop
  | .ok (a, i) => Q a ∧ ∃ vs, us <+: vs ∧ Input.Within ts vs i
  | .error e => e.PlacedIn ts

private theorem ComesTo.weaken {vs : List Token} {Q : α → Prop} {r : Except ParseError (α × Input)}
    (h : ComesTo ts vs Q r) (hvs : us <+: vs) : ComesTo ts us Q r := by
  cases r with
  | error e => exact h
  | ok r =>
    obtain ⟨hQ, ws, hws, hi⟩ := h
    exact ⟨hQ, ws, hvs.trans hws, hi⟩

/-- What a step comes to on inputs of which `C` holds. -/
def StaysIf (C : Input → Prop) (ts us : List Token) (p : Parse α) (Q : α → Prop) : Prop :=
  ∀ i, Input.Within ts us i → C i → ComesTo ts us Q (StateT.run p i)

def Yields (ts us : List Token) (p : Parse α) (Q : α → Prop) : Prop := StaysIf (fun _ => True) ts us p Q

abbrev Stays (ts us : List Token) (p : Parse α) : Prop := Yields ts us p fun _ => True

/-- The same of inputs whose next token is `t`. -/
def StaysAt (ts us : List Token) (t : Token) (p : Parse α) (Q : α → Prop) : Prop :=
  StaysIf (·.tokens.head? = some t) ts us p Q

private theorem run_peek_error {t : Token} {cause : LexicalError} (h : t.kind = .error cause) (rest : List Token)
    (last : Option Span) : StateT.run peek ⟨t :: rest, last⟩ = .error ⟨.lexical cause, t.span⟩ := by
  simp only [peek, StateT.run_bind, StateT.run_get, pure_bind, h]
  rfl

/-- Two steps stay within the tokens if the second does from wherever the first may come to. -/
theorem StaysIf.bind {C : Input → Prop} {p : Parse α} {f : α → Parse β} {P : α → Prop} {Q : β → Prop}
    (hp : StaysIf C ts us p P) (hf : ∀ a vs, us <+: vs → P a → Yields ts vs (f a) Q) :
    StaysIf C ts us (p >>= f) Q := by
  intro i hi hC
  have hp := hp i hi hC
  rw [StateT.run_bind]
  cases hrun : StateT.run p i with
  | error e =>
    rw [hrun] at hp
    exact hp
  | ok r =>
    obtain ⟨a, i'⟩ := r
    rw [hrun] at hp
    obtain ⟨hP, vs, hvs, hi'⟩ := hp
    exact (hf a vs hvs hP i' hi' trivial).weaken hvs

/-- A step that stays within the tokens wherever it starts may be taken where the next token is known. -/
theorem StaysAt.of {t : Token} {p : Parse α} {Q : α → Prop} (h : Yields ts us p Q) : StaysAt ts us t p Q :=
  fun i hi _ => h i hi trivial

namespace Yields

variable {Q : α → Prop}

theorem mono {P : α → Prop} {p : Parse α} (h : Yields ts us p P) (hPQ : ∀ a, P a → Q a) : Yields ts us p Q := by
  intro i hi hC
  have h := h i hi hC
  cases hrun : StateT.run p i with
  | error e =>
    rw [hrun] at h
    exact h
  | ok r =>
    rw [hrun] at h
    exact ⟨hPQ _ h.1, h.2⟩

theorem pure {a : α} (h : Q a) : Yields ts us (pure a) Q := fun _ hi _ => ⟨h, us, List.prefix_rfl, hi⟩

/-- The same, whatever the first step gives. -/
theorem next {p : Parse α} {f : α → Parse β} {R : β → Prop} (hp : Stays ts us p) (hf : ∀ a vs, Yields ts vs (f a) R) :
    Yields ts us (p >>= f) R :=
  hp.bind fun a vs _ _ => hf a vs

/-- What comes behind a step that never goes on does not matter. -/
theorem stop_bind {p : Parse α} {f : α → Parse β} {R : β → Prop} (h : Yields ts us p fun _ => False) :
    Yields ts us (p >>= f) R :=
  h.bind fun _ _ _ hfalse => hfalse.elim

theorem map {P : α → Prop} {f : α → β} {R : β → Prop} {p : Parse α} (h : Yields ts us p P) (hf : ∀ a, P a → R (f a)) :
    Yields ts us (f <$> p) R := by
  rw [map_eq_pure_bind]
  exact h.bind fun a _ _ ha => pure (hf a ha)

/-- A fault may be found at any stretch of the tokens that holds no error. -/
theorem fail {fault : ParseFault} {span : Span} {before vs after : List Token} (hsplit : ts = before ++ vs ++ after)
    (hcovers : span.Covers vs) (hsound : ∀ t ∈ vs, t.kind.isError = false) (hpoints : fault.PointsInto ts) :
    Yields ts us (fail fault span) Q :=
  fun _ _ _ => .grammar hsplit hcovers hsound hpoints

/-- Most faults are found at one token. -/
theorem fail_at {fault : ParseFault} {t : Token} (ht : t ∈ ts) (hsound : t.kind.isError = false)
    (hpoints : fault.PointsInto ts) : Yields ts us (Parse.fail fault t.span) Q := by
  obtain ⟨before, after, hsplit⟩ := List.append_of_mem ht
  rw [List.append_cons] at hsplit
  exact fail hsplit ⟨t, rfl, t, rfl, rfl⟩ (by simpa using hsound) hpoints

theorem unexpected {t : Token} (ht : t ∈ ts) (hsound : t.kind.isError = false) (expected : List String) :
    Yields ts us (unexpected t expected) Q :=
  fail_at ht hsound trivial

/-- A look at the next token shows one of the tokens, unless it is an error. -/
theorem peek {f : Token → Parse α} (h : ∀ t ∈ ts, t.kind.isError = false → StaysAt ts us t (f t) Q) :
    Yields ts us (peek >>= f) Q := by
  intro i hi _
  obtain ⟨tokens, last⟩ := i
  have hsplit := hi.split
  cases tokens with
  | nil =>
    obtain ⟨t, ht, -⟩ := hi.ends
    cases ht
  | cons t rest =>
    have ht : t ∈ ts := by simp [hsplit]
    cases hkind : t.kind with
    | error cause =>
      have hlexical : (⟨.error cause, t.span⟩ : Token) ∈ ts := hkind ▸ ht
      rw [StateT.run_bind, run_peek_error hkind]
      exact .lexical hlexical
    | _ =>
      rw [run_bind_of_ok (run_peek_cons (by simp [hkind]) rest last)]
      exact h t ht (by rw [hkind]; rfl) _ hi rfl

/-- A node that is complete takes its span. -/
theorem spanFrom (start : Span) (hus : us ≠ []) :
    Yields ts us (spanFrom start) fun span => ∃ last ∈ us.getLast?, span = start.through last.span := by
  intro i hi _
  refine ⟨⟨us.getLast hus, List.getLast?_eq_some_getLast hus, ?_⟩, us, List.prefix_rfl, hi⟩
  simp [hi.last hus, List.getLast?_eq_some_getLast hus]

theorem node {start : Span} {make : Span → α} :
    Stays ts us (Parse.spanFrom start >>= fun s => Pure.pure (make s)) :=
  fun _ hi _ => ⟨trivial, us, List.prefix_rfl, hi⟩

/-- What was passed so far begins the tokens, and no error is among it. -/
theorem behind {p : Parse α} (h : us <+: ts → (∀ t ∈ us, t.kind.isError = false) → Yields ts us p Q) :
    Yields ts us p Q := by
  intro i hi hC
  refine h ⟨i.tokens, hi.split.symm⟩ (fun t ht => ?_) i hi hC
  exact Bool.eq_false_iff.2 fun herror => hi.inside t ht (.inr herror)

theorem tooDeep : Yields ts us tooDeep Q := peek fun _ ht hsound => .of (fail_at ht hsound trivial)

end Yields

namespace StaysAt

variable {t : Token} {Q : β → Prop}

/-- A token that is not the end is consumed. -/
theorem advance {f : Unit → Parse β} (ht : t.kind ≠ .endOfInput) (hsound : t.kind.isError = false)
    (hf : Yields ts (us ++ [t]) (f ()) Q) : StaysAt ts us t (advance >>= f) Q := by
  intro i hi hhead
  obtain ⟨tokens, last⟩ := i
  obtain ⟨rest, rfl⟩ := List.head?_eq_some_iff.1 hhead
  have hinside : ¬ t.kind.IsLast := by
    rintro (hend | herror)
    · exact ht hend
    · rw [hsound] at herror
      cases herror
  have hnext : Input.Within ts (us ++ [t]) ⟨rest, some t.span⟩ := by
    refine ⟨by simp [hi.split], fun _ => by simp, fun u hu => ?_, ?_⟩
    · rcases List.mem_append.1 hu with hu | hu
      · exact hi.inside u hu
      · rwa [List.mem_singleton.1 hu]
    · obtain ⟨u, hu, hlast⟩ := hi.ends
      rcases List.mem_cons.1 hu with rfl | hu
      · exact absurd hlast hinside
      · exact ⟨u, hu, hlast⟩
  exact (hf _ hnext trivial).weaken (List.prefix_append us [t])

/-- A second look shows the same token. -/
theorem peek {f : Token → Parse β} (hsound : t.kind.isError = false) (h : StaysAt ts us t (f t) Q) :
    StaysAt ts us t (peek >>= f) Q := by
  intro i hi hhead
  obtain ⟨tokens, last⟩ := i
  obtain ⟨rest, rfl⟩ := List.head?_eq_some_iff.1 hhead
  have hkind : ∀ cause, t.kind ≠ .error cause := fun cause herror => by
    rw [herror] at hsound
    cases hsound
  rw [run_bind_of_ok (run_peek_cons hkind rest last)]
  exact h _ hi rfl

end StaysAt

/-! ### Single tokens -/

theorem ne_endOfInput_of_asName? {t : Token} {text : String} (h : t.kind.asName? = some text) :
    t.kind ≠ .endOfInput := by
  intro hend
  simp [hend, Token.Kind.asName?] at h

theorem name_stays : Stays ts us name := by
  refine .peek fun t ht hsound => ?_
  split
  · rename_i text htext
    exact .advance (ne_endOfInput_of_asName? htext) hsound (.pure trivial)
  · exact .of (.unexpected ht hsound _)

/-- Looking for a sign stays within the tokens. -/
theorem accept_stays (p : Punctuator) : Stays ts us (accept p) := by
  refine .peek fun t ht hsound => ?_
  split
  · rename_i hkind
    exact .advance (by simp [hkind]) hsound (.pure trivial)
  · exact .of (.pure trivial)

section
variable {p : Punctuator} {Q : β → Prop}

/-- The sign that is consumed is behind what follows. -/
theorem tokenOf_bind {kind : Token.Kind} (hne : kind ≠ .endOfInput) {expected : List String} {f : Token → Parse β}
    (h : ∀ t ∈ ts, t.kind.isError = false → Yields ts (us ++ [t]) (f t) Q) :
    Yields ts us (tokenOf kind expected >>= f) Q := by
  rw [tokenOf, bind_assoc]
  refine .peek fun t ht hsound => ?_
  split
  · rename_i hkind
    simp only [bind_assoc, pure_bind]
    exact .advance (hkind ▸ hne) hsound (h t ht hsound)
  · exact .of (.stop_bind (.unexpected ht hsound _))

theorem expect_bind {f : Token → Parse β}
    (h : ∀ t ∈ ts, t.kind.isError = false → Yields ts (us ++ [t]) (f t) Q) : Yields ts us (expect p >>= f) Q :=
  tokenOf_bind (by simp) h

theorem keyword_bind {w : String} {f : Token → Parse β}
    (h : ∀ t ∈ ts, t.kind.isError = false → Yields ts (us ++ [t]) (f t) Q) : Yields ts us (keyword w >>= f) Q :=
  tokenOf_bind (by simp) h

theorem nextIs_bind_stays {f : Bool → Parse β} (h : ∀ b, Yields ts us (f b) Q) : Yields ts us (nextIs p >>= f) Q := by
  rw [nextIs, bind_assoc]
  refine .peek fun t _ _ => .of ?_
  rw [pure_bind]
  exact h _

theorem nextIsKeyword_bind_stays {w : String} {f : Bool → Parse β}
    (htrue : ∀ t : Token, t.kind = .name w → t.kind.isError = false → StaysAt ts us t (f true) Q)
    (hfalse : Yields ts us (f false) Q) : Yields ts us (nextIsKeyword w >>= f) Q := by
  rw [nextIsKeyword, bind_assoc]
  refine .peek fun t _ hsound => ?_
  rw [pure_bind]
  by_cases ht : t.kind = .name w
  · rw [decide_eq_true ht]
    exact htrue t ht hsound
  · rw [decide_eq_false ht]
    exact .of hfalse

end

/-- A step that stays within the tokens can be repeated. -/
theorem repeated_stays {step : Parse (Option α)} (h : ∀ us, Stays ts us step) : Stays ts us (repeated step) := by
  have hrepeat (n : Nat) : ∀ us, Stays ts us (repeatUpTo step n) := by
    induction n with
    | zero => exact fun _ => .pure trivial
    | succ n ih =>
      refine fun us => (h us).bind fun o vs _ _ => ?_
      cases o with
      | none => exact .pure trivial
      | some a => exact (ih vs).bind fun _ _ _ _ => .pure trivial
  exact fun i hi hC => hrepeat (i.tokens.length + 1) us i hi hC

section
variable {item : Parse α}

theorem behind?_stays (h : ∀ us, Stays ts us item) (p : Punctuator) : Stays ts us (behind? p item) := by
  refine (accept_stays p).bind fun o vs _ _ => ?_
  cases o with
  | none => exact .pure trivial
  | some _ => exact (h vs).map fun _ _ => trivial

theorem listed_stays (h : ∀ us, Stays ts us item) (p : Punctuator) : Stays ts us (listed p item) :=
  (accept_stays p).bind fun _ vs _ _ => (h vs).bind fun _ _ _ _ =>
    (repeated_stays fun _ => behind?_stays h p).bind fun _ _ _ _ => .pure trivial

/-- A construct that must not be empty is found to be so from its opening to its closing sign. -/
theorem delimited_stays {opening close : Punctuator} {construct : String} {allowEmpty : Bool}
    (h : ∀ us, Stays ts us item) : Stays ts us (delimited opening close construct allowEmpty item) := by
  refine expect_bind fun first hfirst _ => ?_
  have hstep (us : List Token) : Stays ts us (do
      let t ← peek
      if t.kind = .punctuator close then
        advance
        return none
      else if t.kind = .endOfInput then fail (.unclosed close construct first.span) t.span
      else some <$> item) := by
    refine .peek fun t ht hsound => ?_
    split
    · rename_i hkind
      exact .advance (by simp [hkind]) hsound (.pure trivial)
    · split
      · exact .of (.fail_at ht hsound ⟨first, hfirst, rfl⟩)
      · exact .of ((h us).map fun _ _ => trivial)
  refine (repeated_stays hstep).bind fun items vs hvs _ => .behind fun hts hsound => ?_
  obtain ⟨more, rfl⟩ := hvs
  obtain ⟨rest, hrest⟩ := hts
  rw [List.append_assoc us] at hrest hsound
  refine (Yields.spanFrom first.span (by simp)).bind fun span ws _ hspan => ?_
  have hcovers : span.Covers ([first] ++ more) := by
    obtain ⟨last, hlast, rfl⟩ := hspan
    exact ⟨first, rfl, last, by simpa [List.getLast?_append] using hlast, rfl⟩
  split
  · exact .stop_bind (.fail hrest.symm hcovers (fun t ht => hsound t (List.mem_append_right us ht)) trivial)
  · exact .pure trivial

theorem delimitedIf_stays {opening close : Punctuator} {construct : String} (h : ∀ us, Stays ts us item) :
    Stays ts us (delimitedIf opening close construct item) := by
  refine nextIs_bind_stays fun b => ?_
  split
  · exact (delimited_stays h).bind fun _ _ _ _ => .pure trivial
  · exact .pure trivial

end

end Parse

end GraphQL
