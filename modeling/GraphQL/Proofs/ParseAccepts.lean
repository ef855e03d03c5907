import GraphQL.Proofs.ParseSteps

/-!
# What a parse step accepts

`Accepts p ts S P` says that from any tokens with the terminals `ts` in front the step goes well, takes just
these tokens and gives a result with the property `P`, as long as the input goes on with no error and with none of
`S`. These are the signs with which the construct itself could go on. Main statements: `Accepts.bind` for one
step after the other, and `Accepts.repeated` and `Accepts.delimited` for lists.
-/

namespace GraphQL

open Terminal

namespace Terminal

/-- A terminal that is none of the signs, and neither an error nor the end of the input. -/
def Avoids (signs : List Punctuator) (u : Terminal) : Prop :=
  (∀ cause, u ≠ plain (.error cause)) ∧ u ≠ plain .endOfInput ∧ ∀ p ∈ signs, u ≠ sign p

theorem Avoids.mono {signs signs' : List Punctuator} {u : Terminal} (h : Avoids signs' u) (hsub : signs ⊆ signs') :
    Avoids signs u :=
  ⟨h.1, h.2.1, fun p hp => h.2.2 p (hsub hp)⟩

/-- A sign avoids all others. -/
theorem avoids_sign {signs : List Punctuator} {p : Punctuator} (h : p ∉ signs) : Avoids signs (sign p) := by
  refine ⟨by simp [sign], by simp [sign], fun q hq heq => h ?_⟩
  simp only [sign, plain.injEq, Token.Kind.punctuator.injEq] at heq
  exact heq ▸ hq

/-- A word avoids all signs. -/
theorem avoids_word (signs : List Punctuator) (w : String) : Avoids signs (word w) := by
  unfold Avoids word wordKind sign
  split
  · simp
  · split
    · simp
    · split <;> simp

/-- A list of terminals that is empty or begins with one that avoids the signs. -/
def HeadAvoids (signs : List Punctuator) (ts : List Terminal) : Prop := ∀ u ∈ ts.head?, Avoids signs u

theorem headAvoids_nil (signs : List Punctuator) : HeadAvoids signs [] := by simp [HeadAvoids]

theorem headAvoids_cons {signs : List Punctuator} {u : Terminal} {ts : List Terminal} (h : Avoids signs u) :
    HeadAvoids signs (u :: ts) := by
  simpa [HeadAvoids] using h

/-- What begins with one of two parts, as the first may be empty, avoids what both avoid. -/
theorem HeadAvoids.append {signs : List Punctuator} {ts us : List Terminal} (ht : HeadAvoids signs ts)
    (hu : HeadAvoids signs us) : HeadAvoids signs (ts ++ us) := by
  cases ts with
  | nil => exact hu
  | cons u ts => exact ht

theorem HeadAvoids.flatMap {α : Type} {signs : List Punctuator} {g : α → List Terminal} {items : List α}
    (h : ∀ a ∈ items, HeadAvoids signs (g a)) : HeadAvoids signs (items.flatMap g) := by
  induction items with
  | nil => exact headAvoids_nil signs
  | cons a items ih =>
    rw [List.flatMap_cons]
    exact (h a (by simp)).append (ih fun b hb => h b (by simp [hb]))

/-- A group begins with its opening sign, or is empty. -/
theorem headAvoids_group {α : Type} {signs : List Punctuator} {opening close : Punctuator} (h : opening ∉ signs)
    (g : α → List Terminal) (items : List α) : HeadAvoids signs (group opening close g items) := by
  unfold group
  split
  · exact headAvoids_nil signs
  · exact headAvoids_cons (avoids_sign h)

end Terminal

namespace Parse

variable {α β : Type}

private theorem length_le_length_flatMap {g : α → List β} {items : List α} (hne : ∀ a ∈ items, g a ≠ []) :
    items.length ≤ (items.flatMap g).length := by
  induction items with
  | nil => simp
  | cons a items ih =>
    have := List.length_pos_iff.2 (hne a (by simp))
    have := ih fun b hb => hne b (by simp [hb])
    rw [List.flatMap_cons, List.length_append, List.length_cons]
    omega

/-- What follows is no error and none of the signs. -/
def Follows (signs : List Punctuator) (rest : List Token) : Prop :=
  ∀ t ∈ rest.head?, (∀ cause, t.kind ≠ .error cause) ∧ ∀ p ∈ signs, t.kind ≠ .punctuator p

theorem Follows.mono {signs signs' : List Punctuator} {rest : List Token} (h : Follows signs' rest)
    (hsub : signs ⊆ signs') : Follows signs rest :=
  fun t ht => ⟨(h t ht).1, fun p hp => (h t ht).2 p (hsub hp)⟩

/-- What may follow the first of two parts is the beginning of the second, or what may follow both. -/
private theorem follows_append {signs signs' : List Punctuator} {us : List Token} {rest : List Token}
    (hus : HeadAvoids signs (us.map Token.terminal)) (hsub : us = [] → signs ⊆ signs')
    (hrest : Follows signs' rest) : Follows signs (us ++ rest) := by
  cases us with
  | nil => exact hrest.mono (hsub rfl)
  | cons u us =>
    simp only [HeadAvoids, List.map_cons, List.head?_cons, Option.mem_some_iff, forall_eq'] at hus
    simp only [Follows, List.cons_append, List.head?_cons, Option.mem_some_iff, forall_eq']
    refine ⟨fun cause h => hus.1 cause ?_, fun p hp h => hus.2.2 p hp ?_⟩
    · rw [Token.terminal, h]
      rfl
    · rw [Token.terminal, h]
      rfl

/-- The next token shows unless it is an error. -/
theorem run_peek_cons {t : Token} (h : ∀ cause, t.kind ≠ .error cause) (rest : List Token) (last : Option Span) :
    StateT.run peek ⟨t :: rest, last⟩ = .ok (t, ⟨t :: rest, last⟩) := by
  simp only [peek, StateT.run_bind, StateT.run_get, pure_bind]
  rfl

/-- A look at an input that goes on with none of the signs gives none of them. -/
theorem run_peek_of_follows {signs : List Punctuator} {rest : List Token} (h : Follows signs rest)
    (last : Option Span) : ∃ t, StateT.run peek ⟨rest, last⟩ = .ok (t, ⟨rest, last⟩) ∧
      ∀ p ∈ signs, t.kind ≠ .punctuator p := by
  cases rest with
  | nil => exact ⟨_, rfl, by simp⟩
  | cons t rest =>
    have ht := h t (by simp)
    exact ⟨t, run_peek_cons ht.1 rest last, ht.2⟩

theorem run_bind_of_ok {p : Parse α} {f : α → Parse β} {i j : Input} {a : α} (h : StateT.run p i = .ok (a, j)) :
    StateT.run (p >>= f) i = StateT.run (f a) j := by
  rw [StateT.run_bind, h]
  rfl

/-- From tokens with the terminals in front, the step takes just these and gives a result with the property, where
the input goes on with none of the signs. -/
def Accepts (p : Parse α) (ts : List Terminal) (S : List Punctuator) (P : α → Prop) : Prop :=
  ∀ us rest last, us.map Token.terminal = ts → Follows S rest →
    ∃ a last', StateT.run p ⟨us ++ rest, last⟩ = .ok (a, ⟨rest, last'⟩) ∧ P a

namespace Accepts

variable {p : Parse α} {ts us : List Terminal} {S S' : List Punctuator} {P : α → Prop} {Q : β → Prop}

/-- Two steps accept what each of them accepts, one after the other. -/
theorem bind {f : α → Parse β} (hp : Accepts p ts S P) (hf : ∀ a, P a → Accepts (f a) us S' Q)
    (hus : HeadAvoids S us) (hsub : us = [] → S ⊆ S') : Accepts (p >>= f) (ts ++ us) S' Q := by
  intro vs rest last hvs hrest
  obtain ⟨ws, xs, rfl, rfl, rfl⟩ := List.map_eq_append_iff.1 hvs
  obtain ⟨a, last₁, hrun, ha⟩ := hp ws (xs ++ rest) last rfl
    (follows_append hus (fun h => hsub (by simp [h])) hrest)
  obtain ⟨b, last₂, hrun', hb⟩ := hf a ha xs rest last₁ rfl hrest
  exact ⟨b, last₂, by rw [List.append_assoc, run_bind_of_ok hrun, hrun'], hb⟩

/-- A step after which nothing is taken. -/
theorem bind_nil {f : α → Parse β} (hp : Accepts p ts S P) (hf : ∀ a, P a → Accepts (f a) [] S Q) :
    Accepts (p >>= f) ts S Q := by
  simpa using hp.bind hf (headAvoids_nil S) fun _ => List.Subset.refl _

/-- A step that may be followed by anything. -/
theorem bind_closed {f : α → Parse β} (hp : Accepts p ts [] P) (hf : ∀ a, P a → Accepts (f a) us S Q)
    (hus : HeadAvoids [] us) : Accepts (p >>= f) (ts ++ us) S Q :=
  hp.bind hf hus fun _ => List.nil_subset _

theorem bind_cons {u : Terminal} {f : α → Parse β} (hp : Accepts p [u] [] P)
    (hf : ∀ a, P a → Accepts (f a) us S Q) (hus : HeadAvoids [] us) : Accepts (p >>= f) (u :: us) S Q :=
  hp.bind_closed hf hus

theorem mono (h : Accepts p ts S P) {P' : α → Prop} (hP : ∀ a, P a → P' a) : Accepts p ts S P' := by
  intro us rest last hus hrest
  obtain ⟨a, last', hrun, ha⟩ := h us rest last hus hrest
  exact ⟨a, last', hrun, hP a ha⟩

/-- Fewer texts may follow when more signs are shut out. -/
theorem weaken (h : Accepts p ts S P) (hsub : S ⊆ S') : Accepts p ts S' P :=
  fun us rest last hus hrest => h us rest last hus (hrest.mono hsub)

theorem pure {a : α} (h : P a) : Accepts (pure a) [] S P := by
  intro us rest last hus _
  obtain rfl := List.map_eq_nil_iff.1 hus
  exact ⟨a, last, rfl, h⟩

theorem map {f : α → β} (h : Accepts p ts S P) (hf : ∀ a, P a → Q (f a)) : Accepts (f <$> p) ts S Q := by
  rw [map_eq_pure_bind]
  exact h.bind_nil fun a ha => pure (hf a ha)

/-- A look at the first terminal leaves it. -/
theorem peek {u : Terminal} {f : Token → Parse β} (hu : ∀ cause, u ≠ .plain (.error cause))
    (h : ∀ t, t.terminal = u → Accepts (f t) (u :: ts) S Q) : Accepts (peek >>= f) (u :: ts) S Q := by
  intro us rest last hus hrest
  obtain ⟨t, ts', rfl, ht, -⟩ := List.map_eq_cons_iff.1 hus
  have hkind : ∀ cause, t.kind ≠ .error cause := fun cause hc => hu cause (by rw [← ht, Token.terminal, hc]; rfl)
  rw [List.cons_append, run_bind_of_ok (run_peek_cons hkind _ _), ← List.cons_append]
  exact h t ht _ rest last hus hrest

/-- A look past what is taken finds none of the signs. -/
theorem peek_nil {f : Token → Parse β}
    (h : ∀ t, (∀ p ∈ S, t.kind ≠ .punctuator p) → Accepts (f t) [] S Q) :
    Accepts (Parse.peek >>= f) [] S Q := by
  intro us rest last hus hrest
  obtain rfl := List.map_eq_nil_iff.1 hus
  obtain ⟨t, hpeek, ht⟩ := run_peek_of_follows hrest last
  rw [List.nil_append, run_bind_of_ok hpeek]
  exact h t ht [] rest last rfl hrest

theorem advance {u : Terminal} {f : Unit → Parse β} (h : Accepts (f ()) ts S Q) :
    Accepts (advance >>= f) (u :: ts) S Q := by
  intro us rest last hus hrest
  obtain ⟨t, ts', rfl, -, hts⟩ := List.map_eq_cons_iff.1 hus
  exact h ts' rest (some t.span) hts hrest

theorem spanFrom (start : Span) : Accepts (spanFrom start) [] S fun _ => True := by
  intro us rest last hus _
  obtain rfl := List.map_eq_nil_iff.1 hus
  exact ⟨_, last, rfl, trivial⟩

theorem expect (q : Punctuator) : Accepts (expect q) [sign q] S fun _ => True := by
  refine peek (by simp [sign]) fun t ht => ?_
  rw [if_pos (kind_of_terminal ht)]
  exact advance (pure trivial)

/-- A sign that is there is accepted. -/
theorem accept (q : Punctuator) : Accepts (accept q) [sign q] S (·.isSome) := by
  refine peek (by simp [sign]) fun t ht => ?_
  rw [if_pos (kind_of_terminal ht)]
  exact advance (pure rfl)

/-- A sign that does not follow is not accepted. -/
theorem accept_nil {q : Punctuator} (h : q ∈ S) : Accepts (Parse.accept q) [] S (· = none) := by
  refine peek_nil fun t ht => ?_
  rw [if_neg (ht q h)]
  exact pure rfl

theorem behind?_some {q : Punctuator} (h : Accepts p ts [] P) (hhead : HeadAvoids [] ts) :
    Accepts (behind? q p) (sign q :: ts) S fun o => ∃ a, o = some a ∧ P a := by
  refine (accept q).bind_cons (fun o ho => ?_) hhead
  obtain ⟨t, rfl⟩ := Option.isSome_iff_exists.1 ho
  exact (h.map fun a ha => ⟨a, rfl, ha⟩).weaken (List.nil_subset _)

theorem behind?_none {q : Punctuator} (h : q ∈ S) : Accepts (behind? q p) [] S (· = none) := by
  refine (accept_nil h).bind_nil fun o ho => ?_
  subst ho
  exact pure rfl

/-- Where the sign comes next, the step goes the one way. -/
theorem nextIs_pos {q : Punctuator} {f : Bool → Parse β} (h : Accepts (f true) (sign q :: ts) S Q) :
    Accepts (nextIs q >>= f) (sign q :: ts) S Q := by
  rw [nextIs, bind_assoc]
  refine peek (by simp [sign]) fun t ht => ?_
  rwa [pure_bind, decide_eq_true (kind_of_terminal ht)]

/-- Where the sign cannot come next, the step goes the other way. -/
theorem nextIs_neg {q : Punctuator} {f : Bool → Parse β} (hq : q ∈ S) (h : Accepts (f false) [] S Q) :
    Accepts (nextIs q >>= f) [] S Q := by
  rw [nextIs, bind_assoc]
  refine peek_nil fun t ht => ?_
  rwa [pure_bind, decide_eq_false (ht q hq)]

theorem keyword {w : String} (hw : wordKind w = .name w) : Accepts (keyword w) [word w] S fun _ => True := by
  refine peek (avoids_word [] w).1 fun t ht => ?_
  rw [if_pos ((kind_of_terminal ht).trans hw)]
  exact advance (pure trivial)

theorem name (w : String) : Accepts name [word w] S (·.value = w) := by
  refine peek (avoids_word [] w).1 fun t ht => ?_
  simp only [kind_of_terminal ht, asName?_wordKind]
  exact advance (pure rfl)

/-! ### Repetition -/

section
variable {γ : Type} {g : α → List Terminal} {k : α → γ} {items : List α}

/-- Items that the step accepts one by one, each followed by the next or by what ends the repetition; they are
given back up to `k`. -/
theorem repeatUpTo {step : Parse (Option α)} {e : List Terminal}
    (hitem : ∀ a ∈ items, Accepts step (g a) S fun o => ∃ b, o = some b ∧ k b = k a)
    (hg : ∀ a ∈ items, HeadAvoids S (g a)) (hend : Accepts step e S' (· = none)) (he : HeadAvoids S e)
    (hsub : e = [] → S ⊆ S') (n : Nat) (hn : items.length < n) :
    Accepts (Parse.repeatUpTo step n) (items.flatMap g ++ e) S' (·.map k = items.map k) := by
  induction items generalizing n with
  | nil =>
    obtain ⟨n, rfl⟩ := Nat.exists_eq_succ_of_ne_zero (Nat.ne_of_gt hn)
    refine bind_nil (by simpa using hend) fun o ho => ?_
    subst ho
    exact pure rfl
  | cons a items ih =>
    -- the item may go on with `S`, and neither the next item nor the end begins so
    obtain ⟨n, rfl⟩ := Nat.exists_eq_succ_of_ne_zero (Nat.ne_of_gt (Nat.zero_lt_of_lt hn))
    have htail : HeadAvoids S (items.flatMap g ++ e) :=
      (HeadAvoids.flatMap fun b hb => hg b (by simp [hb])).append he
    rw [List.flatMap_cons, List.append_assoc]
    refine (hitem a (by simp)).bind (fun o ho => ?_) htail fun h => hsub (List.append_eq_nil_iff.1 h).2
    obtain ⟨b, rfl, hb⟩ := ho
    refine (ih (fun c hc => hitem c (by simp [hc])) (fun c hc => hg c (by simp [hc])) n
      (Nat.lt_of_succ_lt_succ hn)).bind_nil fun bs hbs => pure ?_
    simp [hb, hbs]

/-- Items are accepted one after the other, up to what starts none. -/
theorem repeated {step : Parse (Option α)} {e : List Terminal}
    (hitem : ∀ a ∈ items, Accepts step (g a) S fun o => ∃ b, o = some b ∧ k b = k a)
    (hne : ∀ a ∈ items, g a ≠ []) (hg : ∀ a ∈ items, HeadAvoids S (g a))
    (hend : Accepts step e S' (· = none)) (he : HeadAvoids S e) (hsub : e = [] → S ⊆ S') :
    Accepts (repeated step) (items.flatMap g ++ e) S' (·.map k = items.map k) := by
  intro us rest last hus hrest
  have hlen := length_le_length_flatMap hne
  have hus' := congrArg List.length hus
  rw [List.length_map, List.length_append] at hus'
  refine repeatUpTo hitem hg hend he hsub _ ?_ us rest last hus hrest
  simp only [List.length_append]
  omega

/-- Items between two signs are accepted, at least one unless there may be none. -/
theorem delimited {opening close : Punctuator} {construct : String} {allowEmpty : Bool} {item : Parse α}
    (hitem : ∀ a ∈ items, Accepts item (g a) S fun b => k b = k a) (hne : ∀ a ∈ items, g a ≠ [])
    (hg : ∀ a ∈ items, HeadAvoids (close :: S) (g a)) (hclose : close ∉ S)
    (hempty : items ≠ [] ∨ allowEmpty = true) :
    Accepts (delimited opening close construct allowEmpty item) (between opening close (items.flatMap g)) S'
      (·.1.map k = items.map k) := by
  have hend : HeadAvoids S [sign close] := headAvoids_cons (avoids_sign hclose)
  refine (expect opening).bind_closed (fun first _ => ?_)
    ((HeadAvoids.flatMap fun a ha u hu => (hg a ha u hu).mono (by simp)).append
      (headAvoids_cons (avoids_sign (by simp))))
  refine (repeated (k := k) (fun a ha => ?_) hne (fun a ha u hu => (hg a ha u hu).mono (by simp)) ?_ hend
    (by simp)).bind_nil fun bs hbs => (spanFrom first.span).bind_nil fun span _ => ?_
  -- an item does not begin like the end of the list or of the input
  · obtain ⟨u, ts, hts⟩ := List.exists_cons_of_ne_nil (hne a ha)
    have hu := hg a ha u (by simp [hts])
    rw [hts]
    refine peek hu.1 fun t ht => ?_
    have hkind : t.kind ≠ .punctuator close := fun h => hu.2.2 close (by simp) (by rw [← ht, terminal_of_sign h])
    have hnot : t.kind ≠ .endOfInput := fun h => hu.2.1 (by rw [← ht, Token.terminal, h]; rfl)
    rw [if_neg hkind, if_neg hnot, ← hts]
    exact (hitem a ha).map fun b hb => ⟨b, rfl, hb⟩
  · refine peek (by simp [sign]) fun t ht => ?_
    rw [if_pos (kind_of_terminal ht)]
    exact advance (pure rfl)
  -- as many items come back as were written
  · have hnonempty : (bs.isEmpty && !allowEmpty) = false := by
      rcases hempty with h | h
      · cases bs with
        | nil => exact absurd (List.map_eq_nil_iff.1 hbs.symm) h
        | cons => rfl
      · simp [h]
    simp only [hnonempty, Bool.false_eq_true, if_false]
    exact pure hbs

theorem delimitedIf {opening close : Punctuator} {construct : String} {item : Parse α}
    (hitem : ∀ a ∈ items, Accepts item (g a) S fun b => k b = k a) (hne : ∀ a ∈ items, g a ≠ [])
    (hg : ∀ a ∈ items, HeadAvoids (close :: S) (g a)) (hclose : close ∉ S) (hopening : opening ∈ S') :
    Accepts (delimitedIf opening close construct item) (group opening close g items) S'
      (·.map k = items.map k) := by
  by_cases hitems : items = []
  · rw [group, if_pos hitems]
    exact nextIs_neg hopening (pure (by rw [hitems]))
  · rw [group, if_neg hitems]
    exact nextIs_pos ((delimited hitem hne hg hclose (.inl hitems)).bind_nil fun r hr => pure hr)

end

end Accepts

/-- From tokens with the terminals in front, the step takes just these and gives a result with the property, where
what follows meets the condition. -/
def AcceptsIf (F : List Token → Prop) (p : Parse α) (ts : List Terminal) (P : α → Prop) : Prop :=
  ∀ us rest last, us.map Token.terminal = ts → F rest →
    ∃ a last', StateT.run p ⟨us ++ rest, last⟩ = .ok (a, ⟨rest, last'⟩) ∧ P a

namespace AcceptsIf

variable {F : List Token → Prop} {p : Parse α} {ts us : List Terminal} {S : List Punctuator} {P : α → Prop}
  {Q : β → Prop}

theorem of_accepts (h : Accepts p ts S P) (hF : ∀ rest, F rest → Follows S rest) : AcceptsIf F p ts P :=
  fun us rest last hus hrest => h us rest last hus (hF rest hrest)

/-- Two steps accept what each of them accepts, where a condition says what may follow the second. -/
theorem bind {f : α → Parse β} (hp : Accepts p ts S P) (hf : ∀ a, P a → AcceptsIf F (f a) us Q)
    (hus : HeadAvoids S us) (hF : ∀ rest, F rest → Follows S rest) : AcceptsIf F (p >>= f) (ts ++ us) Q := by
  intro vs rest last hvs hrest
  obtain ⟨ws, xs, rfl, rfl, rfl⟩ := List.map_eq_append_iff.1 hvs
  have hfollows : Follows S (xs ++ rest) := follows_append hus (fun _ => List.Subset.refl S) (hF rest hrest)
  obtain ⟨a, last₁, hrun, ha⟩ := hp ws (xs ++ rest) last rfl hfollows
  obtain ⟨b, last₂, hrun', hb⟩ := hf a ha xs rest last₁ rfl hrest
  exact ⟨b, last₂, by rw [List.append_assoc, run_bind_of_ok hrun, hrun'], hb⟩

/-- A step after which nothing is taken. -/
theorem bind_nil {f : α → Parse β} (hp : AcceptsIf F p ts P) (hf : ∀ a, P a → AcceptsIf F (f a) [] Q) :
    AcceptsIf F (p >>= f) ts Q := by
  intro us rest last hus hrest
  obtain ⟨a, last₁, hrun, ha⟩ := hp us rest last hus hrest
  obtain ⟨b, last₂, hrun', hb⟩ := hf a ha [] rest last₁ rfl hrest
  exact ⟨b, last₂, by rw [run_bind_of_ok hrun]; exact hrun', hb⟩

theorem pure {a : α} (h : P a) : AcceptsIf F (pure a) [] P := by
  intro us rest last hus _
  obtain rfl := List.map_eq_nil_iff.1 hus
  exact ⟨a, last, rfl, h⟩

private theorem map {f : α → β} (h : AcceptsIf F p ts P) (hf : ∀ a, P a → Q (f a)) : AcceptsIf F (f <$> p) ts Q := by
  rw [map_eq_pure_bind]
  exact h.bind_nil fun a ha => pure (hf a ha)

theorem spanFrom (start : Span) : AcceptsIf F (spanFrom start) [] fun _ => True := by
  intro us rest last hus _
  obtain rfl := List.map_eq_nil_iff.1 hus
  exact ⟨_, last, rfl, trivial⟩

/-- A look at the first terminal leaves it. -/
theorem peek {u : Terminal} {f : Token → Parse β} (hu : ∀ cause, u ≠ .plain (.error cause))
    (h : ∀ t, t.terminal = u → AcceptsIf F (f t) (u :: ts) Q) : AcceptsIf F (peek >>= f) (u :: ts) Q := by
  intro us rest last hus hrest
  obtain ⟨t, ts', rfl, ht, -⟩ := List.map_eq_cons_iff.1 hus
  have hkind : ∀ cause, t.kind ≠ .error cause := by
    intro cause hcause
    exact hu cause (by rw [← ht, Token.terminal, hcause]; rfl)
  rw [List.cons_append, run_bind_of_ok (run_peek_cons hkind _ _), ← List.cons_append]
  exact h t ht _ rest last hus hrest

theorem advance {u : Terminal} {f : Unit → Parse β} (h : AcceptsIf F (f ()) ts Q) :
    AcceptsIf F (advance >>= f) (u :: ts) Q := by
  intro us rest last hus hrest
  obtain ⟨t, ts', rfl, -, hts⟩ := List.map_eq_cons_iff.1 hus
  exact h ts' rest (some t.span) hts hrest

end AcceptsIf

/-- One round of the loop over definitions. -/
def nextDefinition (p : Parse α) : Parse (Option α) := do
  if (← peek).kind = .endOfInput then return none else some <$> p

section
variable {γ : Type} {F : List Token → Prop} {p : Parse α} {k : α → γ} {e : Token}

/-- One round accepts one definition. -/
theorem nextDefinition_accepts {ts : List Terminal} {P : α → Prop} (hp : AcceptsIf F p ts P) (hne : ts ≠ [])
    (hhead : HeadAvoids [] ts) : AcceptsIf F (nextDefinition p) ts fun o => ∃ a, o = some a ∧ P a := by
  have hsome := hp.map (f := some) (Q := fun o => ∃ a, o = some a ∧ P a) fun a ha => ⟨a, rfl, ha⟩
  obtain ⟨u, ts, rfl⟩ := List.exists_cons_of_ne_nil hne
  have hu := hhead u rfl
  refine .peek hu.1 fun t ht => ?_
  have hkind : t.kind ≠ .endOfInput := by
    intro hend
    exact hu.2.1 (by rw [← ht, Token.terminal, hend]; rfl)
  rw [if_neg hkind]
  exact hsome

/-- The loop takes all definitions, each with its terminals, up to the end of the input. -/
theorem repeatUpTo_nextDefinition {items : List (α × List Terminal)}
    (hitem : ∀ x ∈ items, AcceptsIf F p x.2 fun a => k a = k x.1) (hne : ∀ x ∈ items, x.2 ≠ [])
    (hhead : ∀ x ∈ items, HeadAvoids [] x.2)
    (hF : ∀ x ∈ items, ∀ us rest, us.map Token.terminal = x.2 → F (us ++ rest)) (he : e.kind = .endOfInput)
    (hend : F [e]) (n : Nat) (hn : items.length < n) (ts : List Token)
    (hts : ts.map Token.terminal = items.flatMap (·.2)) (last : Option Span) :
    ∃ as last', StateT.run (repeatUpTo (nextDefinition p) n) ⟨ts ++ [e], last⟩ = .ok (as, ⟨[e], last'⟩) ∧
      as.map k = items.map fun x => k x.1 := by
  induction items generalizing n ts last with
  | nil =>
    obtain ⟨n, rfl⟩ := Nat.exists_eq_succ_of_ne_zero (Nat.ne_of_gt hn)
    obtain rfl := List.map_eq_nil_iff.1 hts
    refine ⟨[], last, ?_, rfl⟩
    rw [repeatUpTo, nextDefinition, bind_assoc, List.nil_append, run_bind_of_ok (run_peek_cons (by simp [he]) _ _),
      if_pos he]
    rfl
  | cons x items ih =>
    obtain ⟨n, rfl⟩ := Nat.exists_eq_succ_of_ne_zero (Nat.ne_of_gt (Nat.zero_lt_of_lt hn))
    obtain ⟨us, vs, rfl, hus, hvs⟩ := List.map_eq_append_iff.1 hts
    -- what follows the first definition is the next one or the end of the input
    have hfollows : F (vs ++ [e]) := by
      cases items with
      | nil =>
        obtain rfl := List.map_eq_nil_iff.1 hvs
        exact hend
      | cons y items =>
        obtain ⟨ws, xs, rfl, hws, -⟩ := List.map_eq_append_iff.1 hvs
        rw [List.append_assoc]
        exact hF y (by simp) ws (xs ++ [e]) hws
    obtain ⟨o, last₁, hrun, a, rfl, ha⟩ :=
      nextDefinition_accepts (hitem x (by simp)) (hne x (by simp)) (hhead x (by simp)) us (vs ++ [e]) last hus
        hfollows
    obtain ⟨as, last₂, hrun', has⟩ := ih (fun y hy => hitem y (by simp [hy])) (fun y hy => hne y (by simp [hy]))
      (fun y hy => hhead y (by simp [hy])) (fun y hy => hF y (by simp [hy])) n (Nat.lt_of_succ_lt_succ hn) vs hvs
      last₁
    refine ⟨a :: as, last₂, ?_, by simp [ha, has]⟩
    rw [repeatUpTo, List.append_assoc, run_bind_of_ok hrun, run_bind_of_ok hrun']
    rfl

/-- From the terminals of one or more definitions and the end of the input, the loop gives the definitions back. -/
theorem definitions_accepts (kind : DocumentKind) (items : List (α × List Terminal)) (hnonempty : items ≠ [])
    (hitem : ∀ x ∈ items, AcceptsIf F p x.2 fun a => k a = k x.1) (hne : ∀ x ∈ items, x.2 ≠ [])
    (hhead : ∀ x ∈ items, HeadAvoids [] x.2)
    (hF : ∀ x ∈ items, ∀ us rest, us.map Token.terminal = x.2 → F (us ++ rest)) (he : e.kind = .endOfInput)
    (hend : F [e]) {ts : List Token} (hts : ts.map Token.terminal = items.flatMap (·.2)) :
    ∃ as span i, StateT.run (definitions kind p) ⟨ts ++ [e], none⟩ = .ok ((as, span), i) ∧
      as.map k = items.map fun x => k x.1 := by
  have hlen : items.length < (ts ++ [e]).length + 1 := by
    have hmap := congrArg List.length hts
    have hle := length_le_length_flatMap (g := fun x : α × List Terminal => x.2) hne
    rw [List.length_map] at hmap
    rw [List.length_append]
    omega
  have hfollows : Follows [] (ts ++ [e]) := by
    have hfirst : HeadAvoids [] (ts.map Token.terminal) := by
      rw [hts]
      exact .flatMap hhead
    have hlast : Follows [] [e] := by simp [Follows, he]
    exact follows_append hfirst (fun _ => List.nil_subset _) hlast
  obtain ⟨start, hpeek, -⟩ := run_peek_of_follows hfollows none
  obtain ⟨as, last, hrun, has⟩ := repeatUpTo_nextDefinition hitem hne hhead hF he hend _ hlen ts hts none
  have hrepeated : StateT.run (repeated (nextDefinition p)) ⟨ts ++ [e], none⟩ = .ok (as, ⟨[e], last⟩) := hrun
  have hempty : as.isEmpty = false := by
    cases as with
    | nil => exact absurd (List.map_eq_nil_iff.1 has.symm) hnonempty
    | cons => rfl
  refine ⟨as, (last.map start.span.through).getD start.span, ⟨[e], last⟩, ?_, has⟩
  rw [definitions, run_bind_of_ok hpeek]
  refine (run_bind_of_ok hrepeated).trans ?_
  rw [hempty]
  rfl

end

end Parse

end GraphQL
