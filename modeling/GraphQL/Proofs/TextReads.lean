import GraphQL.Proofs.Cursor
import GraphQL.Proofs.Terminals
import GraphQL.Syntax.Print

/-!
# Texts that the lexer reads as given terminals

`Reads text ts` says that the lexer reads the terminals off the text, whatever follows it that does not run into
its last token. A printer moves the lines after the first to the right, so a text has to read the same after
`shift k`, which is what `Prints` says. Main statements: `Prints.append`, `Prints.indent` and `Prints.join` for the
ways in which a printer puts texts together.
-/

namespace GraphQL

open Terminal Layout

private theorem ignored_blank {c : Char} (h : isBlank c = true) (rest : List Char) :
    ignored (c :: rest) = (c :: (ignored rest).1, (ignored rest).2) := by
  simp [ignored, ignoredLength, h]

private theorem ignored_of_not_blank {c : Char} (h : isBlank c = false) (hc : c ≠ '#') (rest : List Char) :
    ignored (c :: rest) = ([], c :: rest) := by
  simp [ignored, ignoredLength, h, hc]

private theorem tokensFrom_blank {ch : Char} (h : isBlank ch = true) (c : Cursor) (rest : List Char) :
    tokensFrom c (ch :: rest) = tokensFrom (c.step ch) rest := by
  rw [tokensFrom_eq, tokensFrom_eq, ignored_blank h, Cursor.after_cons]

/-- Blanks in front only move the reading point. -/
theorem tokensFrom_blanks {blank : List Char} (h : ∀ ch ∈ blank, isBlank ch = true) (c : Cursor) (rest : List Char) :
    tokensFrom c (blank ++ rest) = tokensFrom (c.after blank) rest := by
  induction blank generalizing c with
  | nil => rfl
  | cons ch blank ih =>
    rw [List.cons_append, tokensFrom_blank (h ch (by simp)), ih fun c hc => h c (by simp [hc]), Cursor.after_cons]

theorem tokensFrom_nil (c : Cursor) : tokensFrom c [] = [⟨.endOfInput, .emptyAt c.position⟩] := by
  rw [tokensFrom_eq]
  rfl

/-- A text that does not start with a separator starts with its first lexeme. -/
theorem tokensFrom_read {ch : Char} (h : isBlank ch = false) (hc : ch ≠ '#') (c : Cursor) (rest : List Char)
    {kind : Token.Kind} {text tail : List Char} (hread : Lexeme.read ch rest = ⟨kind, text, tail⟩)
    (hkind : kind.isError = false) :
    tokensFrom c (ch :: rest) =
      ⟨kind, ⟨c.position, (c.after text).position⟩⟩ :: tokensFrom (c.after text) tail := by
  rw [tokensFrom_eq, ignored_of_not_blank h hc, Cursor.after_nil, tokensAt, hread]
  simp only [hkind, Bool.false_eq_true, if_false]

/-- The lexer reads the terminals off the text, whatever follows that does not run into it. -/
def Reads (text : List Char) (ts : List Terminal) : Prop :=
  ∀ c rest, Opens rest → ∃ us c', tokensFrom c (text ++ rest) = us ++ tokensFrom c' rest ∧
    us.map Token.terminal = ts

namespace Reads

private theorem nil : Reads [] [] := fun c _ _ => ⟨[], c, rfl, rfl⟩

/-- The lexer reads at most one list of terminals off a text. -/
theorem unique {text : List Char} {ts us : List Terminal} (ht : Reads text ts) (hu : Reads text us) : ts = us := by
  obtain ⟨vs, c, htokens, rfl⟩ := ht .start [] opens_nil
  obtain ⟨ws, c', htokens', rfl⟩ := hu .start [] opens_nil
  have hend (c : Cursor) : (tokensFrom c []).length = 1 := by rw [tokensFrom_nil, List.length_singleton]
  rw [htokens] at htokens'
  rw [List.append_inj_left' htokens' (by rw [hend, hend])]

/-- Texts are read one after the other, if the second does not run into the first. -/
theorem append {a b : List Char} {ts us : List Terminal} (ha : Reads a ts) (hb : Reads b us) (hopens : Opens b) :
    Reads (a ++ b) (ts ++ us) := by
  intro c rest hrest
  obtain ⟨vs, c₁, hvs, rfl⟩ := ha c (b ++ rest) (hopens.append hrest)
  obtain ⟨ws, c₂, hws, rfl⟩ := hb c₁ rest hrest
  exact ⟨vs ++ ws, c₂, by rw [List.append_assoc, hvs, hws, List.append_assoc], List.map_append⟩

private theorem cons_blank {ch : Char} (h : isBlank ch = true) {text : List Char} {ts : List Terminal}
    (ht : Reads text ts) : Reads (ch :: text) ts := by
  intro c rest hrest
  obtain ⟨us, c', hus, hts⟩ := ht (c.step ch) rest hrest
  exact ⟨us, c', by rw [List.cons_append, tokensFrom_blank h, hus], hts⟩

private theorem blanks {blank : List Char} (h : ∀ ch ∈ blank, isBlank ch = true) {text : List Char} {ts : List Terminal}
    (ht : Reads text ts) : Reads (blank ++ text) ts := by
  induction blank with
  | nil => exact ht
  | cons ch blank ih => exact (ih fun c hc => h c (by simp [hc])).cons_blank (h ch (by simp))

/-- A lexeme that is read whatever follows it. -/
theorem lexeme {ch : Char} (h : isBlank ch = false) (hc : ch ≠ '#') {lexeme text : List Char} {kind : Token.Kind}
    (hread : ∀ rest, Lexeme.read ch (lexeme ++ rest) = ⟨kind, ch :: lexeme, rest⟩) (hkind : kind.isError = false)
    {ts : List Terminal} (ht : Reads text ts) : Reads (ch :: lexeme ++ text) (kind.terminal :: ts) := by
  intro c rest hrest
  obtain ⟨us, c', hus, rfl⟩ := ht (c.after (ch :: lexeme)) rest hrest
  refine ⟨⟨kind, ⟨c.position, (c.after (ch :: lexeme)).position⟩⟩ :: us, c', ?_, rfl⟩
  rw [List.append_assoc, List.cons_append, tokensFrom_read h hc c _ (hread _) hkind, hus]
  rfl

/-- A lexeme that is read where what follows does not run into it. -/
theorem lexeme_of_opens {ch : Char} (h : isBlank ch = false) (hc : ch ≠ '#') {lexeme : List Char}
    {kind : Token.Kind}
    (hread : ∀ rest, Opens rest → Lexeme.read ch (lexeme ++ rest) = ⟨kind, ch :: lexeme, rest⟩)
    (hkind : kind.isError = false) : Reads (ch :: lexeme) [kind.terminal] := by
  intro c rest hrest
  refine ⟨[⟨kind, ⟨c.position, (c.after (ch :: lexeme)).position⟩⟩], c.after (ch :: lexeme), ?_, rfl⟩
  rw [List.cons_append, tokensFrom_read h hc c _ (hread _ hrest) hkind]
  rfl

end Reads

/-- Puts `k` spaces after every line feed. -/
def shift (k : Nat) (text : List Char) : List Char :=
  text.flatMap fun c => if c = '\n' then '\n' :: List.replicate k ' ' else [c]

@[simp] theorem shift_nil (k : Nat) : shift k [] = [] := rfl

/-- Both parts of a text are shifted. -/
@[simp] theorem shift_append (k : Nat) (s t : List Char) : shift k (s ++ t) = shift k s ++ shift k t :=
  List.flatMap_append

theorem shift_cons_of_ne {c : Char} (h : c ≠ '\n') (k : Nat) (text : List Char) :
    shift k (c :: text) = c :: shift k text := by
  simp [shift, h]

@[simp] theorem shift_cons_newline (k : Nat) (text : List Char) :
    shift k ('\n' :: text) = '\n' :: (List.replicate k ' ' ++ shift k text) := rfl

theorem shift_of_not_mem {text : List Char} (h : '\n' ∉ text) (k : Nat) : shift k text = text := by
  induction text with
  | nil => rfl
  | cons c text ih =>
    simp only [List.mem_cons, not_or] at h
    rw [shift_cons_of_ne (Ne.symm h.1), ih h.2]

theorem shift_replicate_space (j k : Nat) : shift k (List.replicate j ' ') = List.replicate j ' ' :=
  shift_of_not_mem (by simp [List.mem_replicate]) k

/-- Shifting twice shifts by the sum. -/
theorem shift_shift (j k : Nat) (text : List Char) : shift k (shift j text) = shift (k + j) text := by
  induction text with
  | nil => rfl
  | cons c text ih =>
    by_cases h : c = '\n'
    · subst h
      rw [shift_cons_newline, shift_cons_newline, shift_cons_newline, shift_append, shift_replicate_space, ih,
        ← List.append_assoc, List.replicate_append_replicate]
    · rw [shift_cons_of_ne h, shift_cons_of_ne h, shift_cons_of_ne h, ih]

@[simp] theorem shift_zero (text : List Char) : shift 0 text = text := by
  induction text with
  | nil => rfl
  | cons c text ih =>
    by_cases h : c = '\n'
    · subst h
      simp [ih]
    · rw [shift_cons_of_ne h, ih]

theorem shift_eq_nil {k : Nat} {text : List Char} : shift k text = [] ↔ text = [] := by
  cases text with
  | nil => simp
  | cons c text =>
    by_cases h : c = '\n'
    · subst h
      simp
    · simp [shift_cons_of_ne h]

private theorem opens_shift {k : Nat} {text : List Char} (h : Opens text) : Opens (shift k text) := by
  cases text with
  | nil => exact h
  | cons c text =>
    by_cases hc : c = '\n'
    · subst hc
      exact opens_cons _ rfl
    · rw [shift_cons_of_ne hc]
      exact h

/-- Indenting a text shifts it by two, and puts two spaces in front. -/
theorem indent_eq (text : List Char) : indent text = if text = [] then [] else ' ' :: ' ' :: shift 2 text := by
  have h : (text.flatMap fun c => if c = '\n' then ['\n', ' ', ' '] else [c]) = shift 2 text := rfl
  rw [indent, h, wrap]
  simp [shift_eq_nil]

/-! ### Texts that read the same at any indentation -/

/-- The lexer reads the terminals off the text, however far its lines are shifted. -/
def Prints (text : List Char) (ts : List Terminal) : Prop := ∀ k, Reads (shift k text) ts

namespace Prints

theorem nil : Prints [] [] := fun _ => Reads.nil

/-- A text is read as one list of terminals. -/
theorem unique {text : List Char} {ts us : List Terminal} (ht : Prints text ts) (hu : Prints text us) : ts = us :=
  (ht 0).unique (hu 0)

theorem eq_nil {ts : List Terminal} (h : Prints [] ts) : ts = [] := h.unique nil

/-- Texts are printed one after the other, if the second does not run into the first. -/
theorem append {a b : List Char} {ts us : List Terminal} (ha : Prints a ts) (hb : Prints b us) (hopens : Opens b) :
    Prints (a ++ b) (ts ++ us) := fun k => by
  rw [shift_append]
  exact (ha k).append (hb k) (opens_shift hopens)

theorem cons_blank {ch : Char} (h : isBlank ch = true) {text : List Char} {ts : List Terminal}
    (ht : Prints text ts) : Prints (ch :: text) ts := fun k => by
  by_cases hc : ch = '\n'
  · subst hc
    exact ((ht k).blanks fun c hc => by rw [(List.mem_replicate.1 hc).2]; rfl).cons_blank rfl
  · rw [shift_cons_of_ne hc]
    exact (ht k).cons_blank h

private theorem blanks {blank : List Char} (h : ∀ ch ∈ blank, isBlank ch = true) {text : List Char} {ts : List Terminal}
    (ht : Prints text ts) : Prints (blank ++ text) ts := by
  induction blank with
  | nil => exact ht
  | cons ch blank ih => exact (ih fun c hc => h c (by simp [hc])).cons_blank (h ch (by simp))

/-- A sign is read in front of whatever follows. -/
theorem cons_sign {c : Char} {p : Punctuator} (h : Punctuator.ofChar? c = some p) {text : List Char}
    {ts : List Terminal} (ht : Prints text ts) : Prints (c :: text) (sign p :: ts) := fun k => by
  have hc : c ≠ '\n' ∧ isBlank c = false ∧ c ≠ '#' := by
    refine ⟨?_, ?_, ?_⟩
    · rintro rfl
      cases h
    · cases hb : isBlank c with
      | false => rfl
      | true =>
        simp only [isBlank, Bool.or_eq_true, decide_eq_true_eq] at hb
        rcases hb with ((((rfl | rfl) | rfl) | rfl) | rfl) | rfl <;> cases h
    · rintro rfl
      cases h
  rw [shift_cons_of_ne hc.1]
  have hread (rest : List Char) : Lexeme.read c ([] ++ rest) = ⟨.punctuator p, [c], rest⟩ := by
    simp [Lexeme.read, h]
  exact Reads.lexeme hc.2.1 hc.2.2 hread rfl (ht k)

theorem dots {text : List Char} {ts : List Terminal} (ht : Prints text ts) :
    Prints ("...".toList ++ text) (sign .ellipsis :: ts) := fun k => by
  rw [shift_append, shift_of_not_mem (by decide)]
  have hread (rest : List Char) :
      Lexeme.read '.' (['.', '.'] ++ rest) = ⟨.punctuator .ellipsis, "...".toList, rest⟩ :=
    rfl
  exact Reads.lexeme (by decide) (by decide) hread rfl (ht k)

/-- An indented text reads the same. -/
theorem indent {text : List Char} {ts : List Terminal} (ht : Prints text ts) :
    Prints (indent text) ts := fun k => by
  rw [indent_eq]
  split
  · rename_i h
    subst h
    rw [ht.eq_nil]
    exact Reads.nil
  · rw [shift_cons_of_ne (by decide), shift_cons_of_ne (by decide), shift_shift]
    exact ((ht (k + 2)).cons_blank rfl).cons_blank rfl

section
variable {α : Type} {separator : List Char} {f : α → List Char} {g : α → List Terminal} {items : List α}

/-- Texts with separators between them, none of which is empty. -/
theorem intercalate (hblank : ∀ ch ∈ separator, isBlank ch = true) (hopens : Opens separator)
    (hne : separator ≠ []) (h : ∀ a ∈ items, Prints (f a) (g a)) :
    Prints (separator.intercalate (items.map f)) (items.flatMap g) := by
  induction items with
  | nil => exact nil
  | cons a items ih =>
    have htail := ih fun b hb => h b (by simp [hb])
    cases items with
    | nil => simpa using h a (by simp)
    | cons b items =>
      rw [List.map_cons, List.map_cons, List.intercalate_cons_cons, List.flatMap_cons, List.append_assoc]
      refine (h a (by simp)).append (htail.blanks hblank) ?_
      cases separator with
      | nil => exact absurd rfl hne
      | cons c separator => exact opens_cons _ (hopens c rfl)

theorem join_cons {a : List Char} {parts : List (List Char)} {ts us : List Terminal}
    (hblank : ∀ ch ∈ separator, isBlank ch = true) (hopens : Opens separator) (hne : separator ≠ [])
    (ha : Prints a ts) (h : Prints (Layout.join separator parts) us) :
    Prints (Layout.join separator (a :: parts)) (ts ++ us) := by
  by_cases hempty : a = []
  · subst hempty
    rw [ha.eq_nil]
    simpa [Layout.join] using h
  · rw [Layout.join] at h
    rw [Layout.join, List.filter_cons_of_pos (by simpa using hempty)]
    cases hparts : parts.filter (· ≠ []) with
    | nil =>
      rw [hparts] at h
      rw [h.eq_nil]
      simpa using ha
    | cons b bs =>
      rw [hparts] at h
      rw [List.intercalate_cons_cons, List.append_assoc]
      refine ha.append (h.blanks hblank) ?_
      cases separator with
      | nil => exact absurd rfl hne
      | cons c separator => exact opens_cons _ (hopens c rfl)

/-- Texts with blank separators between them read one after the other, empty ones left out. -/
theorem join (hblank : ∀ ch ∈ separator, isBlank ch = true) (hopens : Opens separator)
    (hne : separator ≠ []) (h : ∀ a ∈ items, Prints (f a) (g a)) :
    Prints (join separator (items.map f)) (items.flatMap g) := by
  induction items with
  | nil => exact nil
  | cons a items ih =>
    rw [List.map_cons, List.flatMap_cons]
    exact join_cons hblank hopens hne (h a (by simp)) (ih fun b hb => h b (by simp [hb]))

end

end Prints

/-- The tokens of a text that prints terminals are these, and the end of the input. -/
theorem Prints.tokens {text : List Char} {ts : List Terminal} (h : Prints text ts) :
    ∃ us e, tokens (String.ofList text) = us ++ [e] ∧ us.map Token.terminal = ts ∧ e.kind = .endOfInput := by
  obtain ⟨us, c, htokens, hts⟩ := h 0 .start [] opens_nil
  rw [shift_zero, List.append_nil] at htokens
  refine ⟨us, ⟨.endOfInput, .emptyAt (c.after (ignored []).1).position⟩, ?_, hts, rfl⟩
  rw [GraphQL.tokens, String.toList_ofList, htokens, tokensFrom_eq]
  rfl

end GraphQL
