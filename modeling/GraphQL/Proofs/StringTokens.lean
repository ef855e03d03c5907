import GraphQL.Proofs.Evaluation
import GraphQL.Proofs.QuotedSpelling
import GraphQL.Proofs.TokenLines
import Mathlib.Data.List.Induction

/-!
# Where string tokens end

A string literal ends with its first closing delimiter that is not escaped. The lexer takes escapes as they come, one
after the other; here they are told from the text in front of a delimiter. A quote is escaped by a backslash that is not
escaped itself, a triple quote by a backslash right in front of it, or in front of another triple quote that it
overlaps. Each scanner stops at the end of a text just when the text holds no delimiter before that is not escaped
(`Quoted.quotedLength_eq_iff`, `Block.blockLength_eq_iff`), so string tokens are the literals of this shape
(`tokens_string`). Cooking asks for less: it takes texts apart that the lexer does not (`cooks_beside_tokens`).
-/

namespace GraphQL

namespace Quoted

/-- Whether the character behind a text is escaped: the text ends in a backslash that is not escaped itself. The flag
tells whether the first character is. -/
def escapedAfter (escaped : Bool) : List Char → Bool
  | [] => escaped
  | c :: text => escapedAfter (c = '\\' && !escaped) text

/-- A text between two quotes, which has no other unescaped quotes. -/
def Delimited (raw : List Char) : Prop :=
  ∃ body, raw = '"' :: body ++ ['"'] ∧ ∀ before after, raw = before ++ '"' :: after →
    (escapedAfter false before = false ↔ before = [] ∨ after = [])

/-- The first unescaped quote behind the front of the body is the one at its end. -/
def ClosedBehind (escaped : Bool) (body : List Char) : Prop :=
  ∀ before after, body ++ ['"'] = before ++ '"' :: after → (escapedAfter escaped before = false ↔ after = [])

private theorem closedBehind_nil {escaped : Bool} : ClosedBehind escaped [] ↔ escaped = false := by
  constructor
  · intro h
    exact (h [] [] rfl).2 rfl
  · rintro rfl before after hsplit
    obtain ⟨rfl, rfl⟩ : before = [] ∧ after = [] := by
      cases before <;> simp_all
    simp [escapedAfter]

private theorem closedBehind_cons {escaped : Bool} {c : Char} {body : List Char} : ClosedBehind escaped (c :: body) ↔
    (c = '"' → escaped = true) ∧ ClosedBehind (c = '\\' && !escaped) body := by
  constructor
  · refine fun h => ⟨?_, fun before after hsplit => h (c :: before) after (by rw [List.cons_append, hsplit]; rfl)⟩
    rintro rfl
    have hfront := h [] (body ++ ['"']) rfl
    simpa [escapedAfter] using hfront
  · rintro ⟨hquote, hbody⟩ before after hsplit
    cases before with
    | nil =>
      obtain ⟨rfl, rfl⟩ := List.cons.inj hsplit
      simp [escapedAfter, hquote rfl]
    | cons d before =>
      obtain ⟨rfl, htail⟩ := List.cons.inj hsplit
      exact hbody before after htail

private theorem delimited_iff {body : List Char} : Delimited ('"' :: body ++ ['"']) ↔ ClosedBehind false body := by
  constructor
  · rintro ⟨-, -, h⟩ before after hsplit
    have hraw := h ('"' :: before) after (by rw [List.cons_append, hsplit]; rfl)
    simpa [escapedAfter] using hraw
  · refine fun h => ⟨body, rfl, fun before after hsplit => ?_⟩
    cases before with
    | nil => simp [escapedAfter]
    | cons c before =>
      obtain ⟨rfl, htail⟩ := List.cons.inj hsplit
      simpa [escapedAfter] using h before after htail

/-- The lexer ends a quoted string with its first unescaped quote. -/
theorem quotedLength_eq_iff {body : List Char} (hinline : ∀ c ∈ body, isLineTerminator c = false) :
    quotedLength (body ++ ['"']) = (body.length + 1, .closed) ↔ ClosedBehind false body := by
  induction hn : body.length using Nat.strongRecOn generalizing body with
  | ind n ih =>
    subst hn
    cases body with
    | nil => simp [quotedLength, closedBehind_nil]
    | cons c body =>
      obtain ⟨hc, hbody⟩ := List.forall_mem_cons.1 hinline
      by_cases hescape : c = '\\'
      · subst hescape
        cases body with
        | nil => simp [quotedLength, isLineTerminator, closedBehind_cons, closedBehind_nil]
        | cons d body =>
          -- the character behind a backslash is taken along, even a quote
          obtain ⟨hd, hbody⟩ := List.forall_mem_cons.1 hbody
          have hrest := ih body.length (by simp only [List.length_cons]; omega) hbody rfl
          rw [Prod.ext_iff] at hrest
          simp [quotedLength, hd, closedBehind_cons, ← hrest, Prod.ext_iff]
      · by_cases hquote : c = '"'
        · simp [hquote, quotedLength, closedBehind_cons]
        · have hrest := ih body.length (by simp) hbody rfl
          rw [Prod.ext_iff] at hrest
          simp [quotedLength_plain ⟨hquote, hescape, hc⟩, closedBehind_cons, hquote, hescape, ← hrest, Prod.ext_iff]

/-- A quoted string that is closed ends with a quote. -/
theorem take_of_closed {text : List Char} {n : Nat} (h : quotedLength text = (n, .closed)) :
    ∃ body, text.take n = body ++ ['"'] := by
  fun_induction quotedLength text generalizing n with
  | case1 => cases h
  | case2 rest =>
    cases h
    exact ⟨[], rfl⟩
  | case3 => cases h
  | case4 => cases h
  | case5 c rest hterminator m e hlength ih =>
    obtain ⟨rfl, rfl⟩ := Prod.mk.inj h
    obtain ⟨body, hbody⟩ := ih hlength
    exact ⟨'\\' :: body, by rw [List.take_succ_cons, hbody, List.cons_append]⟩
  | case6 c rest hterminator m e hlength ih =>
    obtain ⟨rfl, rfl⟩ := Prod.mk.inj h
    obtain ⟨body, hbody⟩ := ih hlength
    exact ⟨'\\' :: c :: body, by rw [List.take_succ_cons, List.take_succ_cons, hbody]; rfl⟩
  | case7 c rest hquote hfeed hreturn hescape m e hlength ih =>
    obtain ⟨rfl, rfl⟩ := Prod.mk.inj h
    obtain ⟨body, hbody⟩ := ih hlength
    exact ⟨c :: body, by rw [List.take_succ_cons, hbody, List.cons_append]⟩

/-- What follows a closed string does not change where it ends. -/
theorem closed_append {taken : List Char} (h : quotedLength taken = (taken.length, .closed)) (z : List Char) :
    quotedLength (taken ++ z) = (taken.length, .closed) := by
  obtain ⟨body, rest, rfl, hlength, hz⟩ := quotedLength_closed h
  rw [List.append_assoc]
  exact hz _

private theorem delimited_of_genuine {raw : String} (h : (Token.Kind.string raw).Genuine) : Delimited raw.toList := by
  obtain ⟨taken, htaken, hz⟩ := h.exists_quoted
  have hclosed := hz []
  rw [List.append_nil] at hclosed
  obtain ⟨body, hbody⟩ := take_of_closed hclosed
  rw [List.take_length] at hbody
  subst hbody
  have hinline : ∀ c ∈ body, isLineTerminator c = false := fun c hc =>
    h.inline_string c (by rw [htaken]; simp [hc])
  rw [htaken]
  rw [List.length_append, List.length_singleton] at hclosed
  exact delimited_iff.2 ((quotedLength_eq_iff hinline).1 hclosed)

/-- A quoted literal is read as one token, unless what follows makes a triple quote of it. -/
theorem Delimited.read {raw : List Char} (h : Delimited raw) (hinline : ∀ c ∈ raw, isLineTerminator c = false)
    {after : List Char} (hempty : raw = ['"', '"'] → after.head? ≠ some '"') :
    ∃ rest, raw ++ after = '"' :: rest ∧ Lexeme.read '"' rest = ⟨.string (String.ofList raw), raw, after⟩ := by
  obtain ⟨body, rfl, -⟩ := id h
  have hbody : ∀ c ∈ body, isLineTerminator c = false := fun c hc => hinline c (by simp [hc])
  have hclosed := (quotedLength_eq_iff hbody).2 (delimited_iff.1 h)
  have hlength : body.length + 1 = (body ++ ['"']).length := by simp
  rw [hlength] at hclosed
  refine ⟨body ++ ['"'] ++ after, rfl, readString_quoted (closed_append hclosed after) fun rest hrest => ?_⟩
  obtain ⟨hquote, rfl⟩ := eq_quote_of_closed (closed_append hclosed after) hrest
  exact hempty (by rw [List.cons_append, hquote]) rfl

private theorem escapedAfter_append (escaped : Bool) (s t : List Char) :
    escapedAfter escaped (s ++ t) = escapedAfter (escapedAfter escaped s) t := by
  induction s generalizing escaped with
  | nil => rfl
  | cons c s ih => exact ih _

private theorem escapedAfter_of_not_mem {text : List Char} (h : '\\' ∉ text) : escapedAfter false text = false := by
  induction text with
  | nil => rfl
  | cons c text ih =>
    simp only [List.mem_cons, not_or] at h
    rw [escapedAfter, decide_eq_false (Ne.symm h.1), Bool.false_and]
    exact ih h.2

private theorem not_mem_of_writesHex {digits : List Char} {n : Nat} (h : WritesHex digits n) : '\\' ∉ digits := by
  intro hmem
  have hdigit := isDigit_iff.1 (h.isDigit _ hmem)
  revert hdigit
  decide

/-- Behind the spelling of a character, the next one is not escaped. -/
theorem SpellsChar.escapedAfter_eq_false {spelling : List Char} {c : Char} (h : SpellsChar spelling c) :
    escapedAfter false spelling = false := by
  cases h with
  | raw h => simp [escapedAfter, h]
  | short h => simp [escapedAfter]
  | digits hlength h =>
    have hdigits := escapedAfter_of_not_mem (not_mem_of_writesHex h)
    simp [escapedAfter, hdigits]
  | surrogates hc hlead htrail h h' =>
    have hlead := escapedAfter_of_not_mem (not_mem_of_writesHex h)
    have htrail := escapedAfter_of_not_mem (not_mem_of_writesHex h')
    simp [escapedAfter, escapedAfter_append, hlead, htrail]
  | braces hne hlength h =>
    have hdigits := escapedAfter_of_not_mem (not_mem_of_writesHex h)
    simp [escapedAfter, escapedAfter_append, hdigits]

private theorem eq_error_of_bind {ε α β : Type} {x : Except ε α} {f : α → Except ε β} {e : ε}
    (h : (x >>= f) = .error e) : x = .error e ∨ ∃ a, f a = .error e := by
  cases x with
  | ok a => exact .inr ⟨a, h⟩
  | error e' => exact .inl (congrArg Except.error (Except.error.inj h))

private theorem readDigits_error {digits text : List Char} {n : Nat} {e : StringError}
    (h : readDigits digits n text = .error e) : ∃ escape, e = .invalidUnicodeEscape escape := by
  fun_induction readDigits digits n text with
  | case1 => cases h
  | case2 => exact ⟨_, (Except.error.inj h).symm⟩
  | case3 _ _ _ _ _ ih => exact ih h
  | case4 => exact ⟨_, (Except.error.inj h).symm⟩

private theorem readBraced_error {digits text : List Char} {e : StringError} (h : readBraced digits text = .error e) :
    ∃ escape, e = .invalidUnicodeEscape escape := by
  fun_induction readBraced digits text with
  | case1 => exact ⟨_, (Except.error.inj h).symm⟩
  | case2 => cases h
  | case3 _ _ _ _ _ ih => exact ih h
  | case4 => exact ⟨_, (Except.error.inj h).symm⟩

private theorem readTrail_error {lead : Nat} {text : List Char} {e : StringError} (h : readTrail lead text = .error e) :
    ∃ escape, e = .invalidUnicodeEscape escape := by
  unfold readTrail at h
  split at h
  · rcases eq_error_of_bind h with hdigits | ⟨⟨digits, rest⟩, h⟩
    · exact readDigits_error hdigits
    · dsimp only at h
      split at h
      · cases h
      · exact ⟨_, (Except.error.inj h).symm⟩
  · exact ⟨_, (Except.error.inj h).symm⟩

private theorem readUnicode_error {text : List Char} {e : StringError} (h : readUnicode text = .error e) :
    ∃ escape, e = .invalidUnicodeEscape escape := by
  unfold readUnicode at h
  split at h
  · rcases eq_error_of_bind h with hdigits | ⟨⟨digits, rest⟩, h⟩
    · exact readBraced_error hdigits
    · dsimp only at h
      split at h
      · cases h
      · exact ⟨_, (Except.error.inj h).symm⟩
  · rcases eq_error_of_bind h with hdigits | ⟨⟨digits, rest⟩, h⟩
    · exact readDigits_error hdigits
    · dsimp only at h
      split at h
      · cases h
      · split at h
        · exact readTrail_error h
        · exact ⟨_, (Except.error.inj h).symm⟩

private theorem eq_error_of_map {ε α β : Type} {x : Except ε α} {f : α → β} {e : ε} (h : x.map f = .error e) :
    x = .error e := by
  cases x with
  | ok a => cases h
  | error e' => exact congrArg Except.error (Except.error.inj h)

/-- Only a text that would escape the closing quote ends in a backslash alone. -/
theorem decode_error {text : List Char} {e : StringError} (h : decode text = .error e) :
    e ≠ .unterminated ∧ (e = .invalidEscape "\\" → escapedAfter false text = true) := by
  fun_induction decode text with
  | case1 => cases h
  | case2 text c rest hread ih =>
    obtain ⟨w, rfl, hspells⟩ := spellsChar_of_readUnicode hread
    have hw := hspells.escapedAfter_eq_false
    obtain ⟨hne, hbackslash⟩ := ih (eq_error_of_map h)
    refine ⟨hne, fun he => ?_⟩
    rw [← List.cons_append, ← List.cons_append, escapedAfter_append, hw]
    exact hbackslash he
  | case3 text e' hread =>
    obtain ⟨escape, rfl⟩ := readUnicode_error hread
    cases h
    simp
  | case4 =>
    cases h
    simp [escapedAfter]
  | case5 c rest hu d hescape ih => simpa [escapedAfter] using ih (eq_error_of_map h)
  | case6 c rest hu hescape =>
    cases h
    refine ⟨by simp, fun he => ?_⟩
    have hchars := congrArg String.toList (StringError.invalidEscape.inj he)
    rw [String.toList_ofList] at hchars
    cases hchars
  | case7 c rest hu hlast hescape ih =>
    have hc : c ≠ '\\' := by
      rintro rfl
      cases rest with
      | nil => exact hlast rfl rfl
      | cons e rest => exact hescape e rest rfl rfl
    simpa [escapedAfter, hc] using ih (eq_error_of_map h)

/-- Cooking a delimited text may fail for its escapes, but not for its delimiters. -/
theorem Delimited.cook_ne {raw : String} (h : Delimited raw.toList) :
    cook raw ≠ .error .unterminated ∧ cook raw ≠ .error (.invalidEscape "\\") := by
  obtain ⟨body, hraw, hquotes⟩ := h
  have hlast : escapedAfter false body = false := by
    simpa [escapedAfter] using (hquotes ('"' :: body) [] hraw).2 (.inr rfl)
  rw [cook_eq_decode hraw]
  refine ⟨fun he => (decode_error (eq_error_of_map he)).1 rfl, fun he => ?_⟩
  have hbackslash := (decode_error (eq_error_of_map he)).2 rfl
  rw [hlast] at hbackslash
  cases hbackslash

end Quoted

namespace Block

/-! ### Unescaped triple quotes -/

/-- A triple quote behind the text is escaped: a backslash stands right in front of it, or in front of one or two quotes
that it shares with the triple quote behind the backslash. -/
def EscapesBehind (before : List Char) : Prop := ∃ n < 3, '\\' :: List.replicate n '"' <:+ before

/-- A text between two triple quotes. Of the triple quotes behind the opening one, which may overlap, only the closing
one is not escaped. -/
def Delimited (raw : List Char) : Prop :=
  ∃ content, raw = tripleQuote ++ content ++ tripleQuote ∧ ∀ before after,
    content ++ tripleQuote = before ++ tripleQuote ++ after → (¬ EscapesBehind before ↔ after = [])

/-- The number of quotes after the last backslash, where only quotes follow it and there are fewer than three. Otherwise
it is three, as many as no escape covers. -/
def quotesAfter (n : Nat) : List Char → Nat
  | [] => n
  | c :: text => quotesAfter (if c = '\\' then 0 else if c = '"' then min 3 (n + 1) else 3) text

private theorem quotesAfter_append (n : Nat) (s t : List Char) :
    quotesAfter n (s ++ t) = quotesAfter (quotesAfter n s) t := by
  induction s generalizing n with
  | nil => rfl
  | cons c s ih => exact ih _

private theorem concat_suffix_concat {s t : List Char} {c d : Char} : s ++ [c] <:+ t ++ [d] ↔ c = d ∧ s <:+ t := by
  constructor
  · rintro ⟨front, h⟩
    rw [← List.append_assoc] at h
    obtain ⟨rfl, hc⟩ := List.append_inj' h rfl
    exact ⟨(List.cons.inj hc).1, front, rfl⟩
  · rintro ⟨rfl, front, rfl⟩
    exact ⟨front, (List.append_assoc ..).symm⟩

private theorem quotesAfter_eq_iff {n : Nat} (hn : n < 3) {text : List Char} :
    quotesAfter 3 text = n ↔ '\\' :: List.replicate n '"' <:+ text := by
  induction text using List.reverseRecOn generalizing n with
  | nil =>
    simp [quotesAfter]
    omega
  | append_singleton text c ih =>
    rw [quotesAfter_append, quotesAfter, quotesAfter]
    cases n with
    | zero =>
      rw [List.replicate_zero, ← List.nil_append ['\\'], concat_suffix_concat]
      by_cases hbackslash : c = '\\'
      · simp [hbackslash]
      · rw [if_neg hbackslash]
        have hpos : ¬ (if c = '"' then min 3 (quotesAfter 3 text + 1) else 3) = 0 := by split <;> omega
        simp [hpos, Ne.symm hbackslash]
    | succ n =>
      rw [List.replicate_succ', ← List.cons_append, concat_suffix_concat, ← ih (by omega)]
      by_cases hquote : c = '"'
      · simp only [hquote, Char.reduceEq, if_false, if_true, true_and]
        omega
      · have hthree : ¬ (if c = '\\' then 0 else 3) = n + 1 := by split <;> omega
        simp [hquote, hthree, Ne.symm hquote]

private theorem escapesBehind_iff {text : List Char} : EscapesBehind text ↔ quotesAfter 3 text < 3 := by
  constructor
  · rintro ⟨n, hn, hsuffix⟩
    rwa [(quotesAfter_eq_iff hn).2 hsuffix]
  · exact fun h => ⟨_, h, (quotesAfter_eq_iff h).1 rfl⟩

/-- Behind `n` quotes after a backslash, the first triple quote that is not escaped is the one at the end. -/
def ClosedBehind (n : Nat) (content : List Char) : Prop :=
  ∀ before after, content ++ tripleQuote = before ++ tripleQuote ++ after → (¬ quotesAfter n before < 3 ↔ after = [])

private theorem delimited_iff {content : List Char} :
    Delimited (tripleQuote ++ content ++ tripleQuote) ↔ ClosedBehind 3 content := by
  constructor
  · rintro ⟨content', hcontent, h⟩ before after hsplit
    obtain rfl := List.append_cancel_left (List.append_cancel_right hcontent)
    rw [← escapesBehind_iff]
    exact h before after hsplit
  · refine fun h => ⟨content, rfl, fun before after hsplit => ?_⟩
    rw [escapesBehind_iff]
    exact h before after hsplit

private theorem closedBehind_nil {n : Nat} : ClosedBehind n [] ↔ ¬ n < 3 := by
  constructor
  · intro h
    exact (h [] [] rfl).2 rfl
  · intro hn before after hsplit
    obtain ⟨rfl, rfl⟩ : before = [] ∧ after = [] := by
      have hlength := congrArg List.length hsplit
      simp only [tripleQuote, List.length_append, List.length_cons, List.length_nil] at hlength
      exact ⟨List.length_eq_zero_iff.1 (by omega), List.length_eq_zero_iff.1 (by omega)⟩
    simpa [quotesAfter] using hn

private theorem closedBehind_cons {n : Nat} {c : Char} {content : List Char} : ClosedBehind n (c :: content) ↔
    (tripleQuote <+: c :: content ++ tripleQuote → n < 3) ∧
      ClosedBehind (if c = '\\' then 0 else if c = '"' then min 3 (n + 1) else 3) content := by
  constructor
  · refine fun h => ⟨?_, fun before after hsplit => h (c :: before) after (by rw [List.cons_append, hsplit]; rfl)⟩
    rintro ⟨after, hafter⟩
    have hne : after ≠ [] := by
      rintro rfl
      simpa [tripleQuote] using congrArg List.length hafter
    have hfront := h [] after hafter.symm
    simpa [quotesAfter, hne] using hfront
  · rintro ⟨htriple, hcontent⟩ before after hsplit
    cases before with
    | nil =>
      have hne : after ≠ [] := by
        rintro rfl
        simpa [tripleQuote] using congrArg List.length hsplit
      simp [quotesAfter, htriple ⟨after, hsplit.symm⟩, hne]
    | cons d before =>
      obtain ⟨rfl, htail⟩ := List.cons.inj hsplit
      exact hcontent before after htail

/-- A character that is no quote leaves no difference between texts without a backslash close by. -/
theorem closedBehind_cons_congr {m n : Nat} {c : Char} (hc : c ≠ '"') (content : List Char) :
    ClosedBehind m (c :: content) ↔ ClosedBehind n (c :: content) := by
  simp [closedBehind_cons, tripleQuote, hc, Ne.symm hc]

/-- Where two quotes behind a backslash are no part of a triple quote, nothing is escaped any more. -/
theorem closedBehind_two {content : List Char} (h : ¬ ['"'] <+: content ++ tripleQuote) :
    ClosedBehind 2 content ↔ ClosedBehind 3 content := by
  cases content with
  | nil => exact absurd (by decide) h
  | cons c content =>
    have hc : c ≠ '"' := by
      rintro rfl
      exact h (List.prefix_append _ _)
    exact closedBehind_cons_congr hc content

/-- Where one quote behind a backslash is no part of a triple quote, nothing is escaped any more. -/
theorem closedBehind_one {content : List Char} (h : ¬ ['"', '"'] <+: content ++ tripleQuote) :
    ClosedBehind 1 content ↔ ClosedBehind 3 content := by
  cases content with
  | nil => exact absurd (by decide) h
  | cons c content =>
    by_cases hc : c = '"'
    · subst hc
      have hquote : ¬ ['"'] <+: content ++ tripleQuote := by simpa using h
      have htriple : ¬ tripleQuote <+: '"' :: (content ++ tripleQuote) := fun hprefix =>
        hquote ((List.prefix_append ['"'] ['"']).trans (List.cons_prefix_cons.1 hprefix).2)
      simp [closedBehind_cons, htriple, closedBehind_two hquote]
    · exact closedBehind_cons_congr hc content

/-- The triple quote at the front of a closed text is the closing one, or shares quotes with it, or stands before it. -/
theorem cases_of_triple {content : List Char} (h : tripleQuote <+: content ++ tripleQuote) :
    content = [] ∨ content = ['"'] ∨ content = ['"', '"'] ∨ ∃ rest, content = tripleQuote ++ rest := by
  match content, h with
  | [], _ => exact .inl rfl
  | [c], h =>
    obtain rfl : '"' = c := by simpa [tripleQuote] using h
    exact .inr (.inl rfl)
  | [c, d], h =>
    obtain ⟨rfl, rfl⟩ : '"' = c ∧ '"' = d := by simpa [tripleQuote] using h
    exact .inr (.inr (.inl rfl))
  | c :: d :: e :: rest, h =>
    obtain ⟨rfl, rfl, rfl⟩ : '"' = c ∧ '"' = d ∧ '"' = e := by simpa [tripleQuote] using h
    exact .inr (.inr (.inr ⟨rest, rfl⟩))

/-- The lexer ends a block string with its first triple quote that is not escaped. -/
theorem blockLength_eq_iff (content : List Char) :
    (blockLength false (content ++ tripleQuote) = (content.length + 3, .closed) ↔ ClosedBehind 3 content) ∧
      (blockLength true (content ++ tripleQuote) = (content.length + 3, .closed) ↔ ClosedBehind 0 content) := by
  induction hn : content.length using Nat.strongRecOn generalizing content with
  | ind n ih =>
    subst hn
    by_cases htriple : tripleQuote <+: content ++ tripleQuote
    · rcases cases_of_triple htriple with rfl | rfl | rfl | ⟨rest, rfl⟩
      · simp [closedBehind_nil, blockLength, tripleQuote]
      · simp [closedBehind_cons, closedBehind_nil, blockLength, tripleQuote]
      · simp [closedBehind_cons, closedBehind_nil, blockLength, tripleQuote]
      -- the lexer goes on behind an escaped triple quote
      · have hlt : rest.length < (tripleQuote ++ rest).length := by
          simp only [tripleQuote, List.length_append, List.length_cons]
          omega
        obtain ⟨hunescaped, -⟩ := ih rest.length hlt rest rfl
        simp only [Prod.ext_iff, tripleQuote] at hunescaped
        simp [closedBehind_cons, blockLength, tripleQuote, ← hunescaped, Prod.ext_iff]
    · cases content with
      | nil => exact absurd (List.prefix_refl _) htriple
      | cons c content =>
        have hnot : ∀ rest, c = '"' → content ++ tripleQuote ≠ '"' :: '"' :: rest := by
          rintro rest rfl hrest
          exact htriple (by rw [List.cons_append, hrest]; exact List.prefix_append tripleQuote rest)
        obtain ⟨hunescaped, hescaped⟩ := ih content.length (by simp) content rfl
        rw [Prod.ext_iff] at hunescaped hescaped
        rw [closedBehind_cons, closedBehind_cons, List.cons_append, blockLength_cons hnot, blockLength_cons hnot]
        rw [List.cons_append] at htriple
        by_cases hbackslash : c = '\\'
        · subst hbackslash
          simp [htriple, Prod.ext_iff, ← hescaped]
        · by_cases hquote : c = '"'
          · have hpair : ¬ ['"', '"'] <+: content ++ tripleQuote := by
              rintro ⟨rest, hrest⟩
              exact hnot rest hquote hrest.symm
            subst hquote
            simp [htriple, Prod.ext_iff, closedBehind_one hpair, ← hunescaped]
          · simp [htriple, hbackslash, hquote, Prod.ext_iff, ← hunescaped]

/-- A block string that is closed ends with a triple quote. -/
theorem take_of_closed {escaped : Bool} {text : List Char} {n : Nat} (h : blockLength escaped text = (n, .closed)) :
    ∃ content, text.take n = content ++ tripleQuote := by
  fun_induction blockLength escaped text generalizing n with
  | case1 rest m e hlength ih =>
    obtain ⟨rfl, rfl⟩ := Prod.mk.inj h
    obtain ⟨content, hcontent⟩ := ih hlength
    exact ⟨tripleQuote ++ content, by rw [List.append_assoc, ← hcontent]; rfl⟩
  | case2 escaped rest hescaped =>
    cases h
    exact ⟨[], rfl⟩
  | case3 escaped c rest htriple m e hlength ih =>
    obtain ⟨rfl, rfl⟩ := Prod.mk.inj h
    obtain ⟨content, hcontent⟩ := ih hlength
    exact ⟨c :: content, by rw [List.take_succ_cons, hcontent, List.cons_append]⟩
  | case4 => cases h

private theorem closed_append {taken : List Char} (h : blockLength false taken = (taken.length, .closed))
    (z : List Char) : blockLength false (taken ++ z) = (taken.length, .closed) := by
  obtain ⟨body, rest, rfl, hlength, -, hz⟩ := blockLength_closed h
  rw [List.append_assoc]
  exact hz _

private theorem delimited_of_genuine {raw : String} (h : (Token.Kind.blockString raw).Genuine) :
    Delimited raw.toList := by
  obtain ⟨taken, htaken, hz⟩ := h.exists_block
  have hclosed := hz []
  rw [List.append_nil] at hclosed
  obtain ⟨content, hcontent⟩ := take_of_closed hclosed
  rw [List.take_length] at hcontent
  subst hcontent
  rw [htaken]
  exact delimited_iff.2 ((blockLength_eq_iff content).1.1 (by rw [hclosed, List.length_append]; rfl))

/-- A block literal is read as one token. -/
theorem Delimited.read {raw : List Char} (h : Delimited raw) (after : List Char) :
    ∃ rest, raw ++ after = '"' :: rest ∧ Lexeme.read '"' rest = ⟨.blockString (String.ofList raw), raw, after⟩ := by
  obtain ⟨content, rfl, -⟩ := id h
  have hclosed := (blockLength_eq_iff content).1.2 (delimited_iff.1 h)
  have hlength : content.length + 3 = (content ++ tripleQuote).length := by simp [tripleQuote]
  rw [hlength] at hclosed
  exact ⟨'"' :: '"' :: (content ++ tripleQuote ++ after), rfl, readString_block (closed_append hclosed after)⟩

/-- A delimited text always cooks. -/
theorem Delimited.exists_cook {raw : String} (h : Delimited raw.toList) : ∃ value, cook raw = .ok value := by
  obtain ⟨content, hraw, -⟩ := h
  exact ⟨_, by rw [cook, between?_eq_some_iff.2 hraw]⟩

end Block

/-! ### Tokens -/

/-- The literal of a string token has no unescaped delimiters but those at its ends, so cooking finds it closed. And a
literal of this shape at the start of a token is the whole token, where a quoted literal keeps to one line and an empty
one does not make a triple quote with what follows. -/
theorem tokens_string {source : String} {t : Token} (ht : t ∈ tokens source) :
    (∀ raw, t.kind = .string raw → Quoted.cook raw ≠ .error .unterminated ∧
      Quoted.cook raw ≠ .error (.invalidEscape "\\") ∧ Quoted.Delimited raw.toList ∧
      ∀ c ∈ raw.toList, isLineTerminator c = false) ∧
    (∀ raw, t.kind = .blockString raw → (∃ value, Block.cook raw = .ok value) ∧ Block.Delimited raw.toList) ∧
    ∀ front raw after, source.toList = front ++ raw ++ after → t.span.first = .after front →
      (Quoted.Delimited raw → (∀ c ∈ raw, isLineTerminator c = false) →
        (raw = ['"', '"'] → after.head? ≠ some '"') →
        t = ⟨.string (String.ofList raw), ⟨.after front, .after (front ++ raw)⟩⟩) ∧
      (Block.Delimited raw → t = ⟨.blockString (String.ofList raw), ⟨.after front, .after (front ++ raw)⟩⟩) := by
  have hgenuine := tokensFrom_genuine _ _ t ht
  refine ⟨fun raw hraw => ?_, fun raw hraw => ?_, fun front raw after hsource hfirst => ?_⟩
  · rw [hraw] at hgenuine
    have hdelimited := Quoted.delimited_of_genuine hgenuine
    exact ⟨hdelimited.cook_ne.1, hdelimited.cook_ne.2, hdelimited, hgenuine.inline_string⟩
  · rw [hraw] at hgenuine
    have hdelimited := Block.delimited_of_genuine hgenuine
    exact ⟨hdelimited.exists_cook, hdelimited⟩
  · rw [List.append_assoc] at hsource
    constructor
    · intro hdelimited hinline hempty
      obtain ⟨rest, hrest, hread⟩ := hdelimited.read hinline hempty
      rw [hrest] at hsource
      rw [eq_read_of_first ht hsource hfirst, hread]
    · intro hdelimited
      obtain ⟨rest, hrest, hread⟩ := hdelimited.read after
      rw [hrest] at hsource
      rw [eq_read_of_first ht hsource hfirst, hread]

/-- An escaped backslash in front of a closing quote, and a quote behind an escaped triple quote. -/
theorem tokens_string_of_backslashes :
    let source := "\"\\\\\" \"\"\"\\\"\"\"\"x\"\"\""
    let quoted : Token := ⟨.string "\"\\\\\"", ⟨⟨0, 0, 0, 0⟩, ⟨0, 4, 4, 4⟩⟩⟩
    let block : Token := ⟨.blockString "\"\"\"\\\"\"\"\"x\"\"\"", ⟨⟨0, 5, 5, 5⟩, ⟨0, 17, 17, 17⟩⟩⟩
    quoted ∈ tokens source ∧ Quoted.Delimited "\"\\\\\"".toList ∧
      block ∈ tokens source ∧ Block.Delimited "\"\"\"\\\"\"\"\"x\"\"\"".toList ∧
      ∀ t ∈ tokens source, (t.span.first = ⟨0, 0, 0, 0⟩ → t = quoted) ∧ (t.span.first = ⟨0, 5, 5, 5⟩ → t = block) := by
  intro source quoted block
  have htext : source.toList = ['"', '\\', '\\', '"', ' ', '"', '"', '"', '\\', '"', '"', '"', '"', 'x', '"', '"',
      '"'] := String.toList_ofList
  have hquotedText : "\"\\\\\"".toList = ['"', '\\', '\\', '"'] := String.toList_ofList
  have hblockText : "\"\"\"\\\"\"\"\"x\"\"\"".toList = ['"', '"', '"', '\\', '"', '"', '"', '"', 'x', '"', '"', '"'] :=
    String.toList_ofList
  have hquoted : quoted ∈ tokens source := by
    rw [tokens_eq_lexChars htext]
    decide +kernel
  have hblock : block ∈ tokens source := by
    rw [tokens_eq_lexChars htext]
    decide +kernel
  obtain ⟨-, -, hquotedDelimited, hinline⟩ := (tokens_string hquoted).1 _ rfl
  obtain ⟨-, hblockDelimited⟩ := (tokens_string hblock).2.1 _ rfl
  refine ⟨hquoted, hquotedDelimited, hblock, hblockDelimited, fun t ht => ⟨fun hfirst => ?_, fun hfirst => ?_⟩⟩
  · rw [hquotedText] at hquotedDelimited hinline
    have hback := (tokens_string ht).2.2 [] ['"', '\\', '\\', '"']
      [' ', '"', '"', '"', '\\', '"', '"', '"', '"', 'x', '"', '"', '"'] htext hfirst
    exact hback.1 hquotedDelimited hinline (by simp)
  · rw [hblockText] at hblockDelimited
    exact ((tokens_string ht).2.2 ['"', '\\', '\\', '"', ' '] _ [] htext hfirst).2 hblockDelimited

/-- Literals that cook are not always tokens of their own: one with a line feed between its quotes, an empty one in
front of a third quote, and block literals with a backslash or a quote in front of the closing quotes. And a triple
quote inside a token may have a quote in front of it in place of a backslash. -/
theorem cooks_beside_tokens :
    (Quoted.Delimited ['"', 'a', '\n', 'b', '"'] ∧ Quoted.cook "\"a\nb\"" = .ok "a\nb" ∧
      tokens "\"a\nb\"" = [⟨.error .stringAtEndOfLine, ⟨⟨0, 0, 0, 0⟩, ⟨1, 0, 0, 3⟩⟩⟩]) ∧
    (Quoted.Delimited ['"', '"'] ∧ Quoted.cook "\"\"" = .ok "" ∧
      tokens "\"\"\"" = [⟨.error .blockStringAtEndOfInput, ⟨⟨0, 0, 0, 0⟩, ⟨0, 3, 3, 3⟩⟩⟩]) ∧
    ((∀ before after, ['a', '\\'] ≠ before ++ Block.tripleQuote ++ after) ∧
      Block.cook "\"\"\"a\\\"\"\"" = .ok "a\\" ∧
      tokens "\"\"\"a\\\"\"\"" = [⟨.error .blockStringAtEndOfInput, ⟨⟨0, 0, 0, 0⟩, ⟨0, 8, 8, 8⟩⟩⟩]) ∧
    ((∀ before after, ['a', '"'] ≠ before ++ Block.tripleQuote ++ after) ∧
      Block.cook "\"\"\"a\"\"\"\"" = .ok "a\"" ∧
      tokens "\"\"\"a\"\"\"\"" = [⟨.blockString "\"\"\"a\"\"\"", ⟨⟨0, 0, 0, 0⟩, ⟨0, 7, 7, 7⟩⟩⟩,
        ⟨.error .stringAtEndOfInput, ⟨⟨0, 7, 7, 7⟩, ⟨0, 8, 8, 8⟩⟩⟩]) ∧
    ("\"\"\"\\\"\"\"\"x\"\"\"".toList =
        Block.tripleQuote ++ (['\\', '"'] ++ Block.tripleQuote ++ ['x']) ++ Block.tripleQuote ∧
      tokens "\"\"\"\\\"\"\"\"x\"\"\"" = [⟨.blockString "\"\"\"\\\"\"\"\"x\"\"\"", ⟨⟨0, 0, 0, 0⟩, ⟨0, 12, 12, 12⟩⟩⟩,
        ⟨.endOfInput, .emptyAt ⟨0, 12, 12, 12⟩⟩]) := by
  have hquoted : Quoted.Delimited ('"' :: ['a', '\n', 'b'] ++ ['"']) :=
    Quoted.delimited_iff.2 (by simp [Quoted.closedBehind_cons, Quoted.closedBehind_nil])
  have hempty : Quoted.Delimited ('"' :: [] ++ ['"']) := Quoted.delimited_iff.2 (by simp [Quoted.closedBehind_nil])
  have hshort {c d : Char} (before after : List Char) : [c, d] ≠ before ++ Block.tripleQuote ++ after := by
    intro h
    have hlength := congrArg List.length h
    simp [Block.tripleQuote] at hlength
    omega
  have hfeed : "\"a\nb\"".toList = ['"', 'a', '\n', 'b', '"'] := String.toList_ofList
  have hthree : "\"\"\"".toList = ['"', '"', '"'] := String.toList_ofList
  have hbackslash : "\"\"\"a\\\"\"\"".toList = ['"', '"', '"', 'a', '\\', '"', '"', '"'] := String.toList_ofList
  have hquote : "\"\"\"a\"\"\"\"".toList = ['"', '"', '"', 'a', '"', '"', '"', '"'] := String.toList_ofList
  have hoverlap : "\"\"\"\\\"\"\"\"x\"\"\"".toList = ['"', '"', '"', '\\', '"', '"', '"', '"', 'x', '"', '"', '"'] :=
    String.toList_ofList
  refine ⟨⟨hquoted, ?_, ?_⟩, ⟨hempty, ?_, ?_⟩, ⟨hshort, ?_, ?_⟩, ⟨hshort, ?_, ?_⟩, hoverlap, ?_⟩
  · rw [Quoted.cook_eq_decode (show "\"a\nb\"".toList = '"' :: ['a', '\n', 'b'] ++ ['"'] from hfeed)]
    simp [Quoted.decode, Except.map]
  · rw [tokens_eq_lexChars hfeed]
    decide +kernel
  · rw [Quoted.cook_eq_decode (show "\"\"".toList = '"' :: [] ++ ['"'] from String.toList_ofList)]
    simp [Quoted.decode, Except.map]
  · rw [tokens_eq_lexChars hthree]
    decide +kernel
  · rw [Block.cook, hbackslash]
    rfl
  · rw [tokens_eq_lexChars hbackslash]
    decide +kernel
  · rw [Block.cook, hquote]
    rfl
  · rw [tokens_eq_lexChars hquote]
    decide +kernel
  · rw [tokens_eq_lexChars hoverlap]
    decide +kernel

end GraphQL
