import GraphQL.Proofs.LineFeeds
import GraphQL.Proofs.StringSpelling
import GraphQL.Proofs.Tiling
import Mathlib.Data.List.Forall2
import Mathlib.Data.Nat.Digits.Defs
import Mathlib.Tactic.IntervalCases

/-!
# Spellings of quoted strings

Each character of a value has several spellings between quotes: itself, a short escape, digits in base sixteen, with
or without braces, or the digits of its two surrogates (`SpellsChar`). Cooking a literal gives just the value that
its text spells (`cook_eq_ok_iff_spells`), so a text that goes on with a malformed escape after such spellings has
no value (`decode_malformed`). The literal that is printed for a value is one of its spellings, and the lexer reads
it as a single token on one line (`tokens_print`).
-/

namespace GraphQL.Quoted

/-- The character is the digit of a number below sixteen, in small or capital letters. -/
def IsDigitOf (d : Nat) (c : Char) : Prop :=
  ['0', '1', '2', '3', '4', '5', '6', '7', '8', '9', 'a', 'b', 'c', 'd', 'e', 'f'][d]? = some c ∨
    ['0', '1', '2', '3', '4', '5', '6', '7', '8', '9', 'A', 'B', 'C', 'D', 'E', 'F'][d]? = some c

instance (d : Nat) (c : Char) : Decidable (IsDigitOf d c) := inferInstanceAs (Decidable (_ ∨ _))

/-- The digits write the number in base sixteen, the most significant one first. -/
def WritesHex (digits : List Char) (n : Nat) : Prop :=
  ∃ ds, List.Forall₂ IsDigitOf ds digits ∧ n = Nat.ofDigits 16 ds.reverse

private theorem isDigitOf_iff {d : Nat} {c : Char} : IsDigitOf d c ↔ isHexDigit c = true ∧ hexDigitValue c = d := by
  constructor
  · intro h
    have hd : d < 16 := by
      rcases h with h | h
      · simpa using (List.getElem?_eq_some_iff.1 h).1
      · simpa using (List.getElem?_eq_some_iff.1 h).1
    interval_cases d <;> rcases h with h | h <;> obtain rfl := Option.some.inj h <;> decide
  · rintro ⟨hc, rfl⟩
    have hrange : (48 ≤ c.toNat ∧ c.toNat ≤ 57) ∨ (97 ≤ c.toNat ∧ c.toNat ≤ 102) ∨ (65 ≤ c.toNat ∧ c.toNat ≤ 70) := by
      simp only [isHexDigit, Char.isDigit, Bool.or_eq_true, Bool.and_eq_true, decide_eq_true_eq, ge_iff_le,
        Char.le_def, UInt32.le_iff_toNat_le, or_assoc] at hc
      exact hc
    rw [← Char.ofNat_toNat c]
    generalize c.toNat = n at hrange
    rcases hrange with ⟨h, h'⟩ | ⟨h, h'⟩ | ⟨h, h'⟩
    · interval_cases n <;> decide
    · interval_cases n <;> decide
    · interval_cases n <;> decide

private theorem hexValue_eq_ofDigits (digits : List Char) :
    hexValue digits = Nat.ofDigits 16 (digits.map hexDigitValue).reverse := by
  rw [hexValue, List.foldl_eq_foldr_reverse, Nat.ofDigits_eq_foldr, ← List.map_reverse, List.foldr_map]
  simp only [Nat.cast_id, Nat.add_comm]

private theorem writesHex_iff {digits : List Char} {n : Nat} :
    WritesHex digits n ↔ digits.all isHexDigit = true ∧ hexValue digits = n := by
  have hdigits (ds : List Nat) : List.Forall₂ IsDigitOf ds digits ↔
      digits.all isHexDigit = true ∧ digits.map hexDigitValue = ds := by
    induction digits generalizing ds with
    | nil => simp [eq_comm]
    | cons c digits ih =>
      cases ds with
      | nil => simp
      | cons d ds =>
        rw [List.forall₂_cons, isDigitOf_iff, ih, List.all_cons, Bool.and_eq_true, List.map_cons, List.cons.injEq]
        tauto
  simp only [WritesHex, hdigits, hexValue_eq_ofDigits]
  constructor
  · rintro ⟨ds, ⟨hall, rfl⟩, rfl⟩
    exact ⟨hall, rfl⟩
  · rintro ⟨hall, rfl⟩
    exact ⟨_, ⟨hall, rfl⟩, rfl⟩

private theorem WritesHex.unique {digits : List Char} {m n : Nat} (hm : WritesHex digits m) (hn : WritesHex digits n) :
    m = n := (writesHex_iff.1 hm).2.symm.trans (writesHex_iff.1 hn).2

/-- What a backslash and one more character stand for. -/
def shortEscapes : List (Char × Char) :=
  [('"', '"'), ('\\', '\\'), ('/', '/'), ('b', '\x08'), ('f', '\x0c'), ('n', '\n'), ('r', '\r'), ('t', '\t')]

/-- The text spells the character: as it is, by a short escape, by four digits, by the four digits of each of its two
surrogates, or by up to eight digits between braces. -/
inductive SpellsChar : List Char → Char → Prop where
  | raw {c : Char} (h : c ≠ '\\') : SpellsChar [c] c
  | short {e c : Char} (h : (e, c) ∈ shortEscapes) : SpellsChar ['\\', e] c
  | digits {digits : List Char} {c : Char} (hlength : digits.length = 4) (h : WritesHex digits c.toNat) :
    SpellsChar ('\\' :: 'u' :: digits) c
  | surrogates {lead trail : List Char} {c : Char} (hc : 0xFFFF < c.toNat) (hlead : lead.length = 4)
    (htrail : trail.length = 4) (h : WritesHex lead (0xD800 + (c.toNat - 0x10000) / 0x400))
    (h' : WritesHex trail (0xDC00 + (c.toNat - 0x10000) % 0x400)) :
    SpellsChar ('\\' :: 'u' :: (lead ++ '\\' :: 'u' :: trail)) c
  | braces {digits : List Char} {c : Char} (hne : 1 ≤ digits.length) (hlength : digits.length ≤ 8)
    (h : WritesHex digits c.toNat) : SpellsChar ('\\' :: 'u' :: '{' :: (digits ++ ['}'])) c

/-- The text between the quotes spells the value, one character after the other. -/
inductive Spells : List Char → List Char → Prop where
  | nil : Spells [] []
  | cons {spelling text value : List Char} {c : Char} (h : SpellsChar spelling c) (rest : Spells text value) :
    Spells (spelling ++ text) (c :: value)

private theorem scalar?_eq_some_iff {n : Nat} {c : Char} : scalar? n = some c ↔ c.toNat = n := by
  unfold scalar?
  split
  · rename_i hvalid
    rw [Option.some.injEq]
    constructor
    · rintro rfl
      rw [Char.ofNat, dif_pos hvalid]
      rfl
    · rintro rfl
      exact Char.ofNat_toNat c
  · rename_i hinvalid
    refine ⟨nofun, ?_⟩
    rintro rfl
    exact absurd c.valid hinvalid

/-- Digits are read exactly when the text starts with so many. -/
theorem readDigits_eq_ok_iff {more digits text rest : List Char} {n : Nat} :
    readDigits more n text = .ok (digits, rest) ↔
      ∃ w, w.length = n ∧ w.all isHexDigit = true ∧ digits = more ++ w ∧ text = w ++ rest := by
  constructor
  · intro h
    fun_induction readDigits more n text with
    | case1 more text =>
      cases h
      exact ⟨[], rfl, rfl, (List.append_nil _).symm, rfl⟩
    | case2 => cases h
    | case3 more n c text hc ih =>
      obtain ⟨w, rfl, hall, rfl, rfl⟩ := ih h
      exact ⟨c :: w, rfl, by simp [hc, hall], by simp, rfl⟩
    | case4 => cases h
  · rintro ⟨w, rfl, hall, rfl, rfl⟩
    exact readDigits_append hall rest

/-- Digits are read up to a brace exactly when the text starts with at most eight and a brace after them. -/
theorem readBraced_eq_ok_iff {more digits text rest : List Char} (hmore : more.length ≤ 8) :
    readBraced more text = .ok (digits, rest) ↔
      ∃ w, w.all isHexDigit = true ∧ digits = more ++ w ∧ digits.length ≤ 8 ∧ text = w ++ '}' :: rest := by
  constructor
  · intro h
    fun_induction readBraced more text with
    | case1 => cases h
    | case2 more text =>
      cases h
      exact ⟨[], rfl, (List.append_nil _).symm, hmore, rfl⟩
    | case3 more c text _ hc ih =>
      have hlength : (more ++ [c]).length ≤ 8 := by
        rw [List.length_append, List.length_singleton]
        omega
      obtain ⟨w, hall, rfl, hle, rfl⟩ := ih hlength h
      refine ⟨c :: w, by simp [hc.1, hall], by simp, hle, rfl⟩
    | case4 => cases h
  · rintro ⟨w, hall, rfl, hle, rfl⟩
    induction w generalizing more with
    | nil => simp [readBraced]
    | cons c w ih =>
      rw [List.all_cons, Bool.and_eq_true] at hall
      rw [List.length_append, List.length_cons] at hle
      have hbrace : c ≠ '}' := by
        rintro rfl
        exact absurd hall.1 (by decide)
      rw [List.cons_append, readBraced, if_neg hbrace, if_pos ⟨hall.1, by omega⟩]
      have h := @ih (more ++ [c]) (by simp; omega) hall.2 (by simp; omega)
      rwa [List.append_assoc, List.singleton_append] at h

private theorem exists_of_bind_eq_ok {ε α β : Type} {x : Except ε α} {f : α → Except ε β} {b : β}
    (h : (x >>= f) = .ok b) : ∃ a, x = .ok a ∧ f a = .ok b := by
  cases x with
  | error e => cases h
  | ok a => exact ⟨a, rfl, h⟩

private theorem exists_of_map_eq_ok {ε α β : Type} {x : Except ε α} {f : α → β} {b : β}
    (h : x.map f = .ok b) : ∃ a, x = .ok a ∧ f a = b := by
  cases x with
  | error e => cases h
  | ok a => exact ⟨a, rfl, Except.ok.inj h⟩

private theorem isLeadSurrogate_iff {n : Nat} : isLeadSurrogate n = true ↔ 0xD800 ≤ n ∧ n ≤ 0xDBFF := by
  simp [isLeadSurrogate]

private theorem isTrailSurrogate_iff {n : Nat} : isTrailSurrogate n = true ↔ 0xDC00 ≤ n ∧ n ≤ 0xDFFF := by
  simp [isTrailSurrogate]

/-- Surrogates are no characters of their own. -/
theorem scalar?_of_surrogate {n : Nat} (h : 0xD800 ≤ n) (h' : n ≤ 0xDFFF) : scalar? n = none := by
  have hinvalid : ¬ n.isValidChar := by
    unfold Nat.isValidChar
    omega
  rw [scalar?, if_neg hinvalid]

/-- Two surrogates make a character beyond those of four digits. -/
theorem toNat_surrogatePair {lead trail : Nat} (hlead : isLeadSurrogate lead = true)
    (htrail : isTrailSurrogate trail = true) :
    (Char.ofNat (surrogatePair lead trail)).toNat = 0x10000 + (lead - 0xD800) * 0x400 + (trail - 0xDC00) := by
  rw [isLeadSurrogate_iff] at hlead
  rw [isTrailSurrogate_iff] at htrail
  have hvalid : (surrogatePair lead trail).isValidChar := by
    unfold Nat.isValidChar surrogatePair
    omega
  exact (scalar?_eq_some_iff (n := surrogatePair lead trail)).1 (if_pos hvalid)

/-- A trail surrogate is read exactly when its escape comes first. -/
theorem readTrail_eq_ok_iff {lead : Nat} {text rest : List Char} {c : Char} :
    readTrail lead text = .ok (c, rest) ↔ ∃ w, w.length = 4 ∧ w.all isHexDigit = true ∧
      isTrailSurrogate (hexValue w) = true ∧ c = Char.ofNat (surrogatePair lead (hexValue w)) ∧
      text = '\\' :: 'u' :: (w ++ rest) := by
  constructor
  · intro h
    unfold readTrail at h
    split at h
    · obtain ⟨⟨w, rest'⟩, hread, hrest⟩ := exists_of_bind_eq_ok h
      obtain ⟨_, hlength, hall, rfl, rfl⟩ := readDigits_eq_ok_iff.1 hread
      dsimp only at hrest
      split at hrest
      · rename_i htrail
        obtain ⟨hc, rfl⟩ := Prod.mk.inj (Except.ok.inj hrest)
        exact ⟨w, hlength, hall, htrail, hc.symm, rfl⟩
      · cases hrest
    · cases h
  · rintro ⟨w, hlength, hall, htrail, hc, rfl⟩
    have hread : readDigits [] 4 (w ++ rest) = .ok (w, rest) :=
      readDigits_eq_ok_iff.2 ⟨w, hlength, hall, rfl, rfl⟩
    simp [readTrail, hread, htrail, hc, bind, Except.bind, pure, Except.pure]

/-- Where digits come first, no brace does. -/
theorem append_ne_brace {digits text : List Char} (hlength : digits.length = 4) (hall : digits.all isHexDigit = true)
    (rest : List Char) (h : digits ++ text = '{' :: rest) : False := by
  cases digits with
  | nil => cases hlength
  | cons d ds =>
    obtain ⟨rfl, -⟩ := List.cons.inj h
    exact absurd hall (by simp [isHexDigit])

/-- Four digits of a character are read as that character. -/
theorem readUnicode_of_scalar {digits text : List Char} {c : Char} (hlength : digits.length = 4)
    (hall : digits.all isHexDigit = true) (hc : scalar? (hexValue digits) = some c) :
    readUnicode (digits ++ text) = .ok (c, text) := by
  have hread : readDigits [] 4 (digits ++ text) = .ok (digits, text) :=
    readDigits_eq_ok_iff.2 ⟨digits, hlength, hall, rfl, rfl⟩
  rw [readUnicode.eq_2 _ (append_ne_brace hlength hall)]
  simp [hread, hc, bind, Except.bind, pure, Except.pure]

/-- After four digits of a lead surrogate its trail is read. -/
theorem readUnicode_of_lead {digits text : List Char} (hlength : digits.length = 4)
    (hall : digits.all isHexDigit = true) (hc : scalar? (hexValue digits) = none)
    (hlead : isLeadSurrogate (hexValue digits) = true) :
    readUnicode (digits ++ text) = readTrail (hexValue digits) text := by
  have hread : readDigits [] 4 (digits ++ text) = .ok (digits, text) :=
    readDigits_eq_ok_iff.2 ⟨digits, hlength, hall, rfl, rfl⟩
  rw [readUnicode.eq_2 _ (append_ne_brace hlength hall)]
  simp [hread, hc, hlead, bind, Except.bind]

/-- What is spelled after a backslash and a `u` is read as the character. -/
theorem readUnicode_spelled {w : List Char} {c : Char} (h : SpellsChar ('\\' :: 'u' :: w) c) (text : List Char) :
    readUnicode (w ++ text) = .ok (c, text) := by
  cases h with
  | short h => simp [shortEscapes] at h
  | digits hlength h =>
    obtain ⟨hall, hvalue⟩ := writesHex_iff.1 h
    exact readUnicode_of_scalar hlength hall (by rw [hvalue, scalar?_eq_some_iff.2 rfl])
  | @surrogates lead trail _ hc hlead htrail h h' =>
    obtain ⟨hall, hvalue⟩ := writesHex_iff.1 h
    obtain ⟨hall', hvalue'⟩ := writesHex_iff.1 h'
    have hvalid : c.toNat.isValidChar := c.valid
    unfold Nat.isValidChar at hvalid
    have hleads : isLeadSurrogate (hexValue lead) = true := by
      rw [isLeadSurrogate_iff]
      omega
    have htrails : isTrailSurrogate (hexValue trail) = true := by
      rw [isTrailSurrogate_iff]
      omega
    have hchar : c = Char.ofNat (surrogatePair (hexValue lead) (hexValue trail)) := by
      apply Char.toNat_inj.1
      rw [toNat_surrogatePair hleads htrails]
      omega
    rw [List.append_assoc, readUnicode_of_lead hlead hall (scalar?_of_surrogate (by omega) (by omega)) hleads]
    exact readTrail_eq_ok_iff.2 ⟨trail, htrail, hall', htrails, hchar, rfl⟩
  | @braces digits _ hne hlength h =>
    obtain ⟨hall, hvalue⟩ := writesHex_iff.1 h
    have hread : readBraced [] (digits ++ '}' :: text) = .ok (digits, text) :=
      (readBraced_eq_ok_iff (by simp)).2 ⟨digits, hall, rfl, hlength, rfl⟩
    have hnil : digits ≠ [] := List.ne_nil_of_length_pos hne
    rw [List.cons_append, List.append_assoc, List.singleton_append, readUnicode, hread]
    simp [bind, Except.bind, hnil, hvalue, scalar?_eq_some_iff.2 rfl, pure, Except.pure]

/-- What is read after a backslash and a `u` is spelled there. -/
theorem spellsChar_of_readUnicode {text rest : List Char} {c : Char} (h : readUnicode text = .ok (c, rest)) :
    ∃ w, text = w ++ rest ∧ SpellsChar ('\\' :: 'u' :: w) c := by
  unfold readUnicode at h
  split at h
  · obtain ⟨⟨digits, rest'⟩, hread, hrest⟩ := exists_of_bind_eq_ok h
    obtain ⟨_, hall, rfl, hle, rfl⟩ := (readBraced_eq_ok_iff (by simp)).1 hread
    dsimp only at hrest
    split at hrest
    · rename_i c' hscalar
      cases hrest
      split at hscalar
      · cases hscalar
      · rename_i hne
        refine ⟨'{' :: (digits ++ ['}']), by simp, .braces (List.length_pos_iff.2 hne) hle ?_⟩
        exact writesHex_iff.2 ⟨hall, (scalar?_eq_some_iff.1 hscalar).symm⟩
    · cases hrest
  · obtain ⟨⟨digits, rest'⟩, hread, hrest⟩ := exists_of_bind_eq_ok h
    obtain ⟨_, hlength, hall, rfl, rfl⟩ := readDigits_eq_ok_iff.1 hread
    dsimp only at hrest
    split at hrest
    · rename_i c' hscalar
      cases hrest
      exact ⟨digits, rfl, .digits hlength (writesHex_iff.2 ⟨hall, (scalar?_eq_some_iff.1 hscalar).symm⟩)⟩
    · split at hrest
      · rename_i hlead
        obtain ⟨trail, htrail, hall', htrails, hc, rfl⟩ := readTrail_eq_ok_iff.1 hrest
        have hvalue := toNat_surrogatePair hlead htrails
        rw [← hc] at hvalue
        rw [isLeadSurrogate_iff] at hlead
        rw [isTrailSurrogate_iff] at htrails
        refine ⟨digits ++ '\\' :: 'u' :: trail, by simp, .surrogates (by omega) hlength htrail ?_ ?_⟩
        · exact writesHex_iff.2 ⟨hall, by omega⟩
        · exact writesHex_iff.2 ⟨hall', by omega⟩
      · cases hrest

/-! ### Cooking -/

private theorem decode_of_readUnicode {text rest : List Char} {c : Char} (h : readUnicode text = .ok (c, rest)) :
    decode ('\\' :: 'u' :: text) = (decode rest).map (c :: ·) := by
  rw [decode]
  split
  · rename_i d rest' hread
    rw [h] at hread
    cases hread
    rfl
  · rename_i e hread
    rw [h] at hread
    cases hread

/-- A character that is spelled in any way is cooked first. -/
theorem decode_spelled {spelling : List Char} {c : Char} (h : SpellsChar spelling c) (text : List Char) :
    decode (spelling ++ text) = (decode text).map (c :: ·) := by
  cases h with
  | raw h =>
    rw [List.singleton_append, decode]
    all_goals simp [h]
  | short h =>
    simp only [shortEscapes, List.mem_cons, Prod.mk.injEq, List.not_mem_nil, or_false] at h
    rcases h with ⟨rfl, rfl⟩ | ⟨rfl, rfl⟩ | ⟨rfl, rfl⟩ | ⟨rfl, rfl⟩ | ⟨rfl, rfl⟩ | ⟨rfl, rfl⟩ | ⟨rfl, rfl⟩ | ⟨rfl, rfl⟩
    all_goals simp [decode, shortEscape?]
  | digits hlength h => exact decode_of_readUnicode (readUnicode_spelled (.digits hlength h) text)
  | surrogates hc hlead htrail h h' =>
    exact decode_of_readUnicode (readUnicode_spelled (.surrogates hc hlead htrail h h') text)
  | braces hne hlength h => exact decode_of_readUnicode (readUnicode_spelled (.braces hne hlength h) text)

/-- After a text that spells a value the rest is cooked on its own. -/
theorem decode_append {text value : List Char} (h : Spells text value) (rest : List Char) :
    decode (text ++ rest) = (decode rest).map (value ++ ·) := by
  induction h with
  | nil =>
    rw [List.nil_append]
    cases decode rest <;> rfl
  | cons h _ ih =>
    rw [List.append_assoc, decode_spelled h, ih]
    cases decode rest <;> rfl

private theorem shortEscape?_eq_some {e c : Char} (h : shortEscape? e = some c) : (e, c) ∈ shortEscapes := by
  unfold shortEscape? at h
  split at h <;> cases h <;> decide

/-- A text spells the value that it is cooked to. -/
theorem spells_of_decode {text value : List Char} (h : decode text = .ok value) : Spells text value := by
  fun_induction decode text generalizing value with
  | case1 =>
    cases h
    exact .nil
  | case2 text c rest hread ih =>
    obtain ⟨value', hvalue, rfl⟩ := exists_of_map_eq_ok h
    obtain ⟨w, rfl, hw⟩ := spellsChar_of_readUnicode hread
    exact .cons hw (ih hvalue)
  | case3 => cases h
  | case4 => cases h
  | case5 e rest hu d hd ih =>
    obtain ⟨value', hvalue, rfl⟩ := exists_of_map_eq_ok h
    exact .cons (.short (shortEscape?_eq_some hd)) (ih hvalue)
  | case6 => cases h
  | case7 c rest hu hlast hescape ih =>
    obtain ⟨value', hvalue, rfl⟩ := exists_of_map_eq_ok h
    refine @Spells.cons [c] _ _ _ (.raw ?_) (ih hvalue)
    rintro rfl
    cases rest with
    | nil => exact hlast rfl rfl
    | cons e rest => exact hescape e rest rfl rfl

/-- The text between the quotes is decoded to a value if and only if it spells it. -/
private theorem decode_eq_ok_iff {text value : List Char} : decode text = .ok value ↔ Spells text value := by
  constructor
  · exact spells_of_decode
  · intro h
    have hdecode := decode_append h []
    rw [List.append_nil, decode] at hdecode
    simpa [Except.map] using hdecode

/-- The character is a digit in base sixteen. -/
def IsDigit (c : Char) : Prop := ∃ d, IsDigitOf d c

theorem isDigit_iff {c : Char} : IsDigit c ↔ isHexDigit c = true := by
  simp [IsDigit, isDigitOf_iff]

/-- What follows a backslash and a `u` belongs to no escape. -/
inductive MalformedUnicode : List Char → Prop where
  /-- There are fewer than four digits. -/
  | truncated {digits rest : List Char} (hdigits : ∀ c ∈ digits, IsDigit c) (hlength : digits.length < 4)
    (hrest : ∀ c ∈ rest.head?, ¬ IsDigit c) (hbrace : (digits ++ rest).head? ≠ some '{') :
    MalformedUnicode (digits ++ rest)
  /-- The brace is not closed after the digits. -/
  | unclosed {digits rest : List Char} (hdigits : ∀ c ∈ digits, IsDigit c)
    (hrest : ∀ c ∈ rest.head?, ¬ IsDigit c ∧ c ≠ '}') : MalformedUnicode ('{' :: (digits ++ rest))
  /-- There are no digits, or too many, between the braces. -/
  | unfit {digits rest : List Char} (hdigits : ∀ c ∈ digits, IsDigit c)
    (hlength : digits = [] ∨ 8 < digits.length) : MalformedUnicode ('{' :: (digits ++ '}' :: rest))
  /-- No character has the code point between the braces. -/
  | codePoint {digits rest : List Char} {n : Nat} (h : WritesHex digits n) (hn : ∀ c : Char, c.toNat ≠ n) :
    MalformedUnicode ('{' :: (digits ++ '}' :: rest))
  /-- A trail surrogate stands where no lead surrogate is before it. -/
  | trail {digits rest : List Char} {n : Nat} (hlength : digits.length = 4) (h : WritesHex digits n)
    (hn : 0xDC00 ≤ n ∧ n ≤ 0xDFFF) : MalformedUnicode (digits ++ rest)
  /-- A lead surrogate has no escape of a trail surrogate after it. -/
  | lead {digits rest : List Char} {n : Nat} (hlength : digits.length = 4) (h : WritesHex digits n)
    (hn : 0xD800 ≤ n ∧ n ≤ 0xDBFF)
    (hrest : ∀ trail rest' m, rest = '\\' :: 'u' :: (trail ++ rest') → trail.length = 4 → WritesHex trail m →
      ¬ (0xDC00 ≤ m ∧ m ≤ 0xDFFF)) : MalformedUnicode (digits ++ rest)

/-- The text starts with a backslash that begins no escape. -/
inductive Malformed : List Char → Prop where
  /-- Nothing follows the backslash. -/
  | backslash : Malformed ['\\']
  /-- No escape has this letter. -/
  | letter {e : Char} {rest : List Char} (hu : e ≠ 'u') (h : ∀ c, (e, c) ∉ shortEscapes) :
    Malformed ('\\' :: e :: rest)
  | unicode {text : List Char} (h : MalformedUnicode text) : Malformed ('\\' :: 'u' :: text)

theorem WritesHex.isDigit {digits : List Char} {n : Nat} (h : WritesHex digits n) : ∀ c ∈ digits, IsDigit c := by
  intro c hc
  exact isDigit_iff.2 (List.all_eq_true.1 (writesHex_iff.1 h).1 c hc)

private theorem not_isDigit_brace : ¬ IsDigit '{' ∧ ¬ IsDigit '}' := by
  rw [isDigit_iff, isDigit_iff]
  decide

/-- What is read after a backslash and a `u` starts with four digits, of the character or of a lead surrogate with its
trail after it, or with digits between braces. -/
theorem readUnicode_cases {text rest : List Char} {c : Char} (h : readUnicode text = .ok (c, rest)) :
    (∃ digits rest' n, text = digits ++ rest' ∧ digits.length = 4 ∧ WritesHex digits n ∧ (n = c.toNat ∨
      (0xD800 ≤ n ∧ n ≤ 0xDBFF) ∧ ∃ trail m, rest' = '\\' :: 'u' :: (trail ++ rest) ∧ trail.length = 4 ∧
        WritesHex trail m ∧ 0xDC00 ≤ m ∧ m ≤ 0xDFFF)) ∨
    ∃ digits, text = '{' :: (digits ++ '}' :: rest) ∧ 1 ≤ digits.length ∧ digits.length ≤ 8 ∧
      WritesHex digits c.toNat := by
  obtain ⟨w, rfl, hw⟩ := spellsChar_of_readUnicode h
  cases hw with
  | short h => simp [shortEscapes] at h
  | digits hlength h => exact .inl ⟨w, rest, _, rfl, hlength, h, .inl rfl⟩
  | @surrogates lead trail _ hc hlead htrail h h' =>
    have hvalid : c.toNat.isValidChar := c.valid
    unfold Nat.isValidChar at hvalid
    refine .inl ⟨lead, '\\' :: 'u' :: (trail ++ rest), _, by simp, hlead, h, .inr ⟨by omega, ?_⟩⟩
    exact ⟨trail, _, rfl, htrail, h', by omega⟩
  | @braces digits _ hne hlength h => exact .inr ⟨digits, by simp, hne, hlength, h⟩

/-- Two runs of digits in front of something else are one and the same. -/
theorem digits_inj {xs ys zs rest : List Char} (hxs : ∀ c ∈ xs, IsDigit c) (hrest : ∀ c ∈ rest.head?, ¬ IsDigit c)
    (hys : ∀ c ∈ ys, IsDigit c) (hzs : ∀ c ∈ zs.head?, ¬ IsDigit c) (h : xs ++ rest = ys ++ zs) :
    xs = ys ∧ rest = zs := by
  simp only [isDigit_iff, Bool.not_eq_true] at hxs hys hrest hzs
  have hx := span_append hxs hrest
  have hy := span_append hys hzs
  rw [h] at hx
  exact ⟨hx.1.symm.trans hy.1, hx.2.symm.trans hy.2⟩

private theorem not_isDigit_of_head_brace {tail : List Char} : ∀ d ∈ ('}' :: tail).head?, ¬ IsDigit d := by
  rintro _ ⟨⟩
  exact not_isDigit_brace.2

private theorem brace_cons_ne {digits rest tail : List Char} {n : Nat} (hlength : digits.length = 4)
    (hwrites : WritesHex digits n) : '{' :: tail ≠ digits ++ rest := by
  intro heq
  cases digits with
  | nil => cases hlength
  | cons d digits =>
    obtain ⟨rfl, -⟩ := List.cons.inj heq
    exact not_isDigit_brace.1 (hwrites.isDigit _ (List.mem_cons_self ..))

/-- Four digits are not malformed that write a character, or a lead surrogate with its trail after it. -/
theorem not_malformed_digits {digits tail rest : List Char} {n : Nat} {c : Char} (hlength : digits.length = 4)
    (hwrites : WritesHex digits n) (hn : n = c.toNat ∨ (0xD800 ≤ n ∧ n ≤ 0xDBFF) ∧ ∃ trail m,
      tail = '\\' :: 'u' :: (trail ++ rest) ∧ trail.length = 4 ∧ WritesHex trail m ∧ 0xDC00 ≤ m ∧ m ≤ 0xDFFF) :
    ¬ MalformedUnicode (digits ++ tail) := by
  have hvalid : c.toNat.isValidChar := c.valid
  unfold Nat.isValidChar at hvalid
  intro h
  generalize htext : digits ++ tail = text at h
  cases h with
  | truncated _ hshort hrest =>
    rcases List.append_eq_append_iff.1 htext with ⟨more, rfl, -⟩ | ⟨more, rfl, rfl⟩
    · rw [List.length_append] at hshort
      omega
    · cases more with
      | nil =>
        rw [List.append_nil] at hlength
        omega
      | cons d more => exact hrest d rfl (hwrites.isDigit d (by simp))
  | unclosed | unfit | codePoint => exact brace_cons_ne hlength hwrites htext.symm
  | trail hlength' hwrites' hn' =>
    obtain ⟨rfl, -⟩ := List.append_inj htext (hlength.trans hlength'.symm)
    obtain rfl := hwrites'.unique hwrites
    rcases hn with rfl | ⟨hn, -⟩
    · omega
    · omega
  | lead hlength' hwrites' hn' hrest =>
    obtain ⟨rfl, rfl⟩ := List.append_inj htext (hlength.trans hlength'.symm)
    obtain rfl := hwrites'.unique hwrites
    rcases hn with rfl | ⟨-, trail, m, rfl, htrail, hm, hrange⟩
    · omega
    · exact hrest trail _ m rfl htrail hm hrange

/-- Digits between braces are not malformed that write a character. -/
theorem not_malformed_braces {digits tail : List Char} {c : Char} (hne : 1 ≤ digits.length)
    (hle : digits.length ≤ 8) (hwrites : WritesHex digits c.toNat) :
    ¬ MalformedUnicode ('{' :: (digits ++ '}' :: tail)) := by
  intro h
  generalize htext : '{' :: (digits ++ '}' :: tail) = text at h
  cases h with
  | truncated _ _ _ hbrace =>
    rw [← htext] at hbrace
    exact hbrace rfl
  | unclosed hdigits hrest =>
    obtain ⟨-, rfl⟩ := digits_inj hwrites.isDigit not_isDigit_of_head_brace hdigits (fun d hd => (hrest d hd).1)
      (List.cons.inj htext).2
    exact (hrest '}' rfl).2 rfl
  | unfit hdigits hlength =>
    obtain ⟨rfl, -⟩ := digits_inj hwrites.isDigit not_isDigit_of_head_brace hdigits not_isDigit_of_head_brace
      (List.cons.inj htext).2
    rcases hlength with rfl | hlength
    · cases hne
    · omega
  | codePoint hwrites' hn =>
    obtain ⟨rfl, -⟩ := digits_inj hwrites.isDigit not_isDigit_of_head_brace hwrites'.isDigit
      not_isDigit_of_head_brace (List.cons.inj htext).2
    exact hn c (hwrites.unique hwrites')
  | trail hlength hwrites' | lead hlength hwrites' => exact brace_cons_ne hlength hwrites' htext

private theorem readUnicode_malformed {text : List Char} (h : MalformedUnicode text) (c : Char) (rest : List Char) :
    readUnicode text ≠ .ok (c, rest) := by
  intro hread
  rcases readUnicode_cases hread with ⟨digits, tail, n, rfl, hlength, hwrites, hn⟩ | ⟨digits, rfl, hne, hle, hwrites⟩
  · exact not_malformed_digits hlength hwrites hn h
  · exact not_malformed_braces hne hle hwrites h

/-- A text that starts with a malformed escape has no value. -/
theorem decode_malformed {text : List Char} (h : Malformed text) : ∃ e, decode text = .error e := by
  cases h with
  | backslash => exact ⟨_, by rw [decode]⟩
  | @letter e rest hu h =>
    have hescape : shortEscape? e = none :=
      Option.eq_none_iff_forall_ne_some.2 fun c hc => h c (shortEscape?_eq_some hc)
    refine ⟨.invalidEscape (String.ofList ['\\', e]), ?_⟩
    rw [decode]
    · rw [hescape]
    · exact hu
  | unicode h =>
    rw [decode]
    split
    · rename_i c rest hread
      exact absurd hread (readUnicode_malformed h c rest)
    · rename_i e hread
      exact ⟨e, rfl⟩

/-! ### Literals -/

/-- A quoted literal is cooked by decoding what is between its quotes. -/
theorem cook_eq_decode {raw : String} {text : List Char} (h : raw.toList = '"' :: text ++ ['"']) :
    cook raw = (decode text).map String.ofList := by
  have hbetween : between? ['"'] raw.toList = some text := between?_eq_some_iff.2 h
  rw [cook, hbetween]

/-- A literal cooks to a value exactly when the text between its quotes spells the value, so it does not cook at all
where spellings are followed by a malformed escape. -/
theorem cook_eq_ok_iff_spells (raw value : String) :
    (cook raw = .ok value ↔ ∃ text, raw.toList = '"' :: text ++ ['"'] ∧ Spells text value.toList) ∧
      ∀ front value tail, Spells front value → Malformed tail → raw.toList = '"' :: (front ++ tail) ++ ['"'] →
        ∃ e, cook raw = .error e := by
  refine ⟨⟨fun h => ?_, ?_⟩, ?_⟩
  · unfold cook at h
    split at h
    · rename_i text hbetween
      obtain ⟨chars, hdecode, rfl⟩ := exists_of_map_eq_ok h
      rw [String.toList_ofList]
      exact ⟨text, between?_eq_some_iff.1 hbetween, spells_of_decode hdecode⟩
    · cases h
  · rintro ⟨text, hraw, hspells⟩
    rw [cook_eq_decode hraw, decode_eq_ok_iff.2 hspells]
    exact congrArg Except.ok String.ofList_toList
  · intro front value tail hfront htail hraw
    obtain ⟨e, he⟩ := decode_malformed htail
    refine ⟨e, ?_⟩
    rw [cook_eq_decode hraw, decode_append hfront, he]
    rfl

/-- Two surrogates write an emoji, and the same two the other way round write nothing. -/
theorem cook_eq_ok_iff_spells_of_surrogates :
    cook "\"\\uD83D\\uDE00\"" = .ok "😀" ∧ ∃ e, cook "\"\\uDE00\\uD83D\"" = .error e := by
  have hpair : SpellsChar ['\\', 'u', 'D', '8', '3', 'D', '\\', 'u', 'D', 'E', '0', '0'] '😀' :=
    @SpellsChar.surrogates ['D', '8', '3', 'D'] ['D', 'E', '0', '0'] '😀' (by decide) rfl rfl
      (writesHex_iff.2 (by decide)) (writesHex_iff.2 (by decide))
  have hemoji : Spells ['\\', 'u', 'D', '8', '3', 'D', '\\', 'u', 'D', 'E', '0', '0'] "😀".toList := by
    have hvalue : "😀".toList = ['😀'] := String.toList_ofList
    rw [hvalue]
    exact .cons hpair .nil
  have hswapped : Malformed ['\\', 'u', 'D', 'E', '0', '0', '\\', 'u', 'D', '8', '3', 'D'] :=
    .unicode (@MalformedUnicode.trail ['D', 'E', '0', '0'] _ 0xDE00 rfl (writesHex_iff.2 (by decide)) (by decide))
  exact ⟨(cook_eq_ok_iff_spells _ _).1.2 ⟨_, String.toList_ofList, hemoji⟩,
    (cook_eq_ok_iff_spells _ "").2 [] [] _ .nil hswapped String.toList_ofList⟩

private theorem read_print (value : String) :
    Lexeme.read '"' (encode value.toList ++ ['"']) = ⟨.string (print value), (print value).toList, []⟩ := by
  rw [print, String.toList_ofList]
  exact read_encode value.toList opens_nil

/-- The lexer reads the literal of a value as one token from its first to its last character. -/
theorem tokens_quoted (value : String) : tokens (print value) =
    [⟨.string (print value), ⟨.origin, .after (print value).toList⟩⟩,
      ⟨.endOfInput, .emptyAt (.after (print value).toList)⟩] := by
  have htext : (print value).toList = '"' :: (encode value.toList ++ ['"']) := String.toList_ofList
  rw [tokens]
  conv => lhs; rw [htext]
  rw [tokensFrom_read (by decide) (by decide) _ _ (read_print value) rfl, tokensFrom_nil, Cursor.start_eq_behind,
    Cursor.after_behind]
  rfl

/-- The literal that is printed for a value is read as one token from end to end, the token cooks to the value, and the
literal stands on one line. -/
theorem tokens_print (value : String) :
    tokens (print value) =
        [⟨.string (print value), ⟨.origin, .after (print value).toList⟩⟩,
          ⟨.endOfInput, .emptyAt (.after (print value).toList)⟩] ∧
      (⟨.origin, .after (print value).toList⟩ : Span).slice? (print value) = some (print value) ∧
      cook (print value) = .ok value ∧ ∀ c ∈ (print value).toList, isLineTerminator c = false := by
  have hslice : (⟨.after [], .after (print value).toList⟩ : Span).slice? (print value) = some (print value) := by
    rw [← List.nil_append (print value).toList, slice?_after (List.append_nil _).symm, String.ofList_toList]
  have hgenuine : (Token.Kind.string (print value)).Genuine :=
    .inr ⟨_, _, congrArg Lexeme.kind (read_print value)⟩
  exact ⟨tokens_quoted value, hslice, cook_quotedText value, hgenuine.inline_string⟩

/-- The backslash at the end of a value does not reach the closing quote. -/
theorem tokens_print_of_backslash :
    tokens "\"\\\\\"" = [⟨.string "\"\\\\\"", ⟨.origin, ⟨0, 4, 4, 4⟩⟩⟩, ⟨.endOfInput, .emptyAt ⟨0, 4, 4, 4⟩⟩] ∧
      cook "\"\\\\\"" = .ok "\\" := by
  have hvalue : "\\".toList = ['\\'] := String.toList_ofList
  have hprint : print "\\" = "\"\\\\\"" := by
    rw [print, hvalue]
    rfl
  have htext : "\"\\\\\"".toList = ['"', '\\', '\\', '"'] := String.toList_ofList
  have hplace : Position.after ['"', '\\', '\\', '"'] = ⟨0, 4, 4, 4⟩ := by decide
  obtain ⟨htokens, -, hcook, -⟩ := tokens_print "\\"
  rw [hprint, htext, hplace] at htokens
  rw [hprint] at hcook
  exact ⟨htokens, hcook⟩

end GraphQL.Quoted
