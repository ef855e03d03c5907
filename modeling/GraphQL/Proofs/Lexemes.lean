import GraphQL.Proofs.NumberGrammar

/-!
# Words, numbers and strings read again

A kind of token is genuine when the lexer reads it from some text. The text of a genuine word, number or string is
read again as the same token wherever what follows does not run into it (`Token.Kind.Genuine.read_word`,
`Token.Kind.Genuine.read_number`, `Token.Kind.Genuine.read_string`).
-/

namespace GraphQL

/-- A kind of token that the lexer reads from some text, or that ends the input. -/
def Token.Kind.Genuine (kind : Token.Kind) : Prop :=
  kind = endOfInput ∨ ∃ c rest, (Lexeme.read c rest).kind = kind

/-- A character that ends any word, number or string before it. -/
def endsToken (c : Char) : Bool := !(isNameContinue c || c = '.' || c = '"')

/-- A text that does not run into the token before it. -/
def Opens (text : List Char) : Prop := ∀ c ∈ text.head?, endsToken c = true

theorem opens_nil : Opens [] := by simp [Opens]

theorem opens_cons {c : Char} (text : List Char) (h : endsToken c = true) : Opens (c :: text) := by
  simpa [Opens] using h

/-- A text opens if both of its parts do, also when the first is empty. -/
theorem Opens.append {s t : List Char} (hs : Opens s) (ht : Opens t) : Opens (s ++ t) := by
  cases s with
  | nil => exact ht
  | cons c s => exact hs

theorem opens_head {text : List Char} (h : Opens text) {c : Char} (hc : c ∈ text.head?) :
    isNameContinue c = false ∧ c ≠ '.' ∧ c ≠ '"' := by
  simpa [endsToken, and_assoc] using h c hc

/-- Keywords are names as well. -/
@[simp] theorem asName?_wordKind (w : String) : (wordKind w).asName? = some w := by
  unfold wordKind
  split
  · simp_all [Token.Kind.asName?]
  · split
    · simp_all [Token.Kind.asName?]
    · split <;> simp_all [Token.Kind.asName?]

namespace Token.Kind

/-- A genuine token that can stand where a name is wanted was read as a word. -/
theorem Genuine.exists_readName {kind : Token.Kind} (h : kind.Genuine) (hword : kind.asName?.isSome) :
    ∃ c rest, isNameStart c = true ∧ kind = (readName (c :: rest)).kind := by
  rcases h with rfl | ⟨c, rest, rfl⟩
  · simp [asName?] at hword
  · cases Lexeme.reading c with
    | word hstart hread => exact ⟨c, rest, hstart, by rw [hread]⟩
    | sign _ hread | stray hread => simp [hread, asName?] at hword
    | dots _ hread =>
      rcases readDots_kind (c :: rest) with hkind | ⟨n, hkind⟩ <;> simp [hread, hkind, asName?] at hword
    | string _ hread =>
      rcases readString_kind (c :: rest) with ⟨raw, hkind⟩ | ⟨raw, hkind⟩ | ⟨cause, hkind⟩ <;>
        simp [hread, hkind, asName?] at hword
    | number _ hread =>
      rcases Number.read_kind (c :: rest) with ⟨raw, hkind⟩ | ⟨raw, hkind⟩ | hkind | ⟨fault, raw, hkind⟩ <;>
        simp [hread, hkind, asName?] at hword

/-- A genuine token that can stand where a name is wanted is the token of its word. -/
theorem Genuine.eq_wordKind {kind : Token.Kind} (h : kind.Genuine) {w : String} (hw : kind.asName? = some w) :
    kind = wordKind w := by
  obtain ⟨c, rest, -, rfl⟩ := h.exists_readName (by simp [hw])
  simp only [readName, asName?_wordKind, Option.some.injEq] at hw
  simp [readName, hw]

end Token.Kind

theorem ofChar?_of_isNameContinue {c : Char} (h : isNameContinue c = true) : Punctuator.ofChar? c = none := by
  unfold Punctuator.ofChar?
  split <;> first | rfl | exact absurd h (by decide)

/-- The characters of a genuine word are read as the word, where what follows does not run into it. -/
theorem Token.Kind.Genuine.read_word {w : String} (h : (wordKind w).Genuine) :
    ∃ c cs, w.toList = c :: cs ∧ (∀ d ∈ w.toList, isNameContinue d = true) ∧
      ∀ rest, Opens rest → Lexeme.read c (cs ++ rest) = ⟨wordKind w, c :: cs, rest⟩ := by
  obtain ⟨c, text, hstart, hkind⟩ := h.exists_readName (by simp)
  have hw := congrArg asName? hkind
  simp only [readName, asName?_wordKind, Option.some.injEq] at hw
  have hcontinue := isNameContinue_of_isNameStart hstart
  have hlist : w.toList = c :: text.takeWhile isNameContinue := by simp [hw, hcontinue]
  have hall : ∀ d ∈ w.toList, isNameContinue d = true := by
    intro d hd
    rw [hlist] at hd
    rcases List.mem_cons.1 hd with rfl | hd
    · exact hcontinue
    · exact all_of_mem_takeWhile hd
  refine ⟨c, _, hlist, hall, ?_⟩
  intro rest hrest
  have hspan := span_append hall fun d (hd : d ∈ rest.head?) => (opens_head hrest hd).1
  rw [hlist, List.cons_append] at hspan
  have hdot : c ≠ '.' := fun h => by rw [h] at hstart; cases hstart
  have hquote : c ≠ '"' := fun h => by rw [h] at hstart; cases hstart
  simp only [Lexeme.read, ofChar?_of_isNameContinue hcontinue, hdot, hquote, if_false, hstart, if_true, readName,
    hspan.1, hspan.2, ← hlist, String.ofList_toList]

private theorem Number.stops_of_opens {text : List Char} (h : Opens text) : Stops text := by
  intro c hc
  obtain ⟨hname, hdot, -⟩ := opens_head h hc
  exact ⟨hname, hdot⟩

/-- The text of a number. -/
def Token.Kind.numberText? : Token.Kind → Option String
  | int raw | float raw => some raw
  | _ => none

/-- A genuine number was scanned without a fault. -/
theorem Token.Kind.Genuine.exists_scan {kind : Token.Kind} (h : kind.Genuine) {raw : String}
    (hraw : kind.numberText? = some raw) :
    ∃ c text s, Number.scan (c :: text) = .ok s ∧ raw = String.ofList s.taken ∧
      kind = (if Number.isFloat s.taken then .float raw else .int raw) ∧ (c = '-' ∨ c.isDigit = true) ∧
      ∀ rest, Lexeme.read c rest = Number.read (c :: rest) := by
  rcases h with rfl | ⟨c, rest, rfl⟩
  · cases hraw
  · cases Lexeme.reading c with
    | number hnumber hread =>
      rw [hread] at hraw ⊢
      cases hscan : Number.scan (c :: rest) with
      | error e => obtain ⟨_ | fault, s⟩ := e <;> simp [Number.read, hscan, numberText?] at hraw
      | ok s =>
        have hs : raw = String.ofList s.taken := by
          simp only [Number.read, hscan] at hraw
          split at hraw <;> simpa [numberText?] using hraw.symm
        exact ⟨c, rest, s, hscan, hs, by simp [Number.read, hscan, hs], hnumber, hread⟩
    | sign _ hread | stray hread => simp [hread, numberText?] at hraw
    | dots _ hread =>
      rcases readDots_kind (c :: rest) with hkind | ⟨n, hkind⟩ <;> simp [hread, hkind, numberText?] at hraw
    | string _ hread =>
      rcases readString_kind (c :: rest) with ⟨raw, hkind⟩ | ⟨raw, hkind⟩ | ⟨cause, hkind⟩ <;>
        simp [hread, hkind, numberText?] at hraw
    | word _ hread =>
      rcases readName_kind (c :: rest) with hkind | hkind | hkind | ⟨word, hkind⟩ <;>
        simp [hread, hkind, numberText?] at hraw

/-- The characters of a genuine number are read as the number, where what follows does not run into it. -/
theorem Token.Kind.Genuine.read_number {kind : Token.Kind} (h : kind.Genuine) {raw : String}
    (hraw : kind.numberText? = some raw) : ∃ c cs, raw.toList = c :: cs ∧
      (∀ d ∈ raw.toList, Number.isTail d = true) ∧
        ∀ rest, Opens rest → Lexeme.read c (cs ++ rest) = ⟨kind, c :: cs, rest⟩ := by
  obtain ⟨c, text, s, hscan, rfl, hkind, hc, hread⟩ := h.exists_scan hraw
  have htext := Number.read_text_ne_nil text hc
  have hall := Number.scan_all (c :: text)
  simp only [Number.read, hscan] at htext
  rw [hscan] at hall
  obtain ⟨d, cs, hcs⟩ := List.exists_cons_of_ne_nil htext
  obtain rfl : d = c := by
    rw [Number.reached, Scan.all, hcs] at hall
    exact (List.cons.inj hall).1
  refine ⟨d, cs, by rw [String.toList_ofList, hcs], ?_, fun rest hrest => ?_⟩
  · rw [String.toList_ofList]
    exact (Number.isLiteral_of_scan hscan).1.isTail
  · have hagain := Number.scan_append hscan (Number.stops_of_opens hrest)
    rw [hcs, List.cons_append] at hagain
    rw [hread, Number.read, hagain, hkind, hcs]

/-! ### Strings -/

/-- A quoted string that is closed ends at the same place whatever follows. -/
theorem quotedLength_closed {text : List Char} {n : Nat} (h : quotedLength text = (n, .closed)) :
    ∃ body rest, text = body ++ rest ∧ body.length = n ∧ ∀ z, quotedLength (body ++ z) = (n, .closed) := by
  fun_induction quotedLength text generalizing n with
  | case1 => cases h
  | case2 rest =>
    cases h
    exact ⟨['"'], rest, rfl, rfl, fun z => rfl⟩
  | case3 => cases h
  | case4 => cases h
  | case5 c rest hterminator m e hlength ih =>
    -- a line terminator does not close the string
    simp only [isLineTerminator, Bool.or_eq_true, decide_eq_true_eq] at hterminator
    rcases hterminator with rfl | rfl <;> cases hlength <;> cases h
  | case6 c rest hterminator m e hlength ih =>
    obtain ⟨rfl, rfl⟩ := Prod.mk.inj h
    obtain ⟨body, tail, rfl, hbody, hz⟩ := ih hlength
    refine ⟨'\\' :: c :: body, tail, rfl, by simp [hbody], fun z => ?_⟩
    rw [List.cons_append, List.cons_append, quotedLength, if_neg hterminator, hz]
  | case7 c rest hquote hfeed hreturn hescape m e hlength ih =>
    obtain ⟨rfl, rfl⟩ := Prod.mk.inj h
    obtain ⟨body, tail, rfl, hbody, hz⟩ := ih hlength
    refine ⟨c :: body, tail, rfl, by simp [hbody], fun z => ?_⟩
    have hne : body ≠ [] := by
      rintro rfl
      have := hz []
      cases this
    obtain ⟨d, ds, rfl⟩ := List.exists_cons_of_ne_nil hne
    rw [List.cons_append, quotedLength, hz]
    · exact hquote
    · exact hfeed
    · exact hreturn
    · intro d' ds' hc heq
      exact hescape _ _ hc rfl

/-- A block string that is closed ends at the same place whatever follows. -/
theorem blockLength_closed {escaped : Bool} {text : List Char} {n : Nat}
    (h : blockLength escaped text = (n, .closed)) :
    ∃ body rest, text = body ++ rest ∧ body.length = n ∧ 3 ≤ n ∧
      ∀ z, blockLength escaped (body ++ z) = (n, .closed) := by
  fun_induction blockLength escaped text generalizing n with
  | case1 rest m e hlength ih =>
    obtain ⟨rfl, rfl⟩ := Prod.mk.inj h
    obtain ⟨body, tail, rfl, hbody, -, hz⟩ := ih hlength
    refine ⟨'"' :: '"' :: '"' :: body, tail, rfl, by simp [hbody], by omega, fun z => ?_⟩
    simp only [List.cons_append, blockLength, if_true, hz]
  | case2 escaped rest hescaped =>
    cases h
    obtain rfl : escaped = false := by simpa using hescaped
    exact ⟨['"', '"', '"'], rest, rfl, rfl, by omega, fun z => rfl⟩
  | case3 escaped c rest htriple m e hlength ih =>
    obtain ⟨rfl, rfl⟩ := Prod.mk.inj h
    obtain ⟨body, tail, rfl, hbody, hthree, hz⟩ := ih hlength
    refine ⟨c :: body, tail, rfl, by simp [hbody], by omega, fun z => ?_⟩
    rw [List.cons_append, blockLength, hz]
    -- what is taken is long enough to tell that no three quotes come first
    intro rest hc hrest
    match body, hthree with
    | a :: b :: body, _ =>
      obtain ⟨ha, hrest⟩ := List.cons.inj hrest
      obtain ⟨hb, -⟩ := List.cons.inj hrest
      exact htriple (body ++ tail) hc (by rw [ha, hb]; rfl)
  | case4 => cases h

/-- The literal that a token of a string keeps. -/
def Token.Kind.literal? : Token.Kind → Option String
  | string raw | blockString raw => some raw
  | _ => none

/-- A genuine string was read from a text that begins with a quote. -/
theorem Token.Kind.Genuine.exists_readString {kind : Token.Kind} (h : kind.Genuine) {raw : String}
    (hraw : kind.literal? = some raw) : ∃ rest, kind = (readString ('"' :: rest)).kind := by
  rcases h with rfl | ⟨c, rest, rfl⟩
  · cases hraw
  · cases Lexeme.reading c with
    | string hquote hread =>
      subst hquote
      exact ⟨rest, by rw [hread]⟩
    | sign _ hread | stray hread => simp [hread, literal?] at hraw
    | dots _ hread =>
      rcases readDots_kind (c :: rest) with hkind | ⟨n, hkind⟩ <;> simp [hread, hkind, literal?] at hraw
    | word _ hread =>
      rcases readName_kind (c :: rest) with hkind | hkind | hkind | ⟨word, hkind⟩ <;>
        simp [hread, hkind, literal?] at hraw
    | number _ hread =>
      rcases Number.read_kind (c :: rest) with ⟨raw, hkind⟩ | ⟨raw, hkind⟩ | hkind | ⟨fault, raw, hkind⟩ <;>
        simp [hread, hkind, literal?] at hraw

theorem readString_block {taken z : List Char} (h : blockLength false (taken ++ z) = (taken.length, .closed)) :
    readString ('"' :: '"' :: '"' :: (taken ++ z)) =
      ⟨.blockString (String.ofList ('"' :: '"' :: '"' :: taken)), '"' :: '"' :: '"' :: taken, z⟩ := by
  simp [readString, h]

theorem readString_quoted {taken z : List Char} (h : quotedLength (taken ++ z) = (taken.length, .closed))
    (hnot : ∀ rest, taken ++ z ≠ '"' :: '"' :: rest) :
    readString ('"' :: (taken ++ z)) = ⟨.string (String.ofList ('"' :: taken)), '"' :: taken, z⟩ := by
  unfold readString
  split
  · rename_i body hbody
    exact absurd (List.cons.inj hbody).2 (hnot body)
  · simp [h]

/-- A string with two quotes at its front is empty, with its second quote at once. -/
theorem eq_quote_of_closed {taken z body : List Char} (h : quotedLength (taken ++ z) = (taken.length, .closed))
    (hbody : taken ++ z = '"' :: '"' :: body) : taken = ['"'] ∧ z = '"' :: body := by
  rw [hbody] at h
  obtain ⟨c, rfl⟩ := List.length_eq_one_iff.1 (Prod.mk.inj h).1.symm
  obtain ⟨rfl, rfl⟩ := List.cons.inj hbody
  exact ⟨rfl, rfl⟩

/-- A genuine quoted string is its opening quote and characters that end it whatever follows. -/
theorem Token.Kind.Genuine.exists_quoted {raw : String} (h : (string raw).Genuine) :
    ∃ taken, raw.toList = '"' :: taken ∧ ∀ z, quotedLength (taken ++ z) = (taken.length, .closed) := by
  obtain ⟨rest, hrest⟩ := h.exists_readString rfl
  by_cases hblock : ∃ body, rest = '"' :: '"' :: body
  · obtain ⟨body, rfl⟩ := hblock
    simp only [readString] at hrest
    split at hrest <;> cases hrest
  · have hnot : ∀ body, rest ≠ '"' :: '"' :: body := fun body h => hblock ⟨body, h⟩
    cases hlength : quotedLength rest with
    | mk n e =>
      cases e with
      | closed =>
        obtain ⟨taken, tail, rfl, rfl, hz⟩ := quotedLength_closed hlength
        rw [readString_quoted (hz tail) hnot] at hrest
        cases hrest
        exact ⟨taken, String.toList_ofList, hz⟩
      | endOfLine | endOfInput => simp [readString, hnot, hlength] at hrest

/-- A genuine block string is its opening quotes and characters that end it whatever follows. -/
theorem Token.Kind.Genuine.exists_block {raw : String} (h : (blockString raw).Genuine) :
    ∃ taken, raw.toList = '"' :: '"' :: '"' :: taken ∧
      ∀ z, blockLength false (taken ++ z) = (taken.length, .closed) := by
  obtain ⟨rest, hrest⟩ := h.exists_readString rfl
  by_cases hblock : ∃ body, rest = '"' :: '"' :: body
  · obtain ⟨body, rfl⟩ := hblock
    cases hlength : blockLength false body with
    | mk n e =>
      cases e with
      | closed =>
        obtain ⟨taken, tail, rfl, rfl, -, hz⟩ := blockLength_closed hlength
        rw [readString_block (hz tail)] at hrest
        cases hrest
        exact ⟨taken, String.toList_ofList, hz⟩
      | endOfLine | endOfInput => simp [readString, hlength] at hrest
  · have hnot : ∀ body, rest ≠ '"' :: '"' :: body := fun body h => hblock ⟨body, h⟩
    cases hlength : quotedLength rest with
    | mk n e => cases e <;> simp [readString, hnot, hlength] at hrest

/-- The characters of a genuine string are read as the string, where what follows does not begin with a quote. -/
theorem Token.Kind.Genuine.read_string {kind : Token.Kind} (h : kind.Genuine) {raw : String}
    (hraw : kind.literal? = some raw) :
    ∃ cs, raw.toList = '"' :: cs ∧ ∀ z, Opens z → Lexeme.read '"' (cs ++ z) = ⟨kind, '"' :: cs, z⟩ := by
  cases kind with
  | string _ =>
    obtain rfl := Option.some.inj hraw
    obtain ⟨taken, htaken, hz⟩ := h.exists_quoted
    refine ⟨taken, htaken, fun z hopens => ?_⟩
    have hread := readString_quoted (hz z) fun body hbody => ?_
    · rw [← htaken, String.ofList_toList, htaken] at hread
      exact hread
    -- what follows does not make a third quote behind an empty string
    · obtain ⟨-, rfl⟩ := eq_quote_of_closed (hz z) hbody
      exact absurd (hopens '"' rfl) (by decide)
  | blockString _ =>
    obtain rfl := Option.some.inj hraw
    obtain ⟨taken, htaken, hz⟩ := h.exists_block
    refine ⟨'"' :: '"' :: taken, htaken, fun z _ => ?_⟩
    have hread := readString_block (hz z)
    rw [← htaken, String.ofList_toList, htaken] at hread
    exact hread
  | _ => cases hraw

theorem Lexeme.read_kind_ne_endOfInput (c : Char) (rest : List Char) : (read c rest).kind ≠ .endOfInput := by
  cases reading c with
  | sign _ hread | stray hread => simp [hread]
  | dots _ hread => rcases readDots_kind (c :: rest) with hkind | ⟨n, hkind⟩ <;> simp [hread, hkind]
  | string _ hread =>
    rcases readString_kind (c :: rest) with ⟨raw, hkind⟩ | ⟨raw, hkind⟩ | ⟨cause, hkind⟩ <;> simp [hread, hkind]
  | word _ hread =>
    rcases readName_kind (c :: rest) with hkind | hkind | hkind | ⟨word, hkind⟩ <;> simp [hread, hkind]
  | number _ hread =>
    rcases Number.read_kind (c :: rest) with ⟨raw, hkind⟩ | ⟨raw, hkind⟩ | hkind | ⟨fault, raw, hkind⟩ <;>
      simp [hread, hkind]

end GraphQL
