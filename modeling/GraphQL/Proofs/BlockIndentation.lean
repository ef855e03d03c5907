import Mathlib.Logic.Function.Iterate
import GraphQL.Proofs.Evaluation
import GraphQL.Proofs.StringSpelling

/-!
# Block strings in indented text

A printer moves a text to the right by two spaces at a time, the lines of block strings along with it. Moved `k` times,
a block string has `2k` spaces in front of it and its lines are shifted by `2k` (`iterate_indent`). The value has to
survive this at every depth (`tokens_iterate_indent`): what is shared by the lines after the first is the shift.
-/

namespace GraphQL

open Layout

/-- A text that is moved `k` times is shifted by `2k` behind as many spaces. -/
theorem iterate_indent {text : List Char} (hne : text ≠ []) (k : Nat) :
    indent^[k] text = List.replicate (2 * k) ' ' ++ shift (2 * k) text := by
  induction k with
  | zero => simp
  | succ k ih =>
    have hmoved : List.replicate (2 * k) ' ' ++ shift (2 * k) text ≠ [] := by simp [shift_eq_nil, hne]
    rw [Function.iterate_succ_apply', ih, indent_eq, if_neg hmoved, shift_append, shift_replicate_space, shift_shift,
      Nat.mul_succ, Nat.add_comm 2 (2 * k)]
    rfl

namespace Block

private theorem print?_eq_some_iff {value text : List Char} :
    print? value = some text ↔ isPrintable value = true ∧ tripleQuote ++ escape value ++ tripleQuote = text := by
  simp [print?]

/-- At any depth, the block string of a value is one token from its first quote to its last, with nothing after it, and
the token cooks to the value. -/
theorem tokens_iterate_indent {value : String} {text : List Char} (h : print? value.toList = some text) (k : Nat) :
    ∃ raw : String, indent^[k] text = List.replicate (2 * k) ' ' ++ raw.toList ∧
      tokens (String.ofList (indent^[k] text)) =
        [⟨.blockString raw, ⟨.after (List.replicate (2 * k) ' '), .after (indent^[k] text)⟩⟩,
          ⟨.endOfInput, .emptyAt (.after (indent^[k] text))⟩] ∧
      cook raw = .ok value := by
  obtain ⟨hprintable, rfl⟩ := print?_eq_some_iff.1 h
  have hp := printable_of_isPrintable hprintable
  have hne : tripleQuote ++ escape value.toList ++ tripleQuote ≠ [] := by simp [tripleQuote]
  have hmoved := iterate_indent hne k
  rw [shift_literal] at hmoved
  have hspaces : ∀ c ∈ List.replicate (2 * k) ' ', isBlank c = true := fun c hc => by
    rw [(List.mem_replicate.1 hc).2]
    rfl
  have hread := read_shift hp (2 * k) []
  rw [List.append_nil] at hread
  refine ⟨String.ofList (tripleQuote ++ escape (shift (2 * k) value.toList) ++ tripleQuote), ?_, ?_, cook_shift hp _⟩
  · rw [hmoved, String.toList_ofList]
  · rw [tokens, String.toList_ofList, hmoved, tokensFrom_blanks hspaces]
    have hquotes : tripleQuote ++ escape (shift (2 * k) value.toList) ++ tripleQuote =
        '"' :: ('"' :: '"' :: (escape (shift (2 * k) value.toList) ++ tripleQuote)) := rfl
    conv => lhs; rw [hquotes]
    rw [tokensFrom_read (by decide) (by decide) _ _ hread rfl, tokensFrom_nil, Cursor.start_eq_behind,
      Cursor.after_behind, Cursor.after_behind]
    rfl

/-- A triple quote behind a backslash, and an empty line that is moved along. -/
theorem tokens_iterate_indent_of_quotes :
    let moved := "    \"\"\"a\\\\\"\"\"\n    \n    b\"\"\""
    ∃ text, print? "a\\\"\"\"\n\nb".toList = some text ∧ String.ofList (indent^[2] text) = moved ∧
      ∃ raw, tokens moved = [⟨.blockString raw, ⟨⟨0, 4, 4, 4⟩, ⟨2, 8, 8, 27⟩⟩⟩, ⟨.endOfInput, .emptyAt ⟨2, 8, 8, 27⟩⟩] ∧
        cook raw = .ok "a\\\"\"\"\n\nb" := by
  intro moved
  have hvalue : "a\\\"\"\"\n\nb".toList = ['a', '\\', '"', '"', '"', '\n', '\n', 'b'] := String.toList_ofList
  have hprint : print? "a\\\"\"\"\n\nb".toList =
      some ['"', '"', '"', 'a', '\\', '\\', '"', '"', '"', '\n', '\n', 'b', '"', '"', '"'] := by
    rw [hvalue]
    decide +kernel
  obtain ⟨raw, -, htokens, hcook⟩ := tokens_iterate_indent hprint 2
  exact ⟨_, hprint, rfl, raw, htokens, hcook⟩

end Block

end GraphQL
