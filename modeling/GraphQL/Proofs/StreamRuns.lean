import GraphQL.Token.Stream
import Mathlib.Data.List.Basic

/-!
# Runs of token streams

A token stream is asked to hand out tokens and to look ahead, in any order and as far as one likes. Two numbers tell
where it is: how many tokens it has handed out, and how many it has pulled (`TokenStream.Place`). The stream is at
such a place of its tokens when the buffer holds the tokens between the two (`TokenStream.At`). Each call answers as
the list of tokens does at the place, and leads to the next place (`TokenStream.At.perform`); so does every run of
calls (`TokenStream.At.run`, `TokenStream.follows_tokens`).
-/

namespace GraphQL

namespace TokenStream

/-- What can be asked of a token stream. -/
inductive Call where
  | peek
  | peekAt (n : Nat)
  | consume
  | isAtEnd
  | last
deriving DecidableEq

inductive Answer where
  | token (token : Option Token)
  | flag (flag : Bool)
  | span (span : Option Span)
deriving DecidableEq

def perform (s : TokenStream) : Call → Answer × TokenStream
  | .peek => (.token s.peek.1, s.peek.2)
  | .peekAt n => (.token (s.peekAt n).1, (s.peekAt n).2)
  | .consume => (.token s.consume.1, s.consume.2)
  | .isAtEnd => (.flag s.isAtEnd.1, s.isAtEnd.2)
  | .last => (.span s.last, s)

def run (s : TokenStream) : List Call → List Answer × TokenStream
  | [] => ([], s)
  | call :: calls =>
    let (answer, s) := s.perform call
    let (answers, s) := s.run calls
    (answer :: answers, s)

/-- The tokens that the calls of `consume` among some calls were answered with. -/
def handedOut (calls : List Call) (answers : List Answer) : List Token :=
  (calls.zip answers).filterMap fun
    | (.consume, .token t) => t
    | _ => none

/-- How many tokens have been handed out, and how many have been pulled from the source. -/
structure Place where
  consumed : Nat
  pulled : Nat
deriving DecidableEq

/-- How many of the tokens that are still to be handed out a call has to look at. -/
def Call.needs : Call → Nat
  | peek | consume | isAtEnd => 1
  | peekAt n => n + 1
  | last => 0

namespace Place

/-- The place after a call, in a source of `length` tokens. -/
def after (length : Nat) (place : Place) (call : Call) : Place where
  consumed := if call = .consume then min (place.consumed + 1) length else place.consumed
  pulled := max place.pulled (min (place.consumed + call.needs) length)

/-- What a call is answered at a place of the tokens. -/
def answer (ts : List Token) (place : Place) : Call → Answer
  | .peek | .consume => .token ts[place.consumed]?
  | .peekAt n => .token ts[place.consumed + n]?
  | .isAtEnd => .flag (ts[place.consumed]?.all (·.kind = .endOfInput))
  | .last => .span ((ts.take place.consumed).getLast?.map (·.span))

/-- What calls one after the other are answered. -/
def answers (ts : List Token) (place : Place) : List Call → List Answer
  | [] => []
  | call :: calls => place.answer ts call :: (place.after ts.length call).answers ts calls

end Place

/-- The stream is at the place: what is left of the source are the tokens not pulled, and the buffer holds those
pulled and not handed out. -/
structure At (ts : List Token) (place : Place) (s : TokenStream) : Prop where
  consumed_le : place.consumed ≤ place.pulled
  pulled_le : place.pulled ≤ ts.length
  source : s.source = ts.drop place.pulled
  buffer : s.buffer = (ts.take place.pulled).drop place.consumed
  last : s.last = (ts.take place.consumed).getLast?.map (·.span)

variable {ts : List Token} {place : Place} {s : TokenStream}

private theorem at_ofTokens (ts : List Token) : At ts ⟨0, 0⟩ (ofTokens ts) :=
  ⟨Nat.le_refl _, Nat.zero_le _, rfl, rfl, rfl⟩

namespace At

private theorem length_buffer (h : At ts place s) : s.buffer.length = place.pulled - place.consumed := by
  have := h.pulled_le
  rw [h.buffer, List.length_drop, List.length_take]
  omega

/-- Filling the buffer pulls the tokens that are missing, as far as there are any. -/
theorem fill (h : At ts place s) (n : Nat) :
    At ts ⟨place.consumed, max place.pulled (min (place.consumed + n) ts.length)⟩ (s.fill n) := by
  obtain ⟨k, p⟩ := place
  have hconsumed : k ≤ p := h.consumed_le
  have hpulled : p ≤ ts.length := h.pulled_le
  have hlength : s.buffer.length = p - k := h.length_buffer
  -- so many more are asked for, and beyond the end of the tokens there are none
  have hmissing : p + (n - s.buffer.length) = max p (k + n) := by omega
  have hmin : min (max p (min (k + n) ts.length)) ts.length = min (p + (n - s.buffer.length)) ts.length := by omega
  refine ⟨by simp only; omega, by simp only; omega, ?_, ?_, h.last⟩
  · calc (s.fill n).source = (ts.drop p).drop (n - s.buffer.length) := by rw [TokenStream.fill, h.source]
      _ = ts.drop (p + (n - s.buffer.length)) := List.drop_drop
      _ = _ := (List.drop_eq_drop_iff.2 hmin).symm
  · calc (s.fill n).buffer = (ts.take p).drop k ++ (ts.drop p).take (n - s.buffer.length) := by
          rw [TokenStream.fill, ← h.source, ← h.buffer]
      _ = (ts.take p ++ (ts.drop p).take (n - s.buffer.length)).drop k :=
          (List.drop_append_of_le_length (by rw [List.length_take]; omega)).symm
      _ = (ts.take (p + (n - s.buffer.length))).drop k := by rw [List.take_add]
      _ = _ := by rw [List.take_eq_take_iff.2 hmin]

/-- The buffer shows the tokens from the next one on. -/
theorem getElem?_buffer (h : At ts place s) {n : Nat} (hn : place.consumed + n < place.pulled) :
    s.buffer[n]? = ts[place.consumed + n]? := by
  rw [h.buffer, List.getElem?_drop, List.getElem?_take, if_pos hn]

private theorem peekAt (h : At ts place s) (n : Nat) :
    (s.peekAt n).1 = ts[place.consumed + n]? ∧ At ts (place.after ts.length (.peekAt n)) (s.peekAt n).2 := by
  have hfill := h.fill (n + 1)
  refine ⟨?_, hfill⟩
  by_cases hn : place.consumed + n < ts.length
  · exact hfill.getElem?_buffer (by simp only; omega)
  · -- there is no such token, in the buffer or in the list
    have hlength : (s.fill (n + 1)).buffer.length =
        max place.pulled (min (place.consumed + (n + 1)) ts.length) - place.consumed := hfill.length_buffer
    have := h.pulled_le
    rw [List.getElem?_eq_none (Nat.le_of_not_lt hn)]
    exact List.getElem?_eq_none (by omega)

private theorem consume (h : At ts place s) :
    s.consume.1 = ts[place.consumed]? ∧ At ts (place.after ts.length .consume) s.consume.2 := by
  have hfill := h.fill 1
  obtain ⟨hanswer, -⟩ := h.peekAt 0
  have hnext : (s.fill 1).buffer[0]? = ts[place.consumed]? := hanswer
  have := h.consumed_le
  have := h.pulled_le
  cases hbuffer : (s.fill 1).buffer with
  | nil =>
    -- all tokens have been handed out
    rw [hbuffer] at hnext
    have hend : ts.length ≤ place.consumed := List.getElem?_eq_none_iff.1 hnext.symm
    have hconsume : s.consume = (none, s.fill 1) := by simp [TokenStream.consume, hbuffer]
    rw [hconsume]
    refine ⟨hnext, ?_⟩
    have hplace : place.after ts.length .consume =
        ⟨place.consumed, max place.pulled (min (place.consumed + 1) ts.length)⟩ := by
      rw [Place.after, if_pos rfl, Place.mk.injEq]
      exact ⟨by omega, rfl⟩
    rwa [hplace]
  | cons t buffer =>
    rw [hbuffer] at hnext
    obtain ⟨hlt, -⟩ := List.getElem?_eq_some_iff.1 hnext.symm
    have hconsumed : (place.after ts.length .consume).consumed = place.consumed + 1 := by
      rw [Place.after]
      simp only [if_true]
      omega
    have hconsume : s.consume = (some t, { s.fill 1 with buffer, last := some t.span }) := by
      simp [TokenStream.consume, hbuffer]
    rw [hconsume]
    refine ⟨hnext, ?_, hfill.pulled_le, hfill.source, ?_, ?_⟩
    · rw [hconsumed]
      simp only [Place.after, Call.needs]
      omega
    · have htail := congrArg List.tail hfill.buffer
      rw [hbuffer, List.tail_drop] at htail
      rw [hconsumed]
      exact htail
    · rw [hconsumed, List.take_add_one, ← hnext]
      simp

private theorem isAtEnd (h : At ts place s) :
    s.isAtEnd.1 = ts[place.consumed]?.all (·.kind = .endOfInput) ∧
      At ts (place.after ts.length .isAtEnd) s.isAtEnd.2 := by
  have hanswer : s.peek.1 = ts[place.consumed]? := (h.peekAt 0).1
  refine ⟨?_, (h.peekAt 0).2⟩
  rw [← hanswer, TokenStream.isAtEnd]
  cases hpeek : s.peek.1 <;> simp [hpeek]

theorem perform (h : At ts place s) (call : Call) :
    (s.perform call).1 = place.answer ts call ∧ At ts (place.after ts.length call) (s.perform call).2 := by
  cases call with
  | peek => exact ⟨congrArg Answer.token (h.peekAt 0).1, (h.peekAt 0).2⟩
  | peekAt n => exact ⟨congrArg Answer.token (h.peekAt n).1, (h.peekAt n).2⟩
  | consume => exact ⟨congrArg Answer.token h.consume.1, h.consume.2⟩
  | isAtEnd => exact ⟨congrArg Answer.flag h.isAtEnd.1, h.isAtEnd.2⟩
  | last =>
    have hplace : place.after ts.length .last = place := by
      have := h.consumed_le
      rw [Place.after, if_neg (by decide), Call.needs]
      exact congrArg (Place.mk _) (by omega)
    rw [hplace]
    exact ⟨congrArg Answer.span h.last, h⟩

/-- A run of calls gets the answers of the list of tokens, and comes to the place to which the calls lead. -/
theorem run (h : At ts place s) (calls : List Call) :
    (s.run calls).1 = place.answers ts calls ∧ At ts (calls.foldl (Place.after ts.length) place) (s.run calls).2 := by
  induction calls generalizing place s with
  | nil => exact ⟨rfl, h⟩
  | cons call calls ih =>
    obtain ⟨hanswer, hstep⟩ := h.perform call
    obtain ⟨hanswers, hrun⟩ := ih hstep
    exact ⟨congrArg₂ List.cons hanswer hanswers, hrun⟩

end At

private theorem handedOut_consume (t : Option Token) (calls : List Call) (answers : List Answer) :
    handedOut (.consume :: calls) (.token t :: answers) = t.toList ++ handedOut calls answers := by
  cases t <;> rfl

/-- What calls hand out are the tokens from the place before them to the place after them. -/
theorem handedOut_answers (place : Place) (calls : List Call) :
    ts.take place.consumed ++ handedOut calls (place.answers ts calls) =
      ts.take (calls.foldl (Place.after ts.length) place).consumed := by
  induction calls generalizing place with
  | nil => exact List.append_nil _
  | cons call calls ih =>
    rw [List.foldl_cons, ← ih, Place.answers]
    cases call with
    | consume =>
      have hnext : ts.take (place.after ts.length .consume).consumed =
          ts.take place.consumed ++ ts[place.consumed]?.toList := by
        rw [← List.take_add_one]
        exact List.take_eq_take_min.symm
      rw [hnext, List.append_assoc]
      exact congrArg (ts.take place.consumed ++ ·) (handedOut_consume ..)
    | _ => rfl

/-- Whatever a stream is asked, in whatever order, it answers as an index into the tokens of its source does. The
tokens that it hands out are the first ones of the source, the buffer holds those that were pulled and not handed
out, and no token is lost or doubled: what was handed out, the buffer and the rest of the source are all tokens. -/
theorem follows_tokens (source : String) (calls : List Call) :
    let ts := tokens source
    let answers := ((ofSource source).run calls).1
    let s := ((ofSource source).run calls).2
    let place := calls.foldl (Place.after ts.length) ⟨0, 0⟩
    answers = Place.answers ts ⟨0, 0⟩ calls ∧
    handedOut calls answers = ts.take place.consumed ∧ (handedOut calls answers).length = place.consumed ∧
    (∀ n, (s.peekAt n).1 = ts[place.consumed + n]?) ∧ s.peek.1 = ts[place.consumed]? ∧
    s.consume.1 = ts[place.consumed]? ∧
    (s.isAtEnd.1 = true ↔ ∀ t ∈ ts[place.consumed]?, t.kind = .endOfInput) ∧
    s.last = (handedOut calls answers).getLast?.map (·.span) ∧
    s.buffer = (ts.take place.pulled).drop place.consumed ∧ s.source = ts.drop place.pulled ∧
    handedOut calls answers ++ s.buffer ++ s.source = ts := by
  intro ts answers s place
  obtain ⟨hanswers, hs⟩ := (at_ofTokens ts).run calls
  have hplace : At ts place s := hs
  have hout : handedOut calls answers = ts.take place.consumed := by
    have hall : handedOut calls (Place.answers ts ⟨0, 0⟩ calls) = ts.take place.consumed :=
      handedOut_answers ⟨0, 0⟩ calls
    rwa [← hanswers] at hall
  have hconsumed := hplace.consumed_le
  have hpulled := hplace.pulled_le
  refine ⟨hanswers, hout, ?_, fun n => (hplace.peekAt n).1, (hplace.peekAt 0).1, hplace.consume.1, ?_, ?_,
    hplace.buffer, hplace.source, ?_⟩
  · rw [hout, List.length_take]
    omega
  · rw [hplace.isAtEnd.1, Option.all_eq_true]
    simp only [decide_eq_true_eq, Option.mem_def]
  · rw [hout, hplace.last]
  · have hfront : ts.take place.consumed = (ts.take place.pulled).take place.consumed := by
      rw [List.take_take, Nat.min_eq_left hconsumed]
    rw [hout, hplace.buffer, hplace.source, hfront, List.take_append_drop, List.take_append_drop]

end TokenStream

end GraphQL
