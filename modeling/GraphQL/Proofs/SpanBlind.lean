import GraphQL.Proofs.RelocationGrammar

/-!
# Parsing does not look at spans

To forget all places is a relocation. So documents of one kind that are parsed from tokens of the same kinds are the
same up to their spans, and where the one parse stops, the other stops with the same fault (`document_alike`,
`schemaDocument_alike`).
-/

namespace GraphQL

/-- The fault without the place that it tells. -/
def ParseFault.erase : ParseFault → ParseFault
  | unclosed close construct _ => unclosed close construct .nowhere
  | fault => fault

private theorem ParseFault.message_erase (fault : ParseFault) : fault.erase.message = fault.message := by
  cases fault <;> rfl

namespace Parse

variable {α β γ : Type}

/-- What a parse gives but for spans: the result up to `k`, or the fault and its message. -/
def outcome (k : α → γ) : Except ParseError α → Except (ParseFault × String) γ
  | .ok a => .ok (k a)
  | .error e => .error (e.fault.erase, e.message)

private theorem outcome_error {k : α → γ} {d e : ParseError} (h : d.fault.erase = e.fault.erase) :
    outcome k (.error d) = outcome k (.error e) := by
  have hmessage : d.message = e.message := by
    rw [ParseError.message, ParseError.message, ← d.fault.message_erase, ← e.fault.message_erase, h]
  rw [outcome, outcome, h, hmessage]

end Parse

/-- Forgets all places and keeps the block strings. -/
def Relocation.forgetting : Relocation where
  place _ := .origin
  block := id
  place_origin := rfl
  ordered _ _ _ := .inl rfl
  cook_block _ := rfl

namespace Relocation

private theorem kind_forgetting (kind : Token.Kind) :
    forgetting.kind kind = kind := forgetting.kind_eq_self (fun _ => rfl) kind

private theorem fault_forgetting (fault : ParseFault) : forgetting.fault fault = fault.erase := by
  cases fault with
  | unexpected expected found => exact congrArg (ParseFault.unexpected expected) (kind_forgetting found)
  | _ => rfl

/-- Tokens of the same kinds are the same where all places are forgotten. -/
private theorem map_token_forgetting {ts us : List Token} (h : ts.map (·.kind) = us.map (·.kind)) :
    ts.map forgetting.token = us.map forgetting.token := by
  have htoken : forgetting.token = (fun kind => ⟨kind, .nowhere⟩) ∘ (·.kind) :=
    funext fun t => congrArg (Token.mk · .nowhere) (kind_forgetting t.kind)
  rw [htoken, ← List.map_map, ← List.map_map, h]

end Relocation

namespace Parse

/-- On tokens of the same kinds a step that moves to itself has one outcome. -/
theorem Moves.outcome_eq {α : Type} {k : α → α} {p : Parse α} (h : Moves .forgetting k p p) {ts us : List Token}
    (hkinds : ts.map (·.kind) = us.map (·.kind)) : outcome k (p.run ts) = outcome k (p.run us) := by
  have hts := h.run ts
  rw [Relocation.map_token_forgetting hkinds, h.run us] at hts
  cases hp : p.run ts with
  | error d =>
    cases hq : p.run us with
    | error e =>
      rw [hp, hq] at hts
      have hfault := congrArg ParseError.fault (Except.error.inj hts)
      simp only [Relocation.error, Relocation.fault_forgetting] at hfault
      exact outcome_error hfault.symm
    | ok b =>
      rw [hp, hq] at hts
      cases hts
  | ok a =>
    cases hq : p.run us with
    | error e =>
      rw [hp, hq] at hts
      cases hts
    | ok b =>
      rw [hp, hq] at hts
      exact congrArg Except.ok (Except.ok.inj hts).symm

variable {ts us : List Token}

/-- Tokens of the same kinds give the same document or the same fault, but for places. -/
theorem document_alike (hkinds : ts.map (·.kind) = us.map (·.kind)) :
    outcome (Document.restyle .erase) (document.run ts) = outcome (Document.restyle .erase) (document.run us) :=
  Moves.outcome_eq document_moves hkinds

theorem schemaDocument_alike (hkinds : ts.map (·.kind) = us.map (·.kind)) :
    outcome (SchemaDocument.restyle .erase) (schemaDocument.run ts) =
      outcome (SchemaDocument.restyle .erase) (schemaDocument.run us) :=
  Moves.outcome_eq schemaDocument_moves hkinds

end Parse

end GraphQL
