import Mathlib
import GodelWhile.Proofs.SideBySide

/-! # Positions do not steer the parser

Tokens carry their places, and the parser copies a place into every `@trace` and every error. It
never looks at one. So parsing commutes with forgetting all places: the stream and the same stream
without places are read side by side. A statement about streams of bare tokens thus carries over to
the streams that the lexer makes (`parse_of_unplaced`). -/

namespace GodelWhile

namespace Directive

/-- The directive with its place forgotten. -/
def unplaced : Directive → Directive
  | .trace _ => .trace .nowhere
  | d => d

end Directive

namespace Code

mutual

/-- The code with all places forgotten. -/
def unplaced : Code → Code
  | .int n => .int n
  | .bool b => .bool b
  | .var x => .var x
  | .not e => .not (unplaced e)
  | .binary o l r => .binary o (unplaced l) (unplaced r)
  | .skip => .skip
  | .assign x e => .assign x (unplaced e)
  | .suite items => .suite (unplacedItems items)
  | .ifThen c a => .ifThen (unplaced c) (unplaced a)
  | .ifElse c a b => .ifElse (unplaced c) (unplaced a) (unplaced b)
  | .loop c a => .loop (unplaced c) (unplaced a)
  | .directive d => .directive d.unplaced
  | .number a => .number (unplaced a)
  | .decode cat e => .decode cat (unplaced e)
  | .run cat e => .run cat (unplaced e)

/-- The items with all places forgotten. -/
def unplacedItems : List Code → List Code
  | [] => []
  | a :: rest => unplaced a :: unplacedItems rest

end

theorem unplacedItems_eq_map : ∀ items : List Code, unplacedItems items = items.map unplaced
  | [] => by rw [unplacedItems, List.map_nil]
  | a :: rest => by rw [unplacedItems, List.map_cons, unplacedItems_eq_map rest]

end Code

/-- The token with its place forgotten. -/
def Located.unplaced (t : Located) : Located := ⟨t.token, .nowhere⟩

/-- The error with its place forgotten. -/
def SyntaxError.unplaced (e : SyntaxError) : SyntaxError := ⟨.nowhere, e.cause⟩

namespace Reply

variable {α β : Type}

/-- The reply with all places forgotten; `f` forgets those in the value. -/
def unplaced (f : α → β) : Reply α → Reply β
  | .ok a rest => .ok (f a) (rest.map Located.unplaced)
  | .error e rest => .error e.unplaced (rest.map Located.unplaced)

end Reply

namespace Parser

theorem next_unplaced (ts : List Located) :
    next (ts.map Located.unplaced) = (next ts).unplaced := by
  cases ts <;> rfl

@[simp] theorem token_next_unplaced (ts : List Located) :
    (next (ts.map Located.unplaced)).token = (next ts).token := by
  rw [next_unplaced]
  rfl

end Parser

/-- Placed tokens beside bare ones. -/
def Parallel.unplacing : Parallel where
  streams ts us := us = ts.map Located.unplaced
  errors e f := f = e.unplaced
  code := Code.unplaced

theorem Parallel.closed_unplacing : unplacing.Closed where
  token := by
    rintro ts _ rfl
    rw [Parser.token_next_unplaced]
  tail := by
    rintro ts _ rfl -
    exact List.map_tail.symm
  blame := by
    rintro ts _ cause rfl -
    rw [Parser.next_unplaced]
    rfl
  trace := by
    rintro ts _ rfl -
    rw [Parser.next_unplaced]
    rfl
  shape := by
    constructor
    case suite => exact fun items => by simp only [unplacing, Code.unplaced, Code.unplacedItems_eq_map]
    case directive =>
      intro d hd
      cases d with
      | trace p => exact absurd rfl (hd p)
      | _ => rfl
    all_goals intros; rfl

namespace Rule

/-- The rule with all places forgotten. -/
def unplaced : Rule → Rule
  | .suite done => .suite (done.map Code.unplaced)
  | .operators l left => .operators l left.unplaced
  | r => r

/-- Reading bare tokens is reading placed ones and forgetting the places. -/
theorem parse_unplaced (r : Rule) (ts : List Located) :
    r.unplaced.parse (ts.map Located.unplaced) = (r.parse ts).unplaced Code.unplaced := by
  have hrule : Parallel.unplacing.rule r = r.unplaced := by cases r <;> rfl
  have hparse : Parallel.unplacing.Codes (r.parse ts) (r.unplaced.parse (ts.map Located.unplaced)) :=
    hrule ▸ Parallel.closed_unplacing.parse r rfl
  generalize r.parse ts = reply, r.unplaced.parse (ts.map Located.unplaced) = reply' at hparse
  cases hparse with
  | ok hcode hrest => rw [hcode, hrest]; rfl
  | error herrors hrest => rw [herrors, hrest]; rfl

/-- What is read from bare tokens is read from placed ones, but for the places. -/
theorem parse_of_unplaced {r : Rule} {ts rest : List Located} {c : Code}
    (h : Reads r.unplaced (ts.map Located.unplaced) c rest) :
    ∃ c' rest', r.parse ts = .ok c' rest' ∧ c'.unplaced = c ∧
      rest'.map Located.unplaced = rest := by
  have hparse := parse_of_reads h
  rw [parse_unplaced] at hparse
  cases hr : r.parse ts with
  | error e rest' => rw [hr] at hparse; cases hparse
  | ok c' rest' =>
    rw [hr] at hparse
    cases hparse
    exact ⟨c', rest', rfl, rfl, rfl⟩

end Rule

/-- The token without a place. -/
def Token.bare (t : Token) : Located := ⟨t, .nowhere⟩

/-- Forgetting the places of a stream and of its end leaves bare tokens. -/
theorem map_unplaced_append (ts : List Located) (p : Position) :
    (ts ++ [⟨.endOfInput, p⟩] : List Located).map Located.unplaced =
      (ts.map Located.token).map Token.bare ++ [Token.bare .endOfInput] := by
  rw [List.map_map, List.map_append]
  rfl

/-- A program read from bare tokens is read from placed ones, but for the places. -/
theorem parseProgram_of_bare {ts : List Located} {c : Code}
    (h : Rule.Reads (.suite []) ((ts.map Located.token).map Token.bare ++ [Token.bare .endOfInput]) c
      [Token.bare .endOfInput]) (p : Position) :
    ∃ c', parseProgram (ts ++ [⟨.endOfInput, p⟩]) = .ok c' ∧ c'.unplaced = c := by
  rw [← map_unplaced_append ts p] at h
  obtain ⟨c', rest, hparse, hc', hrest⟩ := Rule.parse_of_unplaced (r := .suite []) h
  refine ⟨c', parseProgram_eq_ok_iff.mpr ⟨rest, Rule.parse_eq_ok_iff.mp hparse, ?_⟩, hc'⟩
  rw [← Parser.token_next_unplaced, hrest]
  rfl

/-- A program read from placed tokens is read from bare ones, but for the places. -/
theorem reads_bare_of_parseProgram {ts : List Located} {p : Position} {c : Code}
    (hts : ∀ t ∈ ts, t.token ≠ .endOfInput) (h : parseProgram (ts ++ [⟨.endOfInput, p⟩]) = .ok c) :
    Rule.Reads (.suite []) ((ts.map Located.token).map Token.bare ++ [Token.bare .endOfInput])
      c.unplaced [Token.bare .endOfInput] := by
  have hparse := Rule.parse_of_reads ((parseProgram_append_eq_ok_iff hts).mp h)
  have hbare := Rule.parse_unplaced (.suite []) (ts ++ [⟨.endOfInput, p⟩])
  rw [hparse, map_unplaced_append] at hbare
  exact Rule.parse_eq_ok_iff.mp hbare

end GodelWhile
