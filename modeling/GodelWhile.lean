import GodelWhile.Main
import GodelWhile.Proofs.Pairing
import GodelWhile.Proofs.Canonical
import GodelWhile.Proofs.NormalForm
import GodelWhile.Proofs.Outcome
import GodelWhile.Proofs.AllRuns
import GodelWhile.Proofs.Correspondence
import GodelWhile.Proofs.Expression
import GodelWhile.Proofs.NormalRuns
import GodelWhile.Proofs.Reading
import GodelWhile.Proofs.Placement
import GodelWhile.Proofs.Derivation
import GodelWhile.Proofs.Nesting
import GodelWhile.Proofs.Spelling
import GodelWhile.Proofs.RoundTrip
import GodelWhile.Proofs.Reparsing
import GodelWhile.Proofs.Ambiguity
import GodelWhile.Proofs.Safety
import GodelWhile.Proofs.PrintedRuns
import GodelWhile.Proofs.DecodedText
import GodelWhile.Proofs.Frame
import GodelWhile.Proofs.Unset
import GodelWhile.Proofs.Truncation
import GodelWhile.Proofs.DecodedSize
import GodelWhile.Proofs.Lexemes
import GodelWhile.Proofs.Places
import GodelWhile.Proofs.Alphabet
import GodelWhile.Proofs.EndOfInput
import GodelWhile.Proofs.Blame
import GodelWhile.Proofs.Layout
import GodelWhile.Proofs.Progress
