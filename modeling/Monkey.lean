import Monkey.Main
import Monkey.Tree.Outline
import Monkey.Proofs.Grammar.Soundness
import Monkey.Proofs.Printing.RoundTrip
import Monkey.Proofs.Evaluation.Agreement
import Monkey.Proofs.Evaluation.DepthLimit
import Monkey.Proofs.Run.Sharing
import Monkey.Proofs.Run.Deletion
import Monkey.Proofs.Scanning.Tiling
import Monkey.Proofs.Evaluation.Signals
import Monkey.Proofs.Parser.Termination
import Monkey.Proofs.Evaluation.Erasure
import Monkey.Proofs.Parser.Recovery
import Monkey.Proofs.Parser.Braces
import Monkey.Proofs.Parser.Concatenation
import Monkey.Proofs.Run.LineByLine
import Monkey.Proofs.Run.Report
import Monkey.Proofs.History
import Monkey.Proofs.Evaluation.Nesting
import Monkey.Proofs.Evaluation.Unread
import Monkey.Proofs.Arithmetic
import Monkey.Proofs.Hashes
import Monkey.Proofs.Equality
import Monkey.Proofs.Parser.Layout
import Monkey.Proofs.Parser.Anchors
import Monkey.Proofs.Parser.Provenance
import Monkey.Proofs.Parser.EndOfText
import Monkey.Proofs.Evaluation.Recursion
import Monkey.Proofs.Run.ElapsedText
import Monkey.Proofs.Digests
