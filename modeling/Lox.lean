import Lox.Main
import Lox.Phrase.Bound
import Lox.Execution.Limit
import Lox.Lexical.Cover
import Lox.Proofs.Phrase.Acceptance
import Lox.Proofs.Phrase.Canonical
import Lox.Proofs.Phrase.Boundary
import Lox.Proofs.Execution.Adequacy
import Lox.Proofs.Execution.Frame
import Lox.Proofs.Execution.Definedness
import Lox.Proofs.Relabel.Reading
import Lox.Proofs.Lexical.Scan
import Lox.Proofs.Lexical.Seam
import Lox.Proofs.Lexical.Account
import Lox.Proofs.Lexical.Rescan
import Lox.Proofs.Relabel.Running
import Lox.Proofs.Names.Registration
import Lox.Proofs.Session.Reachable
import Lox.Proofs.Session.Numbering
import Lox.Proofs.Session.Faulty
import Lox.Proofs.Session.Joined
import Lox.Proofs.Session.Layout
import Lox.Proofs.Execution.Braces
import Lox.Proofs.Execution.Unmentioned
import Lox.Proofs.Execution.ForLoop
import Lox.Proofs.Phrase.Recovery
import Lox.Proofs.Phrase.Composition
import Lox.Proofs.Phrase.Progress
import Lox.Proofs.Phrase.Alone
import Lox.Proofs.Phrase.Copies
import Lox.Proofs.Phrase.Misplaced
import Lox.Proofs.Execution.Attribution
import Lox.Proofs.Phrase.Terminator
import Lox.Proofs.Phrase.Walk
import Lox.Proofs.Tree.Listing
import Lox.Proofs.Scope.Sharing
import Lox.Proofs.Lexical.Lines
import Lox.Proofs.Lexical.Stray
import Lox.Proofs.Session.Prompt
import Lox.Proofs.Lexical.TokenListing
import Lox.Proofs.Phrase.FirstBoundary
import Lox.Proofs.Numbered.Reading
import Lox.Proofs.Numbered.Running
