import Masthead.Main
import Masthead.Proofs.Comment.Front
import Masthead.Proofs.Comment.Completeness
import Masthead.Proofs.Comment.Ending
import Masthead.Proofs.Comment.Fault
import Masthead.Proofs.Header.Chain
import Masthead.Proofs.Header.Repetition
import Masthead.Proofs.Header.Respelling
import Masthead.Proofs.Header.Separation
import Masthead.Proofs.Header.Preamble
import Masthead.Proofs.Language.Recognition
import Masthead.Proofs.CommandLine.Unreadable
import Masthead.Proofs.Editor.Admission
import Masthead.Proofs.Editor.SharedFiles
import Masthead.Proofs.Editor.Validity
import Masthead.Proofs.Language.Extension
import Masthead.Proofs.Header.Definitions
import Masthead.Proofs.Header.Sections
import Masthead.Proofs.Editor.BlankHeader
import Masthead.Proofs.EndingCount
import Masthead.Proofs.LineEnd
import Masthead.Proofs.Header.Dominance
import Masthead.Proofs.Header.CarriedExtension
import Masthead.Proofs.CommandLine.Collect
import Masthead.Proofs.Report.Diff
import Masthead.Proofs.Config.Validity
import Masthead.Proofs.CommandLine.Parallelism
import Masthead.Proofs.Comment.Rounds
