import RobotLang.Main
import RobotLang.Proofs.Braced.FirstImpossible
import RobotLang.Proofs.FirstComplaint
import RobotLang.Proofs.Formats.BinaryRoundTrip
import RobotLang.Proofs.Formats.JsonRoundTrip
import RobotLang.Proofs.Lexing.Tiling
import RobotLang.Proofs.Link.Targets
import RobotLang.Proofs.Machine.Lowering
import RobotLang.Proofs.Reprinting
import RobotLang.Proofs.StackDiscipline
import RobotLang.Proofs.Worded.Leniency
import RobotLang.Proofs.Worded.Omissions
import RobotLang.Proofs.Worded.Repairs
import RobotLang.Proofs.Fragment.Uses
import RobotLang.Proofs.Underlining
import RobotLang.Proofs.Link.Reports
import RobotLang.Proofs.Braced.Violations
import RobotLang.Proofs.Worded.UndefinedCalls
import RobotLang.Proofs.Fragment.Unplaced
import RobotLang.Proofs.Relayout
import RobotLang.Proofs.Lossless
import RobotLang.Proofs.SameShape
import RobotLang.Proofs.Lexing.StrayRuns
import RobotLang.Proofs.Worded.Offsets
import RobotLang.Proofs.Machine.Sensing
import RobotLang.Proofs.Link.Refusals
import RobotLang.Proofs.Translation
import RobotLang.Proofs.Worded.FoldedNames
import RobotLang.Proofs.Formats.SurplusParts
import RobotLang.Proofs.Listing.Sections
import RobotLang.Proofs.Rule.Resuming
import RobotLang.Proofs.Termination
import RobotLang.Proofs.Lexing.Matching
