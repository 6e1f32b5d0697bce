import TerminalConfig.Cursor
import TerminalConfig.DebugLog
import TerminalConfig.Main
import TerminalConfig.Shape.Declaration
import TerminalConfig.Proofs.Appending
import TerminalConfig.Proofs.Bounds
import TerminalConfig.Proofs.Coverage
import TerminalConfig.Proofs.Effective
import TerminalConfig.Proofs.FixedPoint
import TerminalConfig.Proofs.Layout
import TerminalConfig.Proofs.LongestGap
import TerminalConfig.Proofs.Merging
import TerminalConfig.Proofs.PlainText
import TerminalConfig.Proofs.Recovery
import TerminalConfig.Proofs.Renderable
import TerminalConfig.Proofs.Replay
import TerminalConfig.Proofs.Resumption
import TerminalConfig.Proofs.Shapes
import TerminalConfig.Proofs.SkippedLines
import TerminalConfig.Proofs.SourceText
import TerminalConfig.Proofs.StringForms
