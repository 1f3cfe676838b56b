import TurtleVM.Main
import TurtleVM.Proofs.Codec
import TurtleVM.Proofs.Disassembly
import TurtleVM.Proofs.LinearWalk
import TurtleVM.Proofs.Stepping
import TurtleVM.Proofs.BoundedRuns
import TurtleVM.Proofs.Verification
import TurtleVM.Proofs.VerifiedRuns
import TurtleVM.Proofs.Assembling
import TurtleVM.Proofs.SourceMachine
import TurtleVM.Proofs.Reassembly
import TurtleVM.Proofs.Histories
import TurtleVM.Proofs.Watching
import TurtleVM.Proofs.PlottedPoints
import TurtleVM.Proofs.DrawingPath
import TurtleVM.Proofs.TurtlePosition
import TurtleVM.Proofs.CanvasIndependence
import TurtleVM.Proofs.SourceErrors
import TurtleVM.Proofs.WriterCalls
import TurtleVM.Proofs.FailedAssembly
import TurtleVM.Proofs.RefusedLines
import TurtleVM.Proofs.BitmapReading
import TurtleVM.Proofs.CommandEffects
import TurtleVM.Proofs.CutTranscripts
import TurtleVM.Proofs.RenamedLabels
import TurtleVM.Proofs.TwoStageDrawing
import TurtleVM.Proofs.PrefixCode
import TurtleVM.Proofs.DecodeErrors
import TurtleVM.Proofs.TextLayout
import TurtleVM.Proofs.InstructionTable
import TurtleVM.Proofs.StoppedMachines
import TurtleVM.Proofs.ControlStates
import TurtleVM.Proofs.DeferredWrapping
import TurtleVM.Proofs.LineGrammar
import TurtleVM.Proofs.PointSets
import TurtleVM.Proofs.PrintedLines
import TurtleVM.Proofs.LiteralGrammar
import TurtleVM.Proofs.RefusalEffects
import TurtleVM.Proofs.TurnedPaths
import TurtleVM.Proofs.AskedNames
