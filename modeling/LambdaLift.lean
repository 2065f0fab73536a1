import LambdaLift.FileSystem
import LambdaLift.Main
import LambdaLift.Proofs.BindingOccurrences
import LambdaLift.Proofs.ChainRuns
import LambdaLift.Proofs.CompileErrors
import LambdaLift.Proofs.Concatenation
import LambdaLift.Proofs.CoreIndependence
import LambdaLift.Proofs.EditScripts
import LambdaLift.Proofs.ErrorSpans
import LambdaLift.Proofs.FileJobs
import LambdaLift.Proofs.FreshNames
import LambdaLift.Proofs.FunctionHeads
import LambdaLift.Proofs.JsonTrees
import LambdaLift.Proofs.LiftingRuns
import LambdaLift.Proofs.NameClash
import LambdaLift.Proofs.ReadingProgress
import LambdaLift.Proofs.Rendering
import LambdaLift.Proofs.SExprText
import LambdaLift.Proofs.Separators
import LambdaLift.Proofs.Slices
import LambdaLift.Proofs.SpanNesting
import LambdaLift.Proofs.Suggestions
import LambdaLift.Proofs.Traversal
import LambdaLift.Proofs.TreeShapes
import LambdaLift.Proofs.Trivia
import LambdaLift.Proofs.ViablePrefix
import LambdaLift.Tree.SExpr
