import CobolCalls.Main
import CobolCalls.Proofs.Recognition
import CobolCalls.Proofs.Shapes
import CobolCalls.Proofs.Padding
import CobolCalls.Proofs.Reading
import CobolCalls.Proofs.Exclusion
import CobolCalls.Proofs.Insertion
import CobolCalls.Proofs.BlockGrammar
import CobolCalls.Proofs.Closure
import CobolCalls.Proofs.LineEnds
import CobolCalls.Proofs.Merging
import CobolCalls.Proofs.Concatenation
import CobolCalls.Proofs.Relabelling
import CobolCalls.Proofs.Namespacing
import CobolCalls.Proofs.InertLines
import CobolCalls.Proofs.DotDecoding
import CobolCalls.Proofs.Composition
import CobolCalls.Proofs.Arguments
import CobolCalls.Proofs.Precedence
import CobolCalls.Proofs.Indexing
import CobolCalls.Proofs.Continuation
import CobolCalls.Proofs.ErrorLines
import CobolCalls.Proofs.JsonTokens
import CobolCalls.Proofs.ReportText
import CobolCalls.Proofs.TreeOrder
import CobolCalls.Proofs.Selection
import CobolCalls.Proofs.Finding
import CobolCalls.Proofs.FirstMentions
import CobolCalls.Proofs.Commands
import CobolCalls.Proofs.Failing
import CobolCalls.Proofs.Rendering
import CobolCalls.Proofs.Statistics
import CobolCalls.Proofs.AnalyzeEffects
import CobolCalls.Proofs.ConfigLayouts
import CobolCalls.Proofs.Clauses
import CobolCalls.Proofs.Declarations
import CobolCalls.Proofs.Decoding
import CobolCalls.Proofs.CommentColumns
import CobolCalls.Proofs.LinkEnds
