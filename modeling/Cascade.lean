import Cascade.Main
import Cascade.Proofs.QueryTruth
import Cascade.Proofs.ValueReread
import Cascade.Proofs.ReadableText
import Cascade.Proofs.SheetOrder
import Cascade.Proofs.MediaLists
import Cascade.Proofs.FeatureTests
import Cascade.Proofs.IndependentOrder
import Cascade.Proofs.Specificity
import Cascade.Proofs.StopSets
import Cascade.Proofs.HtmlHacks
import Cascade.Proofs.UnitedRulesets
import Cascade.Proofs.ClosedUrls
import Cascade.Proofs.Attributes
import Cascade.Proofs.FormulaPositions
import Cascade.Proofs.OperandUnits
import Cascade.Proofs.CommentMarks
import Cascade.Proofs.DeclarationMarks
import Cascade.Proofs.BoxSides
import Cascade.Proofs.FontWeights
import Cascade.Proofs.NamespacePrefixes
import Cascade.Proofs.IndentWidths
import Cascade.Proofs.VanishingUnits
import Cascade.Proofs.SupportOrder
import Cascade.Proofs.MinimumLists
import Cascade.Proofs.WatchedTrees
import Cascade.Proofs.FoundRoots
import Cascade.Proofs.TaskLists
import Cascade.Proofs.OuterSeparators
import Cascade.Proofs.RelatedProperties
