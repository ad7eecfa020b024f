import XmlOxydizer.Proofs.SiblingAccess
import XmlOxydizer.Proofs.CaptureSubtree
import XmlOxydizer.Proofs.Buffering
import XmlOxydizer.Proofs.Certification
import XmlOxydizer.Proofs.DeadRules
import XmlOxydizer.Proofs.PairedRuns
import XmlOxydizer.Proofs.StateMachine
import XmlOxydizer.Proofs.AccessMode
import XmlOxydizer.Proofs.Endings
import XmlOxydizer.Proofs.Schemas
import XmlOxydizer.Proofs.SubtreeQueries
import XmlOxydizer.Proofs.RuleResults
import XmlOxydizer.Proofs.SiblingIndex
import XmlOxydizer.Proofs.CaptureLimit
import XmlOxydizer.Proofs.UndeclaredSubtrees
import XmlOxydizer.Proofs.InMemory
import XmlOxydizer.Proofs.SummaryRetention
import XmlOxydizer.Proofs.Backpressure
import XmlOxydizer.Proofs.Spelling
import XmlOxydizer.Proofs.AncestorAccess
import XmlOxydizer.Proofs.Macros
import XmlOxydizer.Proofs.Verdicts
import XmlOxydizer.Proofs.SchemaTerms
import XmlOxydizer.Proofs.SchemaMeaning
import XmlOxydizer.Proofs.DeclarationOrder
import XmlOxydizer.Proofs.Disconnects
import XmlOxydizer.Proofs.Threads
import XmlOxydizer.Proofs.Pools
import XmlOxydizer.Proofs.Space
import XmlOxydizer.Proofs.BuildErrors
import XmlOxydizer.Proofs.ErrorPaths
import XmlOxydizer.Proofs.Arrivals
import XmlOxydizer.Proofs.Isolation
import XmlOxydizer.Proofs.RaisedLimits
import XmlOxydizer.Proofs.Navigation
import XmlOxydizer.Proofs.Expressiveness
import XmlOxydizer.Proofs.Interpretation
