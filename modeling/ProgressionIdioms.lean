import ProgressionIdioms.OutOfRange
import ProgressionIdioms.Types.Ty
import ProgressionIdioms.Types.Table
import ProgressionIdioms.Types.Subtype
import ProgressionIdioms.Names.Interner
import ProgressionIdioms.Names.Dotted
import ProgressionIdioms.Code.Node
import ProgressionIdioms.Code.Store
import ProgressionIdioms.Code.Arena
import ProgressionIdioms.Code.Signature
import ProgressionIdioms.Match.ClassSet
import ProgressionIdioms.Match.Pattern
import ProgressionIdioms.Recognize.Kind
import ProgressionIdioms.Recognize.Config
import ProgressionIdioms.Recognize.Progression
import ProgressionIdioms.Recognize.Fault
import ProgressionIdioms.Recognize.StoreM
import ProgressionIdioms.Recognize.Idiom
import ProgressionIdioms.Recognize.Recognizer
import ProgressionIdioms.Session.Script
import ProgressionIdioms.Session.Build
import ProgressionIdioms.Session.Ops
import ProgressionIdioms.Proofs.StoreRun
import ProgressionIdioms.Proofs.Visit
import ProgressionIdioms.Proofs.Descent
import ProgressionIdioms.Proofs.Frame
import ProgressionIdioms.Proofs.Chain
import ProgressionIdioms.Proofs.Faults
import ProgressionIdioms.Proofs.Termination
import ProgressionIdioms.Proofs.StepNode
import ProgressionIdioms.Proofs.Growth
import ProgressionIdioms.Proofs.Exclusive
import ProgressionIdioms.Proofs.SupertypeWalk
import ProgressionIdioms.Proofs.SubtypeOrder
import ProgressionIdioms.Proofs.Classifier
import ProgressionIdioms.Proofs.TableInvariant
import ProgressionIdioms.Proofs.Rendering
import ProgressionIdioms.Proofs.InternerStore
import ProgressionIdioms.Proofs.DottedRoundTrip
import ProgressionIdioms.Proofs.PlainEnds
import ProgressionIdioms.Proofs.ArenaStore
import ProgressionIdioms.Proofs.ArenaRun
import ProgressionIdioms.Proofs.SessionArena
