import Clausal.Search
import Clausal.Script.Form
import Clausal.Proofs.SearchOrder
import Clausal.Proofs.Interpreter
import Clausal.Proofs.CallerTypes
import Clausal.Proofs.DeclaredTypes
import Clausal.Proofs.Operations
import Clausal.Proofs.BodyOrder
import Clausal.Proofs.Noninterference
import Clausal.Proofs.AliasLists
import Clausal.Proofs.TypeSafety
import Clausal.Proofs.Faults
import Clausal.Proofs.Cancellation
import Clausal.Proofs.Persistence
import Clausal.Proofs.Independence
import Clausal.Proofs.OneVariable
import Clausal.Proofs.Sessions
import Clausal.Proofs.NameLookup
import Clausal.Proofs.Coherence
import Clausal.Proofs.ScopeVariables
import Clausal.Proofs.Programs
import Clausal.Proofs.AliasOrder
import Clausal.Proofs.Snapshots
import Clausal.Proofs.Unredirected
import Clausal.Proofs.Agreement
import Clausal.Proofs.Redirection
import Clausal.Proofs.ValueTexts
