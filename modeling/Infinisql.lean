import Infinisql.Lib.Run
import Infinisql.Spec.Cell
import Infinisql.Proofs.TableCells
import Infinisql.Lib.RwLock
import Infinisql.Proofs.TableLocks
import Infinisql.Spec.History
import Infinisql.Proofs.TableReads
import Infinisql.Proofs.TableInvariant
import Infinisql.Proofs.TableRollback
import Infinisql.Proofs.TableCommit
import Infinisql.Lib.Reserve
import Infinisql.Proofs.UniqueProtocol
import Infinisql.Proofs.IndexEntries
import Infinisql.Proofs.RowValues
import Infinisql.Proofs.Delivery
import Infinisql.Proofs.CommitItems
import Infinisql.Proofs.UpdateIndex
import Infinisql.Proofs.ReplaceIndex
import Infinisql.Proofs.CommitDispatch
import Infinisql.Proofs.Logins
import Infinisql.Proofs.Routing
import Infinisql.Proofs.InsertIndex
import Infinisql.Proofs.UpdateRows
import Infinisql.Proofs.NotNull
import Infinisql.Proofs.StagedRead
import Infinisql.Proofs.Mailbox
import Infinisql.Proofs.PgLogins
import Infinisql.Proofs.ReplayItems
import Infinisql.Proofs.ReplicaAcks
import Infinisql.Proofs.ReplicaMirror
import Infinisql.Proofs.ReplicaCodec
import Infinisql.Proofs.Gateways
import Infinisql.Lib.Channels
import Infinisql.Proofs.SchemaAgreement
import Infinisql.Proofs.Routes
import Infinisql.Proofs.PgSession
import Infinisql.Proofs.PgPipeline
import Infinisql.Ref.Versions
import Infinisql.Spec.Predecessors
import Infinisql.Proofs.Predecessors
import Infinisql.Proofs.WholeTable
import Infinisql.Proofs.FirstField
import Infinisql.Lib.Collections
import Infinisql.Ref.Controller
import Infinisql.Spec.Controller
import Infinisql.Proofs.Membership
import Infinisql.Proofs.Elections
import Infinisql.Proofs.DecidedElections
import Infinisql.Proofs.Partition
import Infinisql.Lib.Heap
import Infinisql.Ref.AstNodes
import Infinisql.Spec.AstNodes
import Infinisql.Proofs.ExpressionTrees
import Infinisql.Proofs.FieldNames
import Infinisql.Spec.Evaluators
import Infinisql.Proofs.Evaluators
import Infinisql.Proofs.Arithmetic
import Infinisql.Spec.FloatArithmetic
import Infinisql.Proofs.FloatArithmetic
import Infinisql.Ref.PgMessages
import Infinisql.Spec.PgMessages
import Infinisql.Proofs.Framing
import Infinisql.Ref.PgOutput
import Infinisql.Spec.PgOutput
import Infinisql.Proofs.OutputStream
import Infinisql.Ref.Larxer
import Infinisql.Ref.Grammar
import Infinisql.Ref.Subqueries
import Infinisql.Spec.Subqueries
import Infinisql.Proofs.Parsing
import Infinisql.Proofs.CompiledQueries
import Infinisql.Proofs.SaneQueries
import Infinisql.Proofs.SubqueryResults
import Infinisql.Proofs.Subqueries
import Infinisql.Lib.Sorted
import Infinisql.Ref.IndexSearch
import Infinisql.Spec.IndexSearch
import Infinisql.Proofs.IndexSearch
import Infinisql.Lib.Buffer
import Infinisql.Ref.RowCodec
import Infinisql.Spec.RowCodec
import Infinisql.Proofs.RowCodec
import Infinisql.Ref.LockQueue
import Infinisql.Spec.LockQueue
import Infinisql.Proofs.LockQueue
import Infinisql.Lib.Regex
import Infinisql.Ref.IndexRegex
import Infinisql.Spec.IndexRegex
import Infinisql.Proofs.IndexRegex
import Infinisql.Lib.Steps
import Infinisql.Ref.SearchCondition
import Infinisql.Spec.SearchCondition
import Infinisql.Proofs.SearchTerms
import Infinisql.Proofs.SearchValues
import Infinisql.Proofs.SearchReplies
import Infinisql.Proofs.SearchCondition
import Infinisql.Ref.Reassembly
import Infinisql.Spec.Reassembly
import Infinisql.Proofs.Reassembly
import Infinisql.Lib.Parser
import Infinisql.Spec.PgResults
import Infinisql.Proofs.PgResults
import Infinisql.Ref.ConnectionTable
import Infinisql.Spec.ConnectionTable
import Infinisql.Proofs.ConnectionTable
import Infinisql.Lib.Lexing
import Infinisql.Proofs.Lexer
import Infinisql.Proofs.LexedTokens
import Infinisql.Lib.Precedence
import Infinisql.Proofs.StatementTexts
import Infinisql.Proofs.DerivedStatements
import Infinisql.Proofs.Chains
import Infinisql.Proofs.WrittenStatements
